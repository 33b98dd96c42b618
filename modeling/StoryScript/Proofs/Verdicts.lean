import Mathlib.Algebra.BigOperators.Group.Finset.Basic
import StoryScript.Proofs.Renewal
import StoryScript.Proofs.Watching

/-! The verdicts of waits, tick by tick. Whatever a wait waits for, it is pending until its goal is met
in a tick or its limit is reached by the time of all ticks until then, and it assigns what belongs to
the first of these. A tick in which the goal is met adds nothing to the time. All this is so as long
as the time fits into 64 bits: a tick that brings it out of their range breaks off. -/
namespace StoryScript
open Numeral (fitsInt64)

/-- What is asked of a goal: whether it is met, for a wait that began at this time. -/
def Watch.asked (w : Watch) (sinceStart : Bool) (now : Int) : Option Int :=
  if sinceStart then some (w.start.getD now) else w.start

theorem Watch.poll_eq (w : Watch) (sinceStart : Bool) (now delta limit : Int)
    (met : Option Int → Bool) : w.poll sinceStart now delta limit met =
      if met (w.asked sinceStart now) then (.satisfied, ⟨w.elapsed, w.asked sinceStart now⟩)
      else (if 0 < limit ∧ limit ≤ w.elapsed + delta then .timedOut else .pending,
        ⟨w.elapsed + delta, w.asked sinceStart now⟩) := rfl

/-- A look that does not break off is a look at a time without bounds. -/
theorem Watch.poll?_eq_some_iff {w : Watch} {sinceStart : Bool} {now delta limit : Int}
    {met : Option Int → Bool} {p : Verdict × Watch} :
    w.poll? sinceStart now delta limit met = some p ↔
      w.poll sinceStart now delta limit met = p ∧ fitsInt64 p.2.elapsed = true := by
  rw [poll?]
  dsimp only
  split
  · next hfits =>
    rw [Option.some.injEq]
    constructor
    · rintro rfl
      exact ⟨rfl, hfits⟩
    · exact And.left
  · next hfits =>
    refine iff_of_false nofun ?_
    rintro ⟨rfl, hfits'⟩
    exact hfits hfits'

/-! ### Waits by themselves -/

/-- A wait for whatever goal: whether it matters when it began, what it assigns, the context in which
it was last evaluated, and how far it has come. -/
structure Wait where
  sinceStart : Bool
  outcomes : Outcomes Operand
  context : Option Context := none
  watch : Watch := {}

namespace Wait

def evaluate (x : Wait) (c : Context) : Wait := { x with context := some c }

def reset (x : Wait) : Wait := { x with watch := {} }

def clone (x : Wait) : Wait := { x with context := none, watch := {} }

/-- What a wait assigns, as it was last evaluated. -/
def values (x : Wait) : Outcomes Value := x.outcomes.map (Operand.read x.context)

/-- What a tick of a wait comes to. -/
structure Run (ω : Type) where
  pending : Bool
  wait : Wait
  stage : Stage ω
  effects : List Effect

variable {ω : Type}

/-- Looks once at the goal of a wait, and assigns what belongs to the verdict. It comes to nothing if
the look breaks off. -/
def step (x : Wait) (now delta : Int) (met : Option Int → Bool) (s : Stage ω) : Option (Run ω) := do
  let (v, watch) ← x.watch.poll? x.sinceStart now delta x.values.limit met
  let (s, fx) := x.values.run v s
  return ⟨v = .pending, { x with watch }, s, fx⟩

/-- A tick of a wait: the context in which the wait is evaluated before it, if it is, the clock, the
time since the last tick, the goal, and the stage. -/
structure Look (ω : Type) where
  context : Option Context
  now : Int
  delta : Int
  met : Option Int → Bool
  stage : Stage ω

def ready (x : Wait) (l : Look ω) : Wait :=
  match l.context with
  | some c => x.evaluate c
  | none => x

def tick (x : Wait) (l : Look ω) : Option (Run ω) := (x.ready l).step l.now l.delta l.met l.stage

/-- A wait that has not begun: a new one, one that is begun anew, or a copy. -/
inductive Fresh : Wait → Prop
  | new (sinceStart : Bool) (o : Outcomes Operand) : Fresh { sinceStart, outcomes := o }
  | reset (x : Wait) : Fresh x.reset
  | clone (x : Wait) : Fresh x.clone

theorem Fresh.watch_eq {x : Wait} (h : x.Fresh) : x.watch = {} := by
  cases h <;> rfl

/-! ### Sequences of ticks -/

/-- The wait as the first ticks leave it, unless one of them breaks off. -/
def after (x : Wait) (l : Nat → Look ω) : Nat → Option Wait
  | 0 => some x
  | k + 1 => do
    let y ← x.after l k
    let r ← y.tick (l k)
    return r.wait

/-- A tick of the wait, after those before it. -/
def runAt (x : Wait) (l : Nat → Look ω) (k : Nat) : Option (Run ω) := do
  let y ← x.after l k
  y.tick (l k)

/-- The context in which the wait has been evaluated before a tick, if it has. -/
def contextBefore (x : Wait) (l : Nat → Look ω) : Nat → Option Context
  | 0 => x.context
  | k + 1 => (l k).context.or (x.contextBefore l k)

/-- What the wait assigns in a tick, as it is evaluated before it. -/
def valuesAt (x : Wait) (l : Nat → Look ω) (k : Nat) : Outcomes Value :=
  x.outcomes.map (Operand.read (x.contextBefore l (k + 1)))

/-- What is asked of the goal in a tick, if the wait comes to it. -/
def askedAt (x : Wait) (l : Nat → Look ω) (k : Nat) : Option (Option Int) :=
  (x.after l k).map fun y => y.watch.asked x.sinceStart (l k).now

/-- The time that the first ticks take together. -/
def spent (l : Nat → Look ω) (k : Nat) : Int := ∑ i ∈ Finset.range k, (l i).delta

/-- The time of the first tick, if it matters to the goal. -/
def start (x : Wait) (l : Nat → Look ω) : Option Int := if x.sinceStart then some (l 0).now else none

/-- The goal is met in a tick. -/
def Met (x : Wait) (l : Nat → Look ω) (k : Nat) : Prop := (l k).met (x.start l) = true

/-- The limit is reached in a tick. -/
def Expires (x : Wait) (l : Nat → Look ω) (k : Nat) : Prop :=
  0 < (x.valuesAt l k).limit ∧ (x.valuesAt l k).limit ≤ spent l (k + 1)

/-- The time of a tick fits into 64 bits with that of those before it, or is not counted, as the goal
is met. -/
def Fits (x : Wait) (l : Nat → Look ω) (k : Nat) : Prop :=
  x.Met l k ∨ fitsInt64 (spent l (k + 1)) = true

instance (x : Wait) (l : Nat → Look ω) (k : Nat) : Decidable (x.Met l k) :=
  inferInstanceAs (Decidable (_ = true))

instance (x : Wait) (l : Nat → Look ω) (k : Nat) : Decidable (x.Expires l k) :=
  inferInstanceAs (Decidable (_ ∧ _))

instance (x : Wait) (l : Nat → Look ω) (k : Nat) : Decidable (x.Fits l k) :=
  inferInstanceAs (Decidable (_ ∨ _))

/-- What an assignment writes if there is one, and its target has a name. -/
def written (a : Option (Assignment Value)) (s : Stage ω) : Stage ω × List Effect :=
  match a with
  | some a =>
    if a.target.toText = "" then (s, [])
    else
      ({ s with scope := s.scope.set a.target.toText a.value }, [.wrote a.target.toText a.value])
  | none => (s, [])

/-- What the ticks of a wait come to until the first one in which its goal is met or its limit is
reached. -/
structure Decided (x : Wait) (l : Nat → Look ω) (k : Nat) : Prop where
  asked : ∀ j ≤ k, x.askedAt l j = some (x.start l)
  pending : ∀ j < k, ∃ r, x.runAt l j = some r ∧ r.pending = true ∧ r.stage = (l j).stage ∧
    r.effects = []
  satisfied : x.Met l k → ∃ r, x.runAt l k = some r ∧ r.pending = false ∧
    (r.stage, r.effects) = written (x.valuesAt l k).success (l k).stage ∧
      r.wait.watch.elapsed = spent l k
  timedOut : ¬ x.Met l k → x.Expires l k → ∃ r, x.runAt l k = some r ∧ r.pending = false ∧
    (r.stage, r.effects) = written ((x.valuesAt l k).timeout.map (·.assignment)) (l k).stage ∧
      r.wait.watch.elapsed = spent l (k + 1)
  goesOn : ¬ x.Met l k → ¬ x.Expires l k → ∃ r, x.runAt l k = some r ∧ r.pending = true

/-! ### One tick -/

section
variable {x : Wait} {now delta : Int} {met : Option Int → Bool} {s : Stage ω}

theorem step_of_met (h : met (x.watch.asked x.sinceStart now) = true)
    (hfits : fitsInt64 x.watch.elapsed = true) :
    x.step now delta met s =
      let w := written x.values.success s
      some ⟨false, { x with watch := ⟨x.watch.elapsed, x.watch.asked x.sinceStart now⟩ },
        w.1, w.2⟩ := by
  have hpoll : x.watch.poll? x.sinceStart now delta x.values.limit met =
      some (.satisfied, ⟨x.watch.elapsed, x.watch.asked x.sinceStart now⟩) :=
    Watch.poll?_eq_some_iff.2 ⟨by rw [Watch.poll_eq, if_pos h], hfits⟩
  rw [step, hpoll]
  rfl

theorem step_of_expired (h : ¬ met (x.watch.asked x.sinceStart now) = true)
    (hfits : fitsInt64 (x.watch.elapsed + delta) = true)
    (hlimit : 0 < x.values.limit ∧ x.values.limit ≤ x.watch.elapsed + delta) :
    x.step now delta met s =
      let w := written (x.values.timeout.map (·.assignment)) s
      some ⟨false, { x with watch := ⟨x.watch.elapsed + delta, x.watch.asked x.sinceStart now⟩ },
        w.1, w.2⟩ := by
  have hpoll : x.watch.poll? x.sinceStart now delta x.values.limit met =
      some (.timedOut, ⟨x.watch.elapsed + delta, x.watch.asked x.sinceStart now⟩) :=
    Watch.poll?_eq_some_iff.2 ⟨by rw [Watch.poll_eq, if_neg h, if_pos hlimit], hfits⟩
  rw [step, hpoll]
  rfl

theorem step_of_pending (h : ¬ met (x.watch.asked x.sinceStart now) = true)
    (hfits : fitsInt64 (x.watch.elapsed + delta) = true)
    (hlimit : ¬ (0 < x.values.limit ∧ x.values.limit ≤ x.watch.elapsed + delta)) :
    x.step now delta met s =
      some ⟨true, { x with watch := ⟨x.watch.elapsed + delta, x.watch.asked x.sinceStart now⟩ },
        s, []⟩ := by
  have hpoll : x.watch.poll? x.sinceStart now delta x.values.limit met =
      some (.pending, ⟨x.watch.elapsed + delta, x.watch.asked x.sinceStart now⟩) :=
    Watch.poll?_eq_some_iff.2 ⟨by rw [Watch.poll_eq, if_neg h, if_neg hlimit], hfits⟩
  rw [step, hpoll]
  rfl

theorem step_eq_none (h : ¬ met (x.watch.asked x.sinceStart now) = true)
    (hfits : ¬ fitsInt64 (x.watch.elapsed + delta) = true) : x.step now delta met s = none := by
  have hpoll : x.watch.poll? x.sinceStart now delta x.values.limit met = none := by
    rw [Watch.poll?, Watch.poll_eq, if_neg h]
    exact if_neg hfits
  rw [step, hpoll]
  rfl

end

@[simp] theorem watch_ready (x : Wait) (l : Look ω) : (x.ready l).watch = x.watch := by
  unfold ready
  split <;> rfl

@[simp] theorem sinceStart_ready (x : Wait) (l : Look ω) :
    (x.ready l).sinceStart = x.sinceStart := by
  unfold ready
  split <;> rfl

@[simp] theorem outcomes_ready (x : Wait) (l : Look ω) : (x.ready l).outcomes = x.outcomes := by
  unfold ready
  split <;> rfl

@[simp] theorem context_ready (x : Wait) (l : Look ω) :
    (x.ready l).context = l.context.or x.context := by
  unfold ready
  split <;> simp_all [evaluate]

/-- A tick changes nothing of a wait but how far it has come. -/
theorem wait_of_tick {x : Wait} {l : Look ω} {r : Run ω} (h : x.tick l = some r) :
    r.wait = { x.ready l with watch := r.wait.watch } := by
  simp only [tick, step, Option.bind_eq_bind, Option.bind_eq_some_iff] at h
  obtain ⟨p, -, hr⟩ := h
  cases hr
  rfl

/-! ### All ticks -/

/-- How a wait stands before a tick, if none of those before it was its last and all of them could be
counted. -/
structure Stands (x y : Wait) (l : Nat → Look ω) (k : Nat) : Prop where
  after : x.after l k = some y
  sinceStart : y.sinceStart = x.sinceStart
  outcomes : y.outcomes = x.outcomes
  context : y.context = x.contextBefore l k
  elapsed : y.watch.elapsed = spent l k
  fits : fitsInt64 (spent l k) = true
  asked : y.watch.asked x.sinceStart (l k).now = x.start l

theorem stands_zero {x : Wait} (hx : x.Fresh) (l : Nat → Look ω) : Stands x x l 0 := by
  have hspent : spent l 0 = 0 := rfl
  refine ⟨rfl, rfl, rfl, rfl, by rw [hx.watch_eq, hspent], by rw [hspent]; decide, ?_⟩
  rw [hx.watch_eq, Watch.asked, start]
  rfl

theorem spent_succ (l : Nat → Look ω) (k : Nat) : spent l (k + 1) = spent l k + (l k).delta :=
  Finset.sum_range_succ _ _

theorem after_succ (x : Wait) (l : Nat → Look ω) (k : Nat) :
    x.after l (k + 1) = (x.runAt l k).map (·.wait) := by
  rw [after, runAt]
  cases x.after l k with
  | none => rfl
  | some y => exact Option.map_eq_bind.symm

namespace Stands
variable {x y : Wait} {l : Nat → Look ω} {k : Nat} (h : Stands x y l k)
include h

theorem runAt_eq : x.runAt l k = (y.ready (l k)).step (l k).now (l k).delta (l k).met (l k).stage := by
  rw [runAt, h.after]
  rfl

theorem askedAt_eq : x.askedAt l k = some (x.start l) := by
  rw [askedAt, h.after, Option.map_some, h.asked]

theorem asked_ready : (y.ready (l k)).watch.asked (y.ready (l k)).sinceStart (l k).now = x.start l := by
  rw [watch_ready, sinceStart_ready, h.sinceStart, h.asked]

theorem values_ready : (y.ready (l k)).values = x.valuesAt l k := by
  rw [values, outcomes_ready, context_ready, h.outcomes, h.context]
  rfl

theorem elapsed_ready : (y.ready (l k)).watch.elapsed = spent l k := by
  rw [watch_ready, h.elapsed]

theorem spent_ready : (y.ready (l k)).watch.elapsed + (l k).delta = spent l (k + 1) := by
  rw [h.elapsed_ready, spent_succ]

theorem met_iff : x.Met l k ↔ (l k).met ((y.ready (l k)).watch.asked (y.ready (l k)).sinceStart
    (l k).now) = true := by
  rw [h.asked_ready, Met]

theorem expires_iff : x.Expires l k ↔ 0 < (y.ready (l k)).values.limit ∧
    (y.ready (l k)).values.limit ≤ (y.ready (l k)).watch.elapsed + (l k).delta := by
  rw [h.values_ready, h.spent_ready, Expires]

theorem satisfied (hmet : x.Met l k) : ∃ r, x.runAt l k = some r ∧ r.pending = false ∧
    (r.stage, r.effects) = written (x.valuesAt l k).success (l k).stage ∧
      r.wait.watch.elapsed = spent l k := by
  have hfits : fitsInt64 (y.ready (l k)).watch.elapsed = true := by rw [h.elapsed_ready, h.fits]
  have hstep := h.runAt_eq.trans (step_of_met (h.met_iff.1 hmet) hfits)
  rw [h.values_ready] at hstep
  exact ⟨_, hstep, rfl, rfl, h.elapsed_ready⟩

theorem timedOut (hmet : ¬ x.Met l k) (hfits : fitsInt64 (spent l (k + 1)) = true)
    (hexp : x.Expires l k) : ∃ r, x.runAt l k = some r ∧ r.pending = false ∧
    (r.stage, r.effects) = written ((x.valuesAt l k).timeout.map (·.assignment)) (l k).stage ∧
      r.wait.watch.elapsed = spent l (k + 1) := by
  rw [← h.spent_ready] at hfits
  have hstep := h.runAt_eq.trans
    (step_of_expired (mt h.met_iff.2 hmet) hfits (h.expires_iff.1 hexp))
  rw [h.values_ready] at hstep
  exact ⟨_, hstep, rfl, rfl, h.spent_ready⟩

theorem goesOn (hmet : ¬ x.Met l k) (hfits : fitsInt64 (spent l (k + 1)) = true)
    (hexp : ¬ x.Expires l k) : ∃ r, x.runAt l k = some r ∧ r.pending = true ∧
      r.stage = (l k).stage ∧ r.effects = [] ∧ Stands x r.wait l (k + 1) := by
  have hcounted : fitsInt64 ((y.ready (l k)).watch.elapsed + (l k).delta) = true := by
    rw [h.spent_ready, hfits]
  have hstep := h.runAt_eq.trans
    (step_of_pending (mt h.met_iff.2 hmet) hcounted (mt h.expires_iff.2 hexp))
  rw [h.spent_ready, h.asked_ready] at hstep
  -- The time at which the wait began is noted in its first tick and kept.
  have hasked : Watch.asked ⟨spent l (k + 1), x.start l⟩ x.sinceStart (l (k + 1)).now =
      x.start l := by
    simp only [Watch.asked, start]
    split <;> rfl
  refine ⟨_, hstep, rfl, rfl, rfl, ?_, ?_, ?_, ?_, rfl, hfits, hasked⟩
  · rw [after_succ, hstep, Option.map_some]
  · exact (sinceStart_ready _ _).trans h.sinceStart
  · exact (outcomes_ready _ _).trans h.outcomes
  · exact (context_ready _ _).trans (by rw [h.context, contextBefore])

theorem breaksOff (hfits : ¬ x.Fits l k) : x.runAt l k = none := by
  obtain ⟨hmet, hover⟩ := not_or.1 hfits
  have hover : ¬ fitsInt64 ((y.ready (l k)).watch.elapsed + (l k).delta) = true := by
    rwa [h.spent_ready]
  rw [h.runAt_eq]
  exact step_eq_none (mt h.met_iff.2 hmet) hover

end Stands

variable {x : Wait} {l : Nat → Look ω} {k : Nat}

/-- A wait stands well before every tick until the one that ends it. -/
theorem exists_stands (hx : x.Fresh) (hk : ∀ j < k, ¬ x.Met l j ∧ ¬ x.Expires l j)
    (hfits : ∀ j < k, x.Fits l j) : ∃ y, Stands x y l k := by
  induction k with
  | zero => exact ⟨x, stands_zero hx l⟩
  | succ k ih =>
    obtain ⟨y, hy⟩ := ih (fun j hj => hk j (by omega)) fun j hj => hfits j (by omega)
    obtain ⟨hmet, hexp⟩ := hk k (by omega)
    obtain ⟨r, -, -, -, -, hr⟩ := hy.goesOn hmet ((hfits k (by omega)).resolve_left hmet) hexp
    exact ⟨r.wait, hr⟩

theorem decided (hx : x.Fresh) (hk : ∀ j < k, ¬ x.Met l j ∧ ¬ x.Expires l j)
    (hfits : ∀ j ≤ k, x.Fits l j) : Decided x l k := by
  have hstands (j : Nat) (hj : j ≤ k) : ∃ y, Stands x y l j :=
    exists_stands hx (fun i hi => hk i (by omega)) fun i hi => hfits i (by omega)
  obtain ⟨y, hy⟩ := hstands k le_rfl
  have hcounted (hmet : ¬ x.Met l k) := (hfits k le_rfl).resolve_left hmet
  refine ⟨fun j hj => ?_, fun j hj => ?_, hy.satisfied, fun hmet => hy.timedOut hmet (hcounted hmet),
    fun hmet hexp => ?_⟩
  · obtain ⟨z, hz⟩ := hstands j hj
    exact hz.askedAt_eq
  · obtain ⟨z, hz⟩ := hstands j (by omega)
    obtain ⟨hmet, hexp⟩ := hk j hj
    obtain ⟨r, hr, hpending, hstage, heffects, -⟩ :=
      hz.goesOn hmet ((hfits j (by omega)).resolve_left hmet) hexp
    exact ⟨r, hr, hpending, hstage, heffects⟩
  · obtain ⟨r, hr, hpending, -⟩ := hy.goesOn hmet (hcounted hmet) hexp
    exact ⟨r, hr, hpending⟩

theorem Decided.exists_run (h : Decided x l k) : ∀ j ≤ k, ∃ r, x.runAt l j = some r := by
  intro j hj
  by_cases hjk : j < k
  · obtain ⟨r, hr, -⟩ := h.pending j hjk
    exact ⟨r, hr⟩
  · obtain rfl : j = k := by omega
    by_cases hmet : x.Met l j
    · obtain ⟨r, hr, -⟩ := h.satisfied hmet
      exact ⟨r, hr⟩
    · by_cases hexp : x.Expires l j
      · obtain ⟨r, hr, -⟩ := h.timedOut hmet hexp
        exact ⟨r, hr⟩
      · obtain ⟨r, hr, -⟩ := h.goesOn hmet hexp
        exact ⟨r, hr⟩

/-- The first tick that does not fit breaks off. -/
theorem runAt_eq_none (hx : x.Fresh) (hk : ∀ j < k, ¬ x.Met l j ∧ ¬ x.Expires l j)
    (hfits : ∀ j < k, x.Fits l j) (hover : ¬ x.Fits l k) : x.runAt l k = none := by
  obtain ⟨y, hy⟩ := exists_stands hx hk hfits
  exact hy.breaksOff hover

theorem decided_iff (hx : x.Fresh) (hk : ∀ j < k, ¬ x.Met l j ∧ ¬ x.Expires l j) :
    Decided x l k ↔ ∀ j ≤ k, x.Fits l j := by
  refine ⟨fun h j => ?_, decided hx hk⟩
  induction j using Nat.strong_induction_on with
  | _ j ih =>
    intro hj
    by_contra hover
    obtain ⟨r, hr⟩ := h.exists_run j hj
    have hnone := runAt_eq_none hx (fun i hi => hk i (by omega)) (fun i hi => ih i hi (by omega)) hover
    cases hr.symm.trans hnone

/-- A wait whose limit is never above zero is over when its goal is met, and never before. -/
theorem pending_iff (hx : x.Fresh) (hlimit : ∀ j, (x.valuesAt l j).limit ≤ 0)
    (hk : ∀ j < k, ¬ x.Met l j) (hfits : ∀ j ≤ k, x.Fits l j) :
    ∃ r, x.runAt l k = some r ∧ (r.pending = true ↔ ¬ x.Met l k) := by
  have hnever (j : Nat) : ¬ x.Expires l j := fun hexp => (hexp.1.trans_le (hlimit j)).false
  have hdecided := decided hx (fun j hj => ⟨hk j hj, hnever j⟩) hfits
  by_cases hmet : x.Met l k
  · obtain ⟨r, hr, hover, -⟩ := hdecided.satisfied hmet
    exact ⟨r, hr, by simp [hover, hmet]⟩
  · obtain ⟨r, hr, hpending⟩ := hdecided.goesOn hmet (hnever k)
    exact ⟨r, hr, by simp [hpending, hmet]⟩

/-- Whatever a wait that has not begun waits for, and however its goal, its limit and the time change
from tick to tick, the first tick that meets the goal or reaches the limit decides it if and only if
the time fits into 64 bits in every tick until then. The first tick in which it does not breaks off. -/
theorem ticks_decided (hx : x.Fresh) (l : Nat → Look ω) :
    (∀ k, (∀ j < k, ¬ x.Met l j ∧ ¬ x.Expires l j) →
      (Decided x l k ↔ ∀ j ≤ k, x.Fits l j) ∧
        ((∀ j < k, x.Fits l j) → ¬ x.Fits l k → x.runAt l k = none)) ∧
      ((∀ j, (x.valuesAt l j).limit ≤ 0) → ∀ k, (∀ j < k, ¬ x.Met l j) →
        (∀ j ≤ k, x.Fits l j) → ∃ r, x.runAt l k = some r ∧ (r.pending = true ↔ ¬ x.Met l k)) :=
  ⟨fun _ hk => ⟨decided_iff hx hk, runAt_eq_none hx hk⟩,
    fun hlimit _ hk hfits => pending_iff hx hlimit hk hfits⟩

/-- A wait with a limit, which assigns 1 when its goal is met and 0 when its limit is reached. -/
def limited (limit : Int64) : Wait :=
  ⟨true, ⟨some ⟨Operand.literal (.text "@r"), Operand.literal (.int 1)⟩,
    some ⟨Operand.literal (.int limit), Operand.literal (.text "@r"), Operand.literal (.int 0)⟩⟩,
    none, {}⟩

/-- Ticks of equal length, in none of which the goal is met. -/
def steady (delta : Int) (k : Nat) : Look Unit :=
  ⟨some default, delta * k, delta, fun _ => false, ⟨∅, ()⟩⟩

/-- The fifth tick reaches the limit. -/
theorem ticks_decided_halfSecond :
    (limited 500).Fresh ∧ Decided (limited 500) (steady 100) 4 ∧
      ((limited 500).runAt (steady 100) 4).map (fun r =>
        (r.pending, (r.stage.scope.read "@r").toInt, r.wait.watch)) =
          some (false, 0, ⟨500, some 0⟩) := by
  have hfresh : (limited 500).Fresh := .new _ _
  have hpending : ∀ j < 4, ¬ (limited 500).Met (steady 100) j ∧
      ¬ (limited 500).Expires (steady 100) j := by decide +kernel
  have hfits : ∀ j ≤ 4, (limited 500).Fits (steady 100) j := by decide +kernel
  exact ⟨hfresh, ((ticks_decided hfresh (steady 100)).1 4 hpending).1.2 hfits, by decide +kernel⟩

/-- The second of two long ticks reaches the greatest limit there is, and the wait breaks off in it. -/
theorem not_decided_longest :
    let x := limited 9223372036854775807
    let l := steady 5000000000000000000
    x.Fresh ∧ (∀ j < 1, ¬ x.Met l j ∧ ¬ x.Expires l j) ∧ ¬ x.Met l 1 ∧ x.Expires l 1 ∧
      x.runAt l 1 = none ∧ ¬ Decided x l 1 := by
  intro x l
  have hfresh : x.Fresh := .new _ _
  have hpending : ∀ j < 1, ¬ x.Met l j ∧ ¬ x.Expires l j := by decide +kernel
  have hfits : ∀ j < 1, x.Fits l j := by decide +kernel
  have hover : ¬ x.Fits l 1 := by decide +kernel
  exact ⟨hfresh, hpending, by decide +kernel, by decide +kernel,
    runAt_eq_none hfresh hpending hfits hover,
    fun h => hover ((decided_iff hfresh hpending).1 h 1 le_rfl)⟩

end Wait

/-! ### Commands that wait for a goal -/

/-- The wait of a command, evaluated in some context and as far as some watch. -/
def Await.wait (w : Await Operand) (c : Option Context) (watch : Watch) : Wait :=
  ⟨w.goal.sinceStart, w.outcomes, c, watch⟩

namespace Task
variable {ω : Type} [World ω]

/-- A round of a command that waits, as a tick of its wait. -/
def Round.look (w : Await Operand) (r : Round ω) : Wait.Look ω :=
  ⟨some r.context, r.now, r.delta, (w.goal.map (Operand.read (some r.context))).met r.stage, r.stage⟩

/-- What a tick of the wait of a command is for the command. -/
def Run.ofWait (w : Await Operand) (steps : Nat) (o : Wait.Run ω) : Run ω :=
  ⟨o.pending, ⟨.await w, o.wait.context, o.wait.watch⟩, o.stage, steps, o.effects⟩

theorem turn_await {w : Await Operand} {c : Option Context} {watch : Watch} {r : Round ω}
    {o : Wait.Run ω} (h : (w.wait c watch).tick (r.look w) = some o) :
    turn ⟨.await w, c, watch⟩ r = .ofWait w r.steps o := by
  simp only [Wait.tick, Wait.step, Option.bind_eq_bind, Option.bind_eq_some_iff] at h
  obtain ⟨p, hp, ho⟩ := h
  obtain ⟨rfl, -⟩ := Watch.poll?_eq_some_iff.1 hp
  cases ho
  simp only [turn, evaluate, run, Await.run, Await.map, Goal.sinceStart_map]
  rfl

/-- The command as its first rounds leave it. -/
def after (t : Task) (r : Nat → Round ω) : Nat → Task
  | 0 => t
  | k + 1 => ((t.after r k).turn (r k)).task

theorem after_await (w : Await Operand) (c : Option Context) (watch : Watch) (r : Nat → Round ω)
    {k : Nat} {x : Wait} (h : (w.wait c watch).after (fun j => (r j).look w) k = some x) :
    after ⟨.await w, c, watch⟩ r k = ⟨.await w, x.context, x.watch⟩ ∧
      w.wait x.context x.watch = x := by
  induction k generalizing x with
  | zero =>
    cases h
    exact ⟨rfl, rfl⟩
  | succ k ih =>
    simp only [Wait.after, Option.bind_eq_bind, Option.bind_eq_some_iff] at h
    obtain ⟨y, hy, o, ho, hx⟩ := h
    cases hx
    obtain ⟨htask, hsame⟩ := ih hy
    have hturn := turn_await (hsame.symm ▸ ho)
    refine ⟨by rw [after, htask, hturn]; rfl, ?_⟩
    rw [Wait.wait_of_tick ho, ← hsame]
    rfl

/-- The rounds of a command that waits for a goal are the ticks of its wait. -/
theorem turn_after_await (w : Await Operand) (c : Option Context) (watch : Watch)
    (r : Nat → Round ω) {k : Nat} {o : Wait.Run ω}
    (h : (w.wait c watch).runAt (fun j => (r j).look w) k = some o) :
    (after ⟨.await w, c, watch⟩ r k).turn (r k) = .ofWait w (r k).steps o := by
  simp only [Wait.runAt, Option.bind_eq_bind, Option.bind_eq_some_iff] at h
  obtain ⟨y, hy, ho⟩ := h
  obtain ⟨htask, hsame⟩ := after_await w c watch r hy
  rw [htask]
  exact turn_await (hsame.symm ▸ ho)

/-- A command that waits for a goal, whichever goal that is, and that is new, a copy or begun anew, is
decided by the first round that meets the goal or reaches the limit, as long as the time fits into 64
bits. -/
theorem await_decided (w : Await Operand) (c : Option Context) (r : Nat → Round ω) {k : Nat}
    (hk : ∀ j < k, ¬ (w.wait c {}).Met (fun j => (r j).look w) j ∧
      ¬ (w.wait c {}).Expires (fun j => (r j).look w) j)
    (hfits : ∀ j ≤ k, (w.wait c {}).Fits (fun j => (r j).look w) j) :
    (w.wait c {}).Decided (fun j => (r j).look w) k ∧
      ∀ j ≤ k, ∃ o, (w.wait c {}).runAt (fun j => (r j).look w) j = some o ∧
        (after ⟨.await w, c, ({} : Watch)⟩ r j).turn (r j) = .ofWait w (r j).steps o := by
  have hdecided := Wait.decided (.reset (w.wait c {})) hk hfits
  refine ⟨hdecided, fun j hj => ?_⟩
  obtain ⟨o, ho⟩ := hdecided.exists_run j hj
  exact ⟨o, ho, turn_after_await w c {} r ho⟩

end Task
end StoryScript
