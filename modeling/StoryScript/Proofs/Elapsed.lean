import Mathlib.Algebra.Order.BigOperators.Group.List
import Mathlib.Algebra.Order.Ring.Int
import StoryScript.Proofs.Lifecycle

/-! The time that waits have spent. A wait begins with none and is run at most once in a tick, so it
never has spent more than the ticks of its block took together. As long as that fits into 64 bits,
nothing is lost when the time of a tick is added; and the numbers of rounds fit in any case. -/
namespace StoryScript

/-- The time that a wait has spent. -/
def Waiting.elapsed : Waiting → Int
  | time _ elapsed => elapsed
  | goal _ watch => watch.elapsed

namespace Queue

/-! ### The points of a tick -/

/-- Where a block stands within a tick: the steps that are left, the block, and the stage. -/
structure Point (ω : Type) where
  steps : Nat
  queue : Queue
  stage : Stage ω

section
variable {ω : Type} [World ω]

/-- What happens at a point of a tick that goes on from another. -/
inductive Step (m : Moment) : Point ω → List Event → Point ω → Prop
  | met {n : Nat} {q : Queue} {s s' : Stage ω} {w w' : Waiting} {fx : List Effect}
      (hw : q.waiting = some w) (hr : w.run m.now m.delta (q.read m s) s = (false, w', s', fx))
      (hc : w.command.chains = true) :
      Step m ⟨n, q, s⟩ (.entered :: fx.map .effect ++ [.left false])
        ⟨n, { q with waiting := none }, s'⟩
  | round {n : Nat} {q q' q'' : Queue} {s : Stage ω} {es : List Event} {v : Value}
      (hw : q.waiting = none) (hs : settle q.rest q.loops = (es, q', .round v q'')) :
      Step m ⟨n + 1, q, s⟩ (es ++ [.round v]) ⟨n, q'', s⟩
  | acts {n : Nat} {q q' q'' : Queue} {s s' : Stage ω} {es : List Event} {a : Action Operand}
      {fx : List Effect} (hw : q.waiting = none)
      (hs : settle q.rest q.loops = (es, q', .command (.act a) q''))
      (hr : (a.map (q''.read m s)).run s = (s', fx)) (hc : a.chains = true) :
      Step m ⟨n + 1, q, s⟩ (es ++ ([.began (.act a)] ++ (.entered :: fx.map .effect ++ [.left false])))
        ⟨n, q'', s'⟩
  | waits {n : Nat} {q q' q'' : Queue} {s : Stage ω} {es : List Event} {c : Command} {w : Waiting}
      (hw : q.waiting = none) (hs : settle q.rest q.loops = (es, q', .command c q''))
      (hc : c.waiting? = some w) :
      Step m ⟨n + 1, q, s⟩ (es ++ [.began c]) ⟨n, { q'' with waiting := some w }, s⟩
  | repeats {n : Nat} {q q' q'' : Queue} {s : Stage ω} {es : List Event} {range : Range Operand}
      {body : List Command} (hw : q.waiting = none)
      (hs : settle q.rest q.loops = (es, q', .command (.repeat range body) q'')) :
      Step m ⟨n + 1, q, s⟩ (es ++ ([.began (.repeat range body)] ++ [.entered]))
        ⟨n, { q'' with loops := .ofRange range body (q''.read m s) :: q''.loops }, s⟩

/-- What a tick comes to that ends at a point: with a wait that is run there or an action, or because
nothing is left, or no step for what comes next. -/
inductive Halts (m : Moment) : Point ω → Tick ω → Prop
  | pending {n : Nat} {q : Queue} {s s' : Stage ω} {w w' : Waiting} {fx : List Effect}
      (hw : q.waiting = some w) (hr : w.run m.now m.delta (q.read m s) s = (true, w', s', fx)) :
      Halts m ⟨n, q, s⟩ (.after (.entered :: fx.map .effect ++ [.left true])
        (suspend { q with waiting := some w' } n s'))
  | stops {n : Nat} {q : Queue} {s s' : Stage ω} {w w' : Waiting} {fx : List Effect}
      (hw : q.waiting = some w) (hr : w.run m.now m.delta (q.read m s) s = (false, w', s', fx))
      (hc : w.command.chains = false) :
      Halts m ⟨n, q, s⟩ (.after (.entered :: fx.map .effect ++ [.left false])
        (suspend { q with waiting := none, deferred := q.loops.isEmpty } n s'))
  | ends {n : Nat} {q q' q'' : Queue} {s s' : Stage ω} {es : List Event} {a : Action Operand}
      {fx : List Effect} (hw : q.waiting = none)
      (hs : settle q.rest q.loops = (es, q', .command (.act a) q''))
      (hr : (a.map (q''.read m s)).run s = (s', fx)) (hc : a.chains = false) :
      Halts m ⟨n + 1, q, s⟩ (.after es (.after [.began (.act a)]
        (.after (.entered :: fx.map .effect ++ [.left false])
          (suspend { q'' with deferred := q''.loops.isEmpty } n s'))))
  | done {n : Nat} {q q' : Queue} {s : Stage ω} {es : List Event} (hw : q.waiting = none)
      (hs : settle q.rest q.loops = (es, q', .nothing)) :
      Halts m ⟨n, q, s⟩ (.after es (q'.suspend n s))
  | spentCommand {q q' q'' : Queue} {s : Stage ω} {es : List Event} {c : Command}
      (hw : q.waiting = none) (hs : settle q.rest q.loops = (es, q', .command c q'')) :
      Halts m ⟨0, q, s⟩
        (.after es (.after [.effect (.warned (.stepsSpent c.name))] (q'.suspend 0 s)))
  | spentRound {q q' q'' : Queue} {s : Stage ω} {es : List Event} {v : Value}
      (hw : q.waiting = none) (hs : settle q.rest q.loops = (es, q', .round v q'')) :
      Halts m ⟨0, q, s⟩ (.after es (q'.suspend 0 s))

/-- A tick that stands at some point comes to another after some events. -/
inductive Passes (m : Moment) : Point ω → List Event → Point ω → Prop
  | here (p : Point ω) : Passes m p [] p
  | step {p p' p'' : Point ω} {es fs : List Event} (h : Step m p es p') (hp : Passes m p' fs p'') :
      Passes m p (es ++ fs) p''

variable {m : Moment} {p p' : Point ω} {es : List Event} {t : Tick ω}

theorem Step.runs (h : Step m p es p') (ht : Runs m p'.steps p'.queue p'.stage t) :
    Runs m p.steps p.queue p.stage (t.after es) := by
  cases h with
  | met hw hr hc => exact .met hw hr hc ht
  | round hw hs => simpa using Runs.round hw hs ht
  | acts hw hs hr hc => simpa using Runs.acts hw hs hr hc ht
  | waits hw hs hc => simpa using Runs.waits hw hs hc ht
  | repeats hw hs => simpa using Runs.repeats hw hs ht

/-- From any point to which it comes a tick goes on as it would if it began there. -/
theorem Passes.runs (h : Passes m p es p') (ht : Runs m p'.steps p'.queue p'.stage t) :
    Runs m p.steps p.queue p.stage (t.after es) := by
  induction h with
  | here => exact ht
  | step hstep _ ih => simpa using hstep.runs (ih ht)

/-- A tick goes from point to point until it ends at one. -/
theorem Runs.exists_passes {n : Nat} {q : Queue} {s : Stage ω} (h : Runs m n q s t) :
    ∃ es p t', Passes m ⟨n, q, s⟩ es p ∧ Halts m p t' ∧ t = t'.after es := by
  have hhere {p : Point ω} {t : Tick ω} (h : Halts m p t) :
      ∃ es p' t', Passes m p es p' ∧ Halts m p' t' ∧ t = t'.after es := ⟨[], p, t, .here p, h, rfl⟩
  have hstep {p p' : Point ω} {t : Tick ω} {es : List Event} (h : Step m p es p')
      (ht : ∃ fs p'' t', Passes m p' fs p'' ∧ Halts m p'' t' ∧ t = t'.after fs) :
      ∃ fs p'' t', Passes m p fs p'' ∧ Halts m p'' t' ∧ t.after es = t'.after fs := by
    obtain ⟨fs, p'', t', hp, hhalts, rfl⟩ := ht
    exact ⟨_, p'', t', .step h hp, hhalts, Tick.after_after ..⟩
  induction h with
  | pending hw hr => exact hhere (.pending hw hr)
  | stops hw hr hc => exact hhere (.stops hw hr hc)
  | ends hw hs hr hc => exact hhere (.ends hw hs hr hc)
  | done hw hs => exact hhere (.done hw hs)
  | spentCommand hw hs => exact hhere (.spentCommand hw hs)
  | spentRound hw hs => exact hhere (.spentRound hw hs)
  | met hw hr hc _ ih => exact hstep (.met hw hr hc) ih
  | round hw hs _ ih => simpa using hstep (.round hw hs) ih
  | acts hw hs hr hc _ ih => simpa using hstep (.acts hw hs hr hc) ih
  | waits hw hs hc _ ih => simpa using hstep (.waits hw hs hc) ih
  | repeats hw hs _ ih => simpa using hstep (.repeats hw hs) ih

end

/-! ### Bounds -/

end Queue

/-- A look at a goal adds the time of a tick to what was spent, unless the goal is met. -/
theorem Watch.elapsed_poll (w : Watch) (sinceStart : Bool) (now delta limit : Int)
    (met : Option Int → Bool) :
    (w.poll sinceStart now delta limit met).2.elapsed = w.elapsed ∨
      (w.poll sinceStart now delta limit met).2.elapsed = w.elapsed + delta := by
  simp only [poll]
  generalize (if sinceStart then some (w.start.getD now) else w.start) = start
  cases met start with
  | true => exact .inl rfl
  | false => exact .inr rfl

theorem Waiting.elapsed_run {ω : Type} [World ω] {w w' : Waiting} {now delta : Int}
    {read : Operand → Value} {p : Bool} {s s' : Stage ω} {fx : List Effect}
    (h : w.run now delta read s = (p, w', s', fx)) :
    w'.elapsed = w.elapsed ∨ w'.elapsed = w.elapsed + delta := by
  cases w with
  | time limit elapsed =>
    cases h
    exact .inr rfl
  | goal wait watch =>
    cases h
    exact watch.elapsed_poll ..

theorem Waiting.elapsed_of_waiting? {c : Command} {w : Waiting} (h : c.waiting? = some w) :
    w.elapsed = 0 := by
  cases c <;> cases h <;> rfl

/-- The rounds of a repetition have numbers below a count of 63 bits, and the item of the round under
way is its number. -/
def Loop.Numbered (l : Loop) : Prop :=
  ∀ next stop, l.left = .numbers next stop →
    stop < 2 ^ 63 ∧ next ≤ stop ∧ ∀ i, next = i + 1 → l.item = .int (.ofNat i)

theorem Loop.numbered_ofRange (range : Range Operand) (body : List Command)
    (read : Operand → Value) : (ofRange range body read).Numbered := by
  intro next stop h
  cases range with
  | times count =>
    obtain ⟨rfl, rfl⟩ := Items.numbers.inj h
    have hcount := (read count).toInt.toInt_lt
    refine ⟨by omega, Nat.zero_le _, ?_⟩
    intro i hi
    omega
  | each values =>
    simp only [ofRange, Range.map, Range.items] at h
    split at h
    · next heq => cases heq
    · cases h
    · cases h

theorem Loop.Numbered.next {l : Loop} (h : l.Numbered) {item : Value} {left : Items}
    (hn : l.left.next? = some (item, left)) (rest : List Command) :
    Loop.Numbered { l with left, item, rest } := by
  intro next stop hleft
  obtain rfl : left = .numbers next stop := hleft
  cases hl : l.left with
  | numbers i n =>
    obtain ⟨hn63, -, -⟩ := h i n hl
    simp only [hl, Items.next?] at hn
    split at hn
    · next hlt =>
      obtain ⟨rfl, heq⟩ := Prod.mk.inj (Option.some.inj hn)
      obtain ⟨rfl, rfl⟩ := Items.numbers.inj heq
      refine ⟨hn63, hlt, ?_⟩
      intro j hj
      obtain rfl : i = j := by omega
      rfl
    · cases hn
  | values vs =>
    rw [hl] at hn
    cases vs <;> cases hn

/-- The number of a round is handed out as it is. -/
theorem Loop.Numbered.toInt_item {l : Loop} (h : l.Numbered) {i stop : Nat}
    (hl : l.left = .numbers (i + 1) stop) : ∃ k : Int64, l.item = .int k ∧ k.toInt = i := by
  obtain ⟨hstop, hle, hitem⟩ := h _ _ hl
  exact ⟨_, hitem i rfl, Int64.toInt_ofNat_of_lt (by omega)⟩

namespace Queue

/-- A block in which no wait has spent more than some time, and all rounds are numbered. -/
structure Within (bound : Int) (q : Queue) : Prop where
  waiting : ∀ w ∈ q.waiting, 0 ≤ w.elapsed ∧ w.elapsed ≤ bound
  loops : ∀ l ∈ q.loops, l.Numbered

theorem within_of_loops {bound : Int} {rest : List Command} {ls : List Loop} {d : Bool}
    (h : ∀ l ∈ ls, l.Numbered) : Within bound ⟨rest, ls, none, d⟩ :=
  ⟨by simp, h⟩

theorem within_settle (bound : Int) (rest : List Command) {ls : List Loop}
    (h : ∀ l ∈ ls, l.Numbered) :
    (settle rest ls).2.1.Within bound ∧
      match (settle rest ls).2.2 with
      | .nothing => True
      | .command _ q | .round _ q => q.Within bound := by
  induction ls with
  | nil => cases rest <;> exact ⟨within_of_loops h, by simp [settle, within_of_loops]⟩
  | cons l ls ih =>
    obtain ⟨hl, hls⟩ := List.forall_mem_cons.1 h
    simp only [settle]
    split
    · next c r hrest =>
      exact ⟨within_of_loops h, within_of_loops (List.forall_mem_cons.2 ⟨hl, hls⟩)⟩
    · split
      · next item left hn =>
        exact ⟨within_of_loops h, within_of_loops (List.forall_mem_cons.2 ⟨hl.next hn _, hls⟩)⟩
      · exact ih hls

section
variable (bound : Int) {rest : List Command} {ls : List Loop} {es : List Event} {q q' : Queue}
  (h : ∀ l ∈ ls, l.Numbered)
include h

theorem within_of_settle {next : Next} (hs : settle rest ls = (es, q, next)) : q.Within bound := by
  have hwithin := (within_settle bound rest h).1
  rwa [hs] at hwithin

theorem within_of_command {c : Command} (hs : settle rest ls = (es, q, .command c q')) :
    q'.Within bound := by
  have hwithin := (within_settle bound rest h).2
  rwa [hs] at hwithin

theorem within_of_round {v : Value} (hs : settle rest ls = (es, q, .round v q')) :
    q'.Within bound := by
  have hwithin := (within_settle bound rest h).2
  rwa [hs] at hwithin

end

section
variable {ω : Type} [World ω] {bound : Int} {m : Moment} {p p' : Point ω} {es : List Event}
  {t : Tick ω}

/-- A wait begins with no time spent, so that none has spent more within a tick than before it. -/
theorem Step.within (h : Step m p es p') (hp : p.queue.Within bound) (hbound : 0 ≤ bound) :
    p'.queue.Within bound := by
  cases h with
  | met => exact ⟨by simp, hp.loops⟩
  | round _ hs => exact within_of_round bound hp.loops hs
  | acts _ hs => exact within_of_command bound hp.loops hs
  | waits _ hs hc =>
    refine ⟨?_, (within_of_command bound hp.loops hs).loops⟩
    rintro w ⟨⟩
    rw [Waiting.elapsed_of_waiting? hc]
    exact ⟨Int.le_refl 0, hbound⟩
  | repeats _ hs =>
    have hq := within_of_command bound hp.loops hs
    exact ⟨hq.waiting, List.forall_mem_cons.2 ⟨Loop.numbered_ofRange _ _ _, hq.loops⟩⟩

theorem Passes.within (h : Passes m p es p') (hp : p.queue.Within bound) (hbound : 0 ≤ bound) :
    p'.queue.Within bound := by
  induction h with
  | here => exact hp
  | step hstep _ ih => exact ih (hstep.within hp hbound)

/-- A wait that is still pending after a tick has spent the time of the tick more than before it. -/
theorem Halts.within (h : Halts m p t) (hp : p.queue.Within bound) (hdelta : 0 ≤ m.delta) :
    t.queue.Within (bound + m.delta) := by
  cases h with
  | pending hw hr =>
    refine ⟨?_, hp.loops⟩
    rintro w ⟨⟩
    have hspent := hp.waiting _ hw
    rcases Waiting.elapsed_run hr with h | h <;> omega
  | stops => exact within_of_loops hp.loops
  | ends _ hs =>
    have hq := within_of_command bound hp.loops hs
    exact ⟨fun w hw => by simp [waiting_of_command hs] at hw, hq.loops⟩
  | done _ hs | spentCommand _ hs | spentRound _ hs => exact within_of_settle _ hp.loops hs

end

/-! ### Any number of ticks -/

/-- The time that ticks took together. -/
def span {ω : Type} (xs : List (Setting ω)) : Int := (xs.map (·.moment.delta)).sum

theorem span_nonneg {ω : Type} {xs : List (Setting ω)} (h : ∀ x ∈ xs, 0 ≤ x.moment.delta) :
    0 ≤ span xs := by
  apply List.sum_nonneg
  exact List.forall_mem_map.2 h

section
variable {ω : Type} [World ω] {bound : Int}

/-- The point at which a tick of a block begins, once the repetitions under way are entered. -/
def Setting.entry (x : Setting ω) (q : Queue) : Point ω :=
  ⟨x.steps, { q with deferred := false }, x.stage⟩

/-- A tick comes to nothing else from a point than what is left to come from there. -/
theorem Passes.tick_eq {x : Setting ω} {q : Queue} {p : Point ω} {es : List Event} {t : Tick ω}
    (h : Passes x.moment (x.entry q) es p) (ht : Runs x.moment p.steps p.queue p.stage t) :
    q.tick x.moment x.steps x.stage = t.after (List.replicate q.loops.length .entered ++ es) := by
  have hruns : Runs x.moment x.steps { q with deferred := false } x.stage (t.after es) := h.runs ht
  rw [hruns.tick_eq, Tick.after_after]

theorem within_tick {q : Queue} (h : q.Within bound) (hbound : 0 ≤ bound) {x : Setting ω}
    (hx : 0 ≤ x.moment.delta) :
    (q.tick x.moment x.steps x.stage).queue.Within (bound + x.moment.delta) := by
  obtain ⟨t, ht, htick⟩ := runs_tick q x.moment x.steps x.stage
  obtain ⟨es, p, t', hp, hhalts, rfl⟩ := ht.exists_passes
  have hentry : (x.entry q).queue.Within bound := ⟨h.waiting, h.loops⟩
  rw [htick]
  exact hhalts.within (hp.within hentry hbound) hx

theorem within_after {q : Queue} (h : q.Within bound) (hbound : 0 ≤ bound) {xs : List (Setting ω)}
    (hxs : ∀ x ∈ xs, 0 ≤ x.moment.delta) : (q.after xs).Within (bound + span xs) := by
  induction xs generalizing q bound with
  | nil => simpa [after, span] using h
  | cons x xs ih =>
    obtain ⟨hx, hxs⟩ := List.forall_mem_cons.1 hxs
    have hafter := ih (within_tick h hbound hx) (Int.add_nonneg hbound hx) hxs
    rwa [Int.add_assoc] at hafter

/-- No wait has ever spent more time than the ticks of its block took. Nor does it within a tick,
where the time of the tick is added at most once, and without loss as long as the time of all ticks
fits into 64 bits. The numbers of the rounds under way fit in any case. -/
theorem elapsed_le_span (cs : List Command) (xs : List (Setting ω))
    (hxs : ∀ x ∈ xs, 0 ≤ x.moment.delta) :
    (∀ w ∈ ((ofBlock cs).after xs).waiting, 0 ≤ w.elapsed ∧ w.elapsed ≤ span xs) ∧
      ∀ x : Setting ω, 0 ≤ x.moment.delta →
        ∀ es p, Passes x.moment (x.entry ((ofBlock cs).after xs)) es p →
          (∀ w ∈ p.queue.waiting, 0 ≤ w.elapsed ∧
            w.elapsed + x.moment.delta ≤ span (xs ++ [x]) ∧
            (span (xs ++ [x]) < 2 ^ 63 →
              (Int64.ofInt w.elapsed + Int64.ofInt x.moment.delta).toInt =
                w.elapsed + x.moment.delta)) ∧
          ∀ l ∈ p.queue.loops, ∀ i stop, l.left = .numbers (i + 1) stop →
            ∃ k : Int64, l.item = .int k ∧ k.toInt = i := by
  have hstart : (ofBlock cs).Within 0 := within_of_loops (by simp)
  have hafter : ((ofBlock cs).after xs).Within (span xs) := by
    simpa using within_after hstart (Int.le_refl 0) hxs
  refine ⟨hafter.waiting, ?_⟩
  intro x hx es p hp
  have hentry : (x.entry ((ofBlock cs).after xs)).queue.Within (span xs) :=
    ⟨hafter.waiting, hafter.loops⟩
  have hpoint := hp.within hentry (span_nonneg hxs)
  have hspan : span (xs ++ [x]) = span xs + x.moment.delta := by
    simp [span]
  constructor
  · intro w hw
    obtain ⟨hpos, hle⟩ := hpoint.waiting w hw
    refine ⟨hpos, by omega, ?_⟩
    intro hfits
    rw [← Int64.ofInt_add]
    apply Int64.toInt_ofInt_of_le
    · omega
    · omega
  · intro l hl i stop hleft
    exact (hpoint.loops l hl).toInt_item hleft

end

/-- The wait of the first of two rounds, after one tick and at the beginning of the next. -/
theorem elapsed_in_round :
    let x : Setting (Surroundings NoFunctions) := ⟨⟨0, 3, .absent, []⟩, 100, ⟨∅, {}, ⟨⟩⟩⟩
    let q := (ofBlock [.repeat (.times (Operand.literal (.int 2)))
      [.wait (Operand.literal (.int 5))]]).after [x]
    span [x, x] = 6 ∧
      ∃ w ∈ q.waiting, w.elapsed = 3 ∧ w.elapsed ≤ span [x] ∧ w.elapsed + 3 ≤ span [x, x] ∧
        (Int64.ofInt w.elapsed + Int64.ofInt 3).toInt = w.elapsed + 3 ∧
        ∃ l ∈ q.loops, ∃ k : Int64, l.item = .int k ∧ k.toInt = 0 := by
  intro x q
  have hpos : 0 ≤ x.moment.delta := by decide
  obtain ⟨hafter, hpoints⟩ := elapsed_le_span [.repeat (.times (Operand.literal (.int 2)))
    [.wait (Operand.literal (.int 5))]] [x] (List.forall_mem_singleton.2 hpos)
  obtain ⟨hwaits, hrounds⟩ := hpoints x hpos [] _ (.here _)
  have hw : ∃ w ∈ q.waiting, w.elapsed = 3 := ⟨_, rfl, rfl⟩
  have hl : ∃ l ∈ q.loops, ∃ stop, l.left = .numbers (0 + 1) stop := ⟨_, .head _, _, rfl⟩
  obtain ⟨w, hw, hthree⟩ := hw
  obtain ⟨l, hl, stop, hleft⟩ := hl
  obtain ⟨-, hle, hfits⟩ := hwaits w hw
  exact ⟨rfl, w, hw, hthree, (hafter w hw).2, hle, hfits (by decide), l, hl,
    hrounds l hl 0 stop hleft⟩

end Queue
end StoryScript
