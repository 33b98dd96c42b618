import StoryScript.Proofs.Answer
import StoryScript.Proofs.Flow
import StoryScript.Proofs.Frame

/-! Ticks with more steps. A tick that leaves steps over does the same with more of them. One that
spends them all stops where a tick with more steps goes on: up to there the same is told of both, and
after it the shorter one only leaves pending what is under way. -/
namespace StoryScript.Queue

/-- What comes next in a block comes next where the repetitions that are over are off already. -/
theorem settle_settled {rest : List Command} {ls : List Loop} {es : List Event} {q : Queue}
    {next : Next} (hs : settle rest ls = (es, q, next)) : settle q.rest q.loops = ([], q, next) := by
  induction ls generalizing es with
  | nil => cases rest <;> (cases hs; rfl)
  | cons l ls ih =>
    simp only [settle] at hs
    split at hs
    · next hl =>
      cases hs
      simp [settle, hl]
    · split at hs
      · next hl _ _ _ hnext =>
        cases hs
        simp [settle, hl, hnext]
      · rcases hrest : settle rest ls with ⟨es', q', next'⟩
        rw [hrest] at hs
        cases hs
        exact ih hrest

variable {ω : Type} [World ω] {m : Moment} {k : Nat} {t t' : Tick ω}

/-- What a tick comes to that has some more steps than another. -/
inductive Outlasts (m : Moment) (k : Nat) (t : Tick ω) : Tick ω → Prop
  | same : Outlasts m k t { t with steps := t.steps + k }
  | goesOn {es cut : List Event} {r : Tick ω} (hsteps : t.steps = 0) (ht : t.events = es ++ cut)
      (hcut : ∀ e ∈ cut, e.suspends = true) (hr : Runs m k t.queue t.stage r) :
      Outlasts m k t (r.after es)

theorem Outlasts.after (h : Outlasts m k t t') (es : List Event) :
    Outlasts m k (t.after es) (t'.after es) := by
  cases h with
  | same => exact .same
  | @goesOn fs cut r hsteps ht hcut hr =>
    rw [Tick.after_after]
    exact .goesOn hsteps (by simp [ht]) hcut hr

/-- A block of which the steps are spent goes on from there with more. -/
theorem exists_goesOn {q q' : Queue} {s : Stage ω} {es cut : List Event} {next : Next}
    (hw : q.waiting = none) (hs : settle q.rest q.loops = (es, q', next))
    (hcut : ∀ e ∈ cut, e.suspends = true) (k : Nat) :
    ∃ t', Runs m (0 + k) q s t' ∧ Outlasts m k (⟨q', s, 0, es ++ cut⟩ : Tick ω) t' := by
  have hw' := (waiting_settle q.rest q.loops).1
  rw [hs] at hw'
  have hrest := runs_onward m k q' s
  have hrun := runs_of_settle hw hw' (by simpa using hs) (settle_settled hs) hrest
  rw [Nat.zero_add]
  exact ⟨_, hrun, .goesOn rfl rfl hcut hrest⟩

omit [World ω] in
theorem suspends_of_mem_suspend (q : Queue) (n : Nat) (s : Stage ω) :
    ∀ e ∈ (q.suspend n s).events, e.suspends = true := by
  intro e he
  rw [List.eq_of_mem_replicate he]
  rfl

theorem Runs.outlasts {n : Nat} {q : Queue} {s : Stage ω} (h : Runs m n q s t) (k : Nat) :
    ∃ t', Runs m (n + k) q s t' ∧ Outlasts m k t t' := by
  induction h with
  | pending hw hr => exact ⟨_, .pending hw hr, .same⟩
  | stops hw hr hc => exact ⟨_, .stops hw hr hc, .same⟩
  | done hw hs => exact ⟨_, .done hw hs, .same⟩
  | @spentCommand q q' q'' s es c hw hs =>
    refine exists_goesOn hw hs (List.forall_mem_cons.2 ⟨rfl, ?_⟩) k
    exact suspends_of_mem_suspend q' 0 s
  | @spentRound q q' q'' s es v hw hs =>
    exact exists_goesOn hw hs (suspends_of_mem_suspend q' 0 s) k
  | met hw hr hc ht ih =>
    obtain ⟨t', hrun, hout⟩ := ih
    exact ⟨_, .met hw hr hc hrun, hout.after _⟩
  | round hw hs ht ih =>
    obtain ⟨t', hrun, hout⟩ := ih
    rw [Nat.add_right_comm]
    exact ⟨_, .round hw hs hrun, (hout.after _).after _⟩
  | acts hw hs hr hc ht ih =>
    obtain ⟨t', hrun, hout⟩ := ih
    rw [Nat.add_right_comm]
    exact ⟨_, .acts hw hs hr hc hrun, ((hout.after _).after _).after _⟩
  | ends hw hs hr hc =>
    rw [Nat.add_right_comm]
    exact ⟨_, .ends hw hs hr hc, .same⟩
  | waits hw hs hc ht ih =>
    obtain ⟨t', hrun, hout⟩ := ih
    rw [Nat.add_right_comm]
    exact ⟨_, .waits hw hs hc hrun, (hout.after _).after _⟩
  | repeats hw hs ht ih =>
    obtain ⟨t', hrun, hout⟩ := ih
    rw [Nat.add_right_comm]
    exact ⟨_, .repeats hw hs hrun, ((hout.after _).after _).after _⟩

theorem tick_outlasts (q : Queue) (m : Moment) (n k : Nat) (s : Stage ω) :
    Outlasts m k (q.tick m n s) (q.tick m (n + k) s) := by
  obtain ⟨t, ht, htick⟩ := runs_tick q m n s
  obtain ⟨t', ht', hout⟩ := ht.outlasts k
  rw [htick, ht'.tick_eq]
  exact hout.after _

/-! ### What is seen -/

theorem essential_of_suspends {es : List Event} (h : ∀ e ∈ es, e.suspends = true) :
    essential (effectsOf es) = [] := by
  induction es with
  | nil => rfl
  | cons e es ih =>
    obtain ⟨he, hes⟩ := List.forall_mem_cons.1 h
    rw [effectsOf_cons, essential_append, ih hes, List.append_nil]
    cases e with
    | began | entered | left | round => rfl
    | effect f =>
      have hspent : f.isSpent = true := by
        cases f with
        | warned w => cases w <;> first | rfl | cases he
        | _ => cases he
      simp [essential, hspent]

/-- What is seen of a tick is seen first of one that has more steps. -/
theorem Outlasts.essential_prefix (h : Outlasts m k t t') :
    essential (effectsOf t.events) <+: essential (effectsOf t'.events) := by
  cases h with
  | same => exact List.prefix_rfl
  | goesOn hsteps ht hcut hr =>
    rw [ht, effectsOf_append, essential_append, essential_of_suspends hcut, List.append_nil,
      Tick.events_after, effectsOf_append, essential_append]
    exact List.prefix_append _ _

theorem Outlasts.eq_of_pos (h : Outlasts m k t t') (hsteps : 0 < t.steps) :
    t' = { t with steps := t.steps + k } := by
  cases h with
  | same => rfl
  | goesOn hzero => omega

/-- With more steps a tick only does more. It stops where the other one goes on, and if it has steps
left over then both do the same. -/
theorem tick_of_more_steps {n n' : Nat} (h : n ≤ n') (q : Queue) (m : Moment) (s : Stage ω) :
    let t := q.tick m n s
    let t' := q.tick m n' s
    Outlasts m (n' - n) t t' ∧ essential (effectsOf t.events) <+: essential (effectsOf t'.events) ∧
      (0 < t.steps → effectsOf t'.events = effectsOf t.events ∧ t'.pending = t.pending ∧
        t'.queue = t.queue ∧ t'.stage = t.stage) := by
  intro t t'
  have hout : Outlasts m (n' - n) t t' := by
    have hk := tick_outlasts q m n (n' - n) s
    rwa [Nat.add_sub_cancel' h] at hk
  refine ⟨hout, hout.essential_prefix, fun hsteps => ?_⟩
  rw [hout.eq_of_pos hsteps]
  exact ⟨rfl, rfl, rfl, rfl⟩

/-- Two repetitions, one in the other, that log the items of the inner one, and a wait for a story
that runs. -/
def recital : Queue :=
  ofBlock [.repeat (.times (Operand.literal (.int 2)))
    [.repeat (.each [Operand.literal (.text "do"), Operand.literal (.text "re")])
      [.act (.log [some .iterator])]],
    .await ⟨.stories [Operand.literal (.text "guest")], {}⟩]

/-- Seven steps are spent in the first of the repetitions, sixteen are not. -/
theorem tick_of_more_steps_recital :
    let m : Moment := ⟨0, 10, .absent, []⟩
    let s : Stage (Surroundings NoFunctions) := ⟨∅, { stories := (∅ : Table Nat).insert "guest" 1 }, ⟨⟩⟩
    let t (n : Nat) := recital.tick m n s
    (7 ≤ 16 ∧ Outlasts m 9 (t 7) (t 16) ∧
        essential (effectsOf (t 7).events) <+: essential (effectsOf (t 16).events)) ∧
      (16 ≤ 40 ∧ 0 < (t 16).steps ∧ effectsOf (t 40).events = effectsOf (t 16).events ∧
        (t 40).pending = (t 16).pending ∧ (t 40).queue = (t 16).queue) ∧
      (essential (effectsOf (t 7).events)).length = 2 ∧
      (essential (effectsOf (t 16).events)).length = 4 := by
  intro m s t
  have hfew : 7 ≤ 16 := by decide
  have hmany : 16 ≤ 40 := by decide
  have hsteps : 0 < (t 16).steps := by decide
  obtain ⟨hout, hprefix, -⟩ := tick_of_more_steps hfew recital m s
  obtain ⟨-, -, hsame⟩ := tick_of_more_steps hmany recital m s
  obtain ⟨heffects, hpending, hqueue, -⟩ := hsame hsteps
  exact ⟨⟨hfew, hout, hprefix⟩, ⟨hmany, hsteps, heffects, hpending, hqueue⟩, by decide, by decide⟩

end StoryScript.Queue
