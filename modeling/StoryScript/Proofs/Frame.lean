import StoryScript.Proofs.Tick

/-! The round of a repetition runs its block as the block would run by itself. The repetition is a
frame below the block that no step of the block touches, until the block is over. -/
namespace StoryScript.Queue

/-- A block under way in a round of a repetition. -/
def within (l : Loop) (q : Queue) : Queue :=
  { rest := [], loops := q.loops ++ [{ l with rest := q.rest }], waiting := q.waiting }

@[simp] theorem isEmpty_loops_within (l : Loop) (q : Queue) :
    (within l q).loops.isEmpty = false := by
  simp [within]

/-- Whether a block is over and lets what follows it begin. -/
def isOver (q : Queue) : Bool := q.isEmpty && !q.deferred

/-! ### What comes next -/

theorem settle_nothing {rest : List Command} {ls : List Loop} {es : List Event} {q : Queue}
    (h : settle rest ls = (es, q, .nothing)) : q = { rest := [] } := by
  induction ls generalizing es q with
  | nil =>
    cases rest with
    | nil => cases h; rfl
    | cons c r => cases h
  | cons l ls ih =>
    simp only [settle] at h
    split at h
    · cases h
    · split at h
      · cases h
      · rcases hs : settle rest ls with ⟨es', q', next⟩
        rw [hs] at h
        cases h
        exact ih hs

theorem isEmpty_settle {rest : List Command} {ls : List Loop} {es : List Event} {q : Queue}
    {next : Next} (h : settle rest ls = (es, q, next)) (hn : next ≠ .nothing) :
    q.isEmpty = false := by
  induction ls generalizing es q with
  | nil =>
    cases rest with
    | nil => cases h; exact absurd rfl hn
    | cons c r => cases h; rfl
  | cons l ls ih =>
    simp only [settle] at h
    split at h
    · cases h; simp [isEmpty, size, isBusy]
    · split at h
      · cases h; simp [isEmpty, size, isBusy]
      · rcases hs : settle rest ls with ⟨es', q', next'⟩
        rw [hs] at h
        cases h
        exact ih hs

/-- What comes next in a block, seen from outside of the round. After the block it is what comes next
in the repetition. -/
def surface (l : Loop) : List Event × Queue × Next → List Event × Queue × Next
  | (es, _, .nothing) =>
    let (es', q, next) := settle [] [{ l with rest := [] }]
    (es ++ es', q, next)
  | (es, q, .command c q') => (es, within l q, .command c (within l q'))
  | (es, q, .round v q') => (es, within l q, .round v (within l q'))

theorem settle_within (l : Loop) (rest : List Command) (ls : List Loop) :
    settle [] (ls ++ [{ l with rest }]) = surface l (settle rest ls) := by
  induction ls with
  | nil => cases rest <;> rfl
  | cons k ls ih =>
    rw [List.cons_append, settle, settle]
    split
    · rfl
    · split
      · rfl
      · rw [ih]
        rcases settle rest ls with ⟨es, q, _ | ⟨c, q'⟩ | ⟨v, q'⟩⟩ <;> rfl

variable {ω : Type} [World ω] {l : Loop} {m : Moment} {it : Value}

omit [World ω] in
theorem read_within (hm : m.iterator = l.item) (q : Queue) (s : Stage ω) :
    (within l q).read { m with iterator := it } s = q.read m s := by
  obtain ⟨rest, _ | ⟨k, ls⟩, w, d⟩ := q
  · simp [read, within, item, hm]
  · rfl

/-! ### Runs in a round -/

/-- What a run of a block comes to in a round. A block that is over hands the rest of the tick on to
the repetition; otherwise the tick ends with the block. -/
structure Lifts (l : Loop) (m : Moment) (n : Nat) (q : Queue) (s : Stage ω) (t : Tick ω) : Prop where
  finish : t.queue.isOver = true → ∀ t', Runs m t.steps (within l t.queue) t.stage t' →
    ∃ es, Runs m n (within l q) s (t'.after es) ∧ effectsOf es = effectsOf t.events
  stay : t.queue.isOver = false → ∃ es,
    Runs m n (within l q) s ⟨within l t.queue, t.stage, t.steps, es⟩ ∧
      effectsOf es = effectsOf t.events

theorem Lifts.step {m : Moment} {n n₁ : Nat} {q q₁ : Queue} {s s₁ : Stage ω} {t : Tick ω}
    {es : List Event} (h : Lifts l m n₁ q₁ s₁ t)
    (hstep : ∀ t', Runs m n₁ (within l q₁) s₁ t' → Runs m n (within l q) s (t'.after es)) :
    Lifts l m n q s (t.after es) := by
  constructor
  · intro hover t' ht'
    obtain ⟨fs, hr, hfs⟩ := h.finish hover t' ht'
    refine ⟨es ++ fs, ?_, by simp [hfs]⟩
    simpa using hstep _ hr
  · intro hover
    obtain ⟨fs, hr, hfs⟩ := h.stay hover
    exact ⟨es ++ fs, hstep _ hr, by simp [hfs]⟩

theorem lifts_of_suspend {m : Moment} {n k : Nat} {q q₁ : Queue} {s s₁ : Stage ω} {es : List Event}
    (hover : q₁.isOver = false)
    (h : Runs m n (within l q) s (.after es (suspend (within l q₁) k s₁))) :
    Lifts l m n q s (.after es (suspend q₁ k s₁)) := by
  refine ⟨fun htrue => ?_, fun _ => ⟨_, h, by simp⟩⟩
  exact absurd (htrue.symm.trans hover) Bool.noConfusion

/-- A block goes on as another does from which the same comes next. -/
theorem runs_of_settle {n : Nat} {q q₁ : Queue} {s : Stage ω} {t : Tick ω} {es es₁ : List Event}
    {q' : Queue} {next : Next} (hw : q.waiting = none) (hw₁ : q₁.waiting = none)
    (hs : settle q.rest q.loops = (es ++ es₁, q', next))
    (hs₁ : settle q₁.rest q₁.loops = (es₁, q', next)) (h : Runs m n q₁ s t) :
    Runs m n q s (t.after es) := by
  cases h with
  | pending hw' | stops hw' | met hw' => simp [hw₁] at hw'
  | done _ hs' =>
    obtain ⟨rfl, rfl, rfl⟩ : es₁ = _ ∧ q' = _ ∧ next = _ := by simpa [hs₁] using hs'
    simpa using Runs.done hw hs
  | spentCommand _ hs' =>
    obtain ⟨rfl, rfl, rfl⟩ : es₁ = _ ∧ q' = _ ∧ next = _ := by simpa [hs₁] using hs'
    simpa using Runs.spentCommand (m := m) (s := s) hw hs
  | spentRound _ hs' =>
    obtain ⟨rfl, rfl, rfl⟩ : es₁ = _ ∧ q' = _ ∧ next = _ := by simpa [hs₁] using hs'
    simpa using Runs.spentRound (m := m) (s := s) hw hs
  | round _ hs' ht =>
    obtain ⟨rfl, rfl, rfl⟩ : es₁ = _ ∧ q' = _ ∧ next = _ := by simpa [hs₁] using hs'
    simpa using Runs.round hw hs ht
  | acts _ hs' hr hc ht =>
    obtain ⟨rfl, rfl, rfl⟩ : es₁ = _ ∧ q' = _ ∧ next = _ := by simpa [hs₁] using hs'
    simpa using Runs.acts hw hs hr hc ht
  | ends _ hs' hr hc =>
    obtain ⟨rfl, rfl, rfl⟩ : es₁ = _ ∧ q' = _ ∧ next = _ := by simpa [hs₁] using hs'
    simpa using Runs.ends hw hs hr hc
  | waits _ hs' hc ht =>
    obtain ⟨rfl, rfl, rfl⟩ : es₁ = _ ∧ q' = _ ∧ next = _ := by simpa [hs₁] using hs'
    simpa using Runs.waits hw hs hc ht
  | repeats _ hs' ht =>
    obtain ⟨rfl, rfl, rfl⟩ : es₁ = _ ∧ q' = _ ∧ next = _ := by simpa [hs₁] using hs'
    simpa using Runs.repeats hw hs ht

theorem lifts_of_runs (hm : m.iterator = l.item) {n : Nat} {q : Queue} {s : Stage ω} {t : Tick ω}
    (h : Runs m n q s t) : Lifts l { m with iterator := it } n q s t := by
  have hsettle {q q' : Queue} {es : List Event} {next : Next}
      (hs : settle q.rest q.loops = (es, q', next)) :
      settle (within l q).rest (within l q).loops = surface l (es, q', next) := by
    rw [← hs]
    exact settle_within l q.rest q.loops
  induction h with
  | @pending n q s s' w w' fx hw hr =>
    refine lifts_of_suspend (by simp [isOver, isEmpty, size, isBusy]) ?_
    exact .pending (q := within l q) hw (by rw [read_within hm]; exact hr)
  | @stops n q s s' w w' fx hw hr hc =>
    have ht : Runs { m with iterator := it } n (within l q) s _ :=
      .stops hw (by rw [read_within hm]; exact hr) hc
    rw [isEmpty_loops_within] at ht
    refine lifts_of_suspend ?_ ht
    cases hl : q.loops <;> simp [isOver, isEmpty, size, isBusy]
  | @met n q s s' w w' fx t hw hr hc ht ih =>
    exact ih.step fun t' ht' => .met (q := within l q) hw (by rw [read_within hm]; exact hr) hc ht'
  | @done n q q' s es hw hs =>
    obtain rfl := settle_nothing hs
    refine ⟨fun _ t' ht' => ⟨es, ?_, by simp⟩, fun hover => absurd hover (by simp [suspend, isOver,
      isEmpty, size, isBusy])⟩
    -- The repetition goes on from where the block leaves it.
    exact runs_of_settle hw rfl (hsettle hs) rfl ht'
  | @spentCommand q q' q'' s es c hw hs =>
    have hover : q'.isOver = false := by simp [isOver, isEmpty_settle hs]
    rw [Tick.after_after]
    refine lifts_of_suspend hover ?_
    simpa using Runs.spentCommand (q := within l q) hw (hsettle hs)
  | @spentRound q q' q'' s es v hw hs =>
    have hover : q'.isOver = false := by simp [isOver, isEmpty_settle hs]
    exact lifts_of_suspend hover (.spentRound (q := within l q) hw (hsettle hs))
  | @round n q q' q'' s es v t hw hs ht ih =>
    rw [Tick.after_after]
    refine ih.step fun t' ht' => ?_
    simpa using Runs.round (q := within l q) hw (hsettle hs) ht'
  | @acts n q q' q'' s s' es a fx t hw hs hr hc ht ih =>
    simp only [Tick.after_after]
    refine ih.step fun t' ht' => ?_
    simpa using Runs.acts (q := within l q) hw (hsettle hs) (by rw [read_within hm]; exact hr) hc ht'
  | @ends n q q' q'' s s' es a fx hw hs hr hc =>
    have hr' : (a.map ((within l q'').read { m with iterator := it } s)).run s = (s', fx) := by
      rw [read_within hm]
      exact hr
    have ht := Runs.ends (q := within l q) (n := n) hw (hsettle hs) hr' hc
    rw [isEmpty_loops_within] at ht
    simp only [Tick.after_after] at ht ⊢
    refine lifts_of_suspend ?_ ht
    cases hl : q''.loops <;> simp [isOver, isEmpty, size, isBusy]
  | @waits n q q' q'' s es c w t hw hs hc ht ih =>
    rw [Tick.after_after]
    refine ih.step fun t' ht' => ?_
    simpa using Runs.waits (q := within l q) hw (hsettle hs) hc ht'
  | @repeats n q q' q'' s es range body t hw hs ht ih =>
    simp only [Tick.after_after]
    refine ih.step fun t' ht' => ?_
    have ht'' : Runs { m with iterator := it } n
        { within l q'' with
          loops := .ofRange range body ((within l q'').read { m with iterator := it } s) ::
            (within l q'').loops } s t' := by
      rw [read_within hm]
      exact ht'
    simpa using Runs.repeats (q := within l q) hw (hsettle hs) ht''

end StoryScript.Queue
