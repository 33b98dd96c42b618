import StoryScript.Queue

/-! Every way in which a tick of a block can go. A statement about all ticks is an induction on
`Queue.Runs`: one case for the tick that ends at each place where it can end, and one for each step
after which it goes on. -/
namespace StoryScript

/-- The wait that begins with a command. -/
def Command.waiting? : Command → Option Waiting
  | .wait limit => some (.time limit 0)
  | .await w => some (.goal w {})
  | .act _ | .repeat _ _ => none

theorem Command.command_of_waiting? {c : Command} {w : Waiting} (h : c.waiting? = some w) :
    w.command = c := by
  cases c <;> cases h <;> rfl

namespace Queue
variable {ω : Type} [World ω]

/-- What a block comes to in the rest of a tick, with some steps to spend. A command that waits is
run before all else. -/
inductive Runs (m : Moment) : Nat → Queue → Stage ω → Tick ω → Prop
  | pending {n : Nat} {q : Queue} {s s' : Stage ω} {w w' : Waiting} {fx : List Effect}
      (hw : q.waiting = some w) (hr : w.run m.now m.delta (q.read m s) s = (true, w', s', fx)) :
      Runs m n q s (.after (.entered :: fx.map .effect ++ [.left true])
        (suspend { q with waiting := some w' } n s'))
  | stops {n : Nat} {q : Queue} {s s' : Stage ω} {w w' : Waiting} {fx : List Effect}
      (hw : q.waiting = some w) (hr : w.run m.now m.delta (q.read m s) s = (false, w', s', fx))
      (hc : w.command.chains = false) :
      Runs m n q s (.after (.entered :: fx.map .effect ++ [.left false])
        (suspend { q with waiting := none, deferred := q.loops.isEmpty } n s'))
  | met {n : Nat} {q : Queue} {s s' : Stage ω} {w w' : Waiting} {fx : List Effect} {t : Tick ω}
      (hw : q.waiting = some w) (hr : w.run m.now m.delta (q.read m s) s = (false, w', s', fx))
      (hc : w.command.chains = true) (ht : Runs m n { q with waiting := none } s' t) :
      Runs m n q s (.after (.entered :: fx.map .effect ++ [.left false]) t)
  | done {n : Nat} {q q' : Queue} {s : Stage ω} {es : List Event} (hw : q.waiting = none)
      (hs : settle q.rest q.loops = (es, q', .nothing)) :
      Runs m n q s (.after es (q'.suspend n s))
  | spentCommand {q q' q'' : Queue} {s : Stage ω} {es : List Event} {c : Command}
      (hw : q.waiting = none) (hs : settle q.rest q.loops = (es, q', .command c q'')) :
      Runs m 0 q s
        (.after es (.after [.effect (.warned (.stepsSpent c.name))] (q'.suspend 0 s)))
  | spentRound {q q' q'' : Queue} {s : Stage ω} {es : List Event} {v : Value}
      (hw : q.waiting = none) (hs : settle q.rest q.loops = (es, q', .round v q'')) :
      Runs m 0 q s (.after es (q'.suspend 0 s))
  | round {n : Nat} {q q' q'' : Queue} {s : Stage ω} {es : List Event} {v : Value} {t : Tick ω}
      (hw : q.waiting = none) (hs : settle q.rest q.loops = (es, q', .round v q''))
      (ht : Runs m n q'' s t) :
      Runs m (n + 1) q s (.after es (.after [.round v] t))
  | acts {n : Nat} {q q' q'' : Queue} {s s' : Stage ω} {es : List Event} {a : Action Operand}
      {fx : List Effect} {t : Tick ω} (hw : q.waiting = none)
      (hs : settle q.rest q.loops = (es, q', .command (.act a) q''))
      (hr : (a.map (q''.read m s)).run s = (s', fx)) (hc : a.chains = true)
      (ht : Runs m n q'' s' t) :
      Runs m (n + 1) q s (.after es (.after [.began (.act a)]
        (.after (.entered :: fx.map .effect ++ [.left false]) t)))
  | ends {n : Nat} {q q' q'' : Queue} {s s' : Stage ω} {es : List Event} {a : Action Operand}
      {fx : List Effect} (hw : q.waiting = none)
      (hs : settle q.rest q.loops = (es, q', .command (.act a) q''))
      (hr : (a.map (q''.read m s)).run s = (s', fx)) (hc : a.chains = false) :
      Runs m (n + 1) q s (.after es (.after [.began (.act a)]
        (.after (.entered :: fx.map .effect ++ [.left false])
          (suspend { q'' with deferred := q''.loops.isEmpty } n s'))))
  | waits {n : Nat} {q q' q'' : Queue} {s : Stage ω} {es : List Event} {c : Command} {w : Waiting}
      {t : Tick ω} (hw : q.waiting = none)
      (hs : settle q.rest q.loops = (es, q', .command c q'')) (hc : c.waiting? = some w)
      (ht : Runs m n { q'' with waiting := some w } s t) :
      Runs m (n + 1) q s (.after es (.after [.began c] t))
  | repeats {n : Nat} {q q' q'' : Queue} {s : Stage ω} {es : List Event} {range : Range Operand}
      {body : List Command} {t : Tick ω} (hw : q.waiting = none)
      (hs : settle q.rest q.loops = (es, q', .command (.repeat range body) q''))
      (ht : Runs m n { q'' with loops := .ofRange range body (q''.read m s) :: q''.loops } s t) :
      Runs m (n + 1) q s
        (.after es (.after [.began (.repeat range body)] (.after [.entered] t)))

/-- No command waits in a block that is about to go on. -/
theorem waiting_settle (rest : List Command) (ls : List Loop) :
    (settle rest ls).2.1.waiting = none ∧
      match (settle rest ls).2.2 with
      | .nothing => True
      | .command _ q | .round _ q => q.waiting = none := by
  induction ls with
  | nil => cases rest <;> exact ⟨rfl, by simp [settle]⟩
  | cons l ls ih =>
    simp only [settle]
    split
    · exact ⟨rfl, rfl⟩
    · split
      · exact ⟨rfl, rfl⟩
      · exact ih

variable {m : Moment}

/-- Running a wait, when what follows it is known to run. -/
theorem runs_resume {n : Nat} {q : Queue} {w : Waiting} {go : Queue → Stage ω → Tick ω}
    (hq : q.waiting = none) (hgo : ∀ q s, q.waiting = none → Runs m n q s (go q s))
    (s : Stage ω) : Runs m n { q with waiting := some w } s (q.resume m w n go s) := by
  obtain ⟨rest, loops, _, deferred⟩ := q
  subst hq
  rcases hr : w.run m.now m.delta (read ⟨rest, loops, none, deferred⟩ m s) s with
    ⟨_ | _, w', s', fx⟩
  · simp only [resume, hr, Bool.false_eq_true, if_false, proceed]
    split
    · next hc => exact .met rfl hr hc (hgo _ _ rfl)
    · next hc => exact .stops rfl hr (by simpa using hc)
  · simp only [resume, hr, if_true]
    exact .pending rfl hr

theorem runs_advance (n : Nat) (q : Queue) (s : Stage ω) (hq : q.waiting = none) :
    Runs m n q s (advance m n q s) := by
  induction n generalizing q s with
  | zero =>
    rcases hs : settle q.rest q.loops with ⟨es, q', _ | ⟨c, q''⟩ | ⟨v, q''⟩⟩
    · simpa [advance, hs] using Runs.done hq hs
    · simpa [advance, hs] using Runs.spentCommand hq hs
    · simpa [advance, hs] using Runs.spentRound hq hs
  | succ n ih =>
    have hnext := (waiting_settle q.rest q.loops).2
    rcases hs : settle q.rest q.loops with ⟨es, q', _ | ⟨c, q''⟩ | ⟨v, q''⟩⟩
    · simpa [advance, hs] using Runs.done hq hs
    · rw [hs] at hnext
      simp only [advance, hs, start]
      cases c with
      | act a =>
        rcases hr : (a.map (q''.read m s)).run s with ⟨s', fx⟩
        simp only [hr, proceed]
        split
        · next hc => exact .acts hq hs hr hc (ih _ _ hnext)
        · next hc => exact .ends hq hs hr (by simpa using hc)
      | wait limit => exact .waits hq hs rfl (runs_resume hnext ih s)
      | await w => exact .waits hq hs rfl (runs_resume hnext ih s)
      | «repeat» range body => exact .repeats hq hs (ih _ _ hnext)
    · rw [hs] at hnext
      simp only [advance, hs]
      exact .round hq hs (ih _ _ hnext)

/-- A tick enters the repetitions under way again, and then runs. -/
theorem runs_tick (q : Queue) (m : Moment) (n : Nat) (s : Stage ω) :
    ∃ t, Runs m n { q with deferred := false } s t ∧
      q.tick m n s = t.after (List.replicate q.loops.length .entered) := by
  unfold tick
  split
  · next hq => exact ⟨_, runs_advance n _ s hq, rfl⟩
  · next w hq =>
    refine ⟨_, ?_, rfl⟩
    have h := runs_resume (m := m) (w := w) (q := { q with waiting := none, deferred := false })
      rfl (fun q' s' h => runs_advance n q' s' h) s
    simpa [hq] using h

/-- The rest of a tick, whether a command waits or not. -/
def onward (m : Moment) (n : Nat) (q : Queue) (s : Stage ω) : Tick ω :=
  match q.waiting with
  | none => advance m n q s
  | some w => resume { q with waiting := none } m w n (advance m n) s

theorem onward_of_waiting {n : Nat} {q : Queue} {w : Waiting} (hw : q.waiting = some w)
    (s : Stage ω) :
    onward m n q s = resume { q with waiting := none } m w n (advance m n) s := by
  simp [onward, hw]

theorem onward_of_not_waiting {n : Nat} {q : Queue} (hw : q.waiting = none) (s : Stage ω) :
    onward m n q s = advance m n q s := by
  simp [onward, hw]

theorem waiting_of_command {rest : List Command} {ls : List Loop} {es : List Event} {q q' : Queue}
    {c : Command} (hs : settle rest ls = (es, q, .command c q')) : q'.waiting = none := by
  have h := (waiting_settle rest ls).2
  rwa [hs] at h

theorem waiting_of_round {rest : List Command} {ls : List Loop} {es : List Event} {q q' : Queue}
    {v : Value} (hs : settle rest ls = (es, q, .round v q')) : q'.waiting = none := by
  have h := (waiting_settle rest ls).2
  rwa [hs] at h

/-- Nothing of a tick is left to chance. -/
theorem Runs.eq_onward {n : Nat} {q : Queue} {s : Stage ω} {t : Tick ω} (h : Runs m n q s t) :
    t = onward m n q s := by
  induction h with
  | @pending n q s s' w w' fx hw hr =>
    have hr' : w.run m.now m.delta (read { q with waiting := none } m s) s = (true, w', s', fx) := hr
    rw [onward_of_waiting hw]
    simp [resume, hr']
  | @stops n q s s' w w' fx hw hr hc =>
    have hr' : w.run m.now m.delta (read { q with waiting := none } m s) s = (false, w', s', fx) := hr
    rw [onward_of_waiting hw]
    simp [resume, hr', proceed, hc]
  | @met n q s s' w w' fx t hw hr hc ht ih =>
    have hr' : w.run m.now m.delta (read { q with waiting := none } m s) s = (false, w', s', fx) := hr
    rw [onward_of_waiting hw, ih, onward_of_not_waiting rfl]
    simp [resume, hr', proceed, hc]
  | @done n q q' s es hw hs =>
    rw [onward_of_not_waiting hw]
    cases n <;> simp [advance, hs]
  | spentCommand hw hs =>
    rw [onward_of_not_waiting hw]
    simp [advance, hs]
  | spentRound hw hs =>
    rw [onward_of_not_waiting hw]
    simp [advance, hs]
  | @round n q q' q'' s es v t hw hs ht ih =>
    rw [onward_of_not_waiting hw, ih, onward_of_not_waiting (waiting_of_round hs)]
    simp [advance, hs]
  | @acts n q q' q'' s s' es a fx t hw hs hr hc ht ih =>
    rw [onward_of_not_waiting hw, ih, onward_of_not_waiting (waiting_of_command hs)]
    simp [advance, hs, start, hr, proceed, hc]
  | ends hw hs hr hc =>
    rw [onward_of_not_waiting hw]
    simp [advance, hs, start, hr, proceed, hc]
  | @waits n q q' q'' s es c w t hw hs hc ht ih =>
    obtain ⟨rest, loops, _, d⟩ := q''
    obtain rfl := waiting_of_command hs
    rw [onward_of_not_waiting hw, ih, onward_of_waiting rfl]
    cases c <;> cases hc <;> simp [advance, hs, start]
  | @repeats n q q' q'' s es range body t hw hs ht ih =>
    have hq : q''.waiting = none := waiting_of_command hs
    rw [onward_of_not_waiting hw, ih]
    simp [advance, hs, start, onward, hq]

theorem Runs.unique {n : Nat} {q : Queue} {s : Stage ω} {t t' : Tick ω} (h : Runs m n q s t)
    (h' : Runs m n q s t') : t = t' :=
  h.eq_onward.trans h'.eq_onward.symm

/-- A tick is the run of the block, after the repetitions under way were entered again. -/
theorem Runs.tick_eq {q : Queue} {n : Nat} {s : Stage ω} {t : Tick ω}
    (h : Runs m n { q with deferred := false } s t) :
    q.tick m n s = t.after (List.replicate q.loops.length .entered) := by
  obtain ⟨t', ht', htick⟩ := runs_tick q m n s
  rw [htick, ht'.unique h]

theorem tick_of_isEmpty {q : Queue} (h : q.isEmpty = true) (m : Moment) (n : Nat) (s : Stage ω) :
    q.tick m n s = suspend { rest := [] } n s := by
  obtain ⟨rest, loops, w, d⟩ := q
  obtain ⟨rfl, rfl, rfl⟩ := isEmpty_iff.1 h
  have hr : Runs m n { rest := [] } s _ := .done rfl rfl
  exact hr.tick_eq (q := { rest := [], deferred := d })

end Queue
end StoryScript
