import StoryScript.Proofs.Schedule

/-! Ticks that are not short of steps. What a block comes to in such a tick does not depend on how
many steps there are, and no step has to be counted to tell it. -/
namespace StoryScript.Queue
variable {ω : Type} [World ω]

def Stretch.after (fx : List Effect) (r : Stretch ω) : Stretch ω :=
  { r with effects := fx ++ r.effects }

/-- What a block comes to in the rest of a tick that is never short of steps. -/
inductive Flows (m : Moment) : Queue → Stage ω → Stretch ω → Prop
  | pending {q : Queue} {s s' : Stage ω} {w w' : Waiting} {fx : List Effect}
      (hw : q.waiting = some w) (hr : w.run m.now m.delta (q.read m s) s = (true, w', s', fx)) :
      Flows m q s ⟨{ q with waiting := some w' }, s', fx⟩
  | stops {q : Queue} {s s' : Stage ω} {w w' : Waiting} {fx : List Effect}
      (hw : q.waiting = some w) (hr : w.run m.now m.delta (q.read m s) s = (false, w', s', fx))
      (hc : w.command.chains = false) :
      Flows m q s ⟨{ q with waiting := none, deferred := q.loops.isEmpty }, s', fx⟩
  | met {q : Queue} {s s' : Stage ω} {w w' : Waiting} {fx : List Effect} {r : Stretch ω}
      (hw : q.waiting = some w) (hr : w.run m.now m.delta (q.read m s) s = (false, w', s', fx))
      (hc : w.command.chains = true) (ht : Flows m { q with waiting := none } s' r) :
      Flows m q s (r.after fx)
  | done {q q' : Queue} {s : Stage ω} (hw : q.waiting = none)
      (hs : (settle q.rest q.loops).2 = (q', .nothing)) : Flows m q s ⟨q', s, []⟩
  | round {q q' q'' : Queue} {s : Stage ω} {v : Value} {r : Stretch ω} (hw : q.waiting = none)
      (hs : (settle q.rest q.loops).2 = (q', .round v q'')) (ht : Flows m q'' s r) : Flows m q s r
  | acts {q q' q'' : Queue} {s s' : Stage ω} {a : Action Operand} {fx : List Effect}
      {r : Stretch ω} (hw : q.waiting = none)
      (hs : (settle q.rest q.loops).2 = (q', .command (.act a) q''))
      (hr : (a.map (q''.read m s)).run s = (s', fx)) (hc : a.chains = true)
      (ht : Flows m q'' s' r) : Flows m q s (r.after fx)
  | ends {q q' q'' : Queue} {s s' : Stage ω} {a : Action Operand} {fx : List Effect}
      (hw : q.waiting = none) (hs : (settle q.rest q.loops).2 = (q', .command (.act a) q''))
      (hr : (a.map (q''.read m s)).run s = (s', fx)) (hc : a.chains = false) :
      Flows m q s ⟨{ q'' with deferred := q''.loops.isEmpty }, s', fx⟩
  | waits {q q' q'' : Queue} {s : Stage ω} {c : Command} {w : Waiting} {r : Stretch ω}
      (hw : q.waiting = none) (hs : (settle q.rest q.loops).2 = (q', .command c q''))
      (hc : c.waiting? = some w) (ht : Flows m { q'' with waiting := some w } s r) : Flows m q s r
  | repeats {q q' q'' : Queue} {s : Stage ω} {range : Range Operand} {body : List Command}
      {r : Stretch ω} (hw : q.waiting = none)
      (hs : (settle q.rest q.loops).2 = (q', .command (.repeat range body) q''))
      (ht : Flows m { q'' with loops := .ofRange range body (q''.read m s) :: q''.loops } s r) :
      Flows m q s r

variable {m : Moment}

/-! ### Flows are runs -/

/-- With some steps a block comes to what it comes to in a tick that is not short of steps, and more
steps are only left over. -/
theorem Flows.exists_runs {q : Queue} {s : Stage ω} {r : Stretch ω} (h : Flows m q s r) :
    ∃ n, ∀ k, ∃ es, Runs m (n + k) q s ⟨r.queue, r.stage, k, es⟩ ∧ effectsOf es = r.effects := by
  have hsettle {q q' : Queue} {next : Next} (hs : (settle q.rest q.loops).2 = (q', next)) :
      settle q.rest q.loops = ((settle q.rest q.loops).1, q', next) := by rw [← hs]
  have hunseen (q : Queue) : effectsOf (settle q.rest q.loops).1 = [] :=
    effectsOf_settle q.rest q.loops
  have hleft (n : Nat) : effectsOf (List.replicate n (.left true)) = [] := effectsOf_replicate rfl n
  induction h with
  | pending hw hr =>
    refine ⟨0, fun k => ⟨_, by rw [Nat.zero_add]; exact .pending hw hr, ?_⟩⟩
    simp [suspend, hleft]
  | stops hw hr hc =>
    refine ⟨0, fun k => ⟨_, by rw [Nat.zero_add]; exact .stops hw hr hc, ?_⟩⟩
    simp [suspend, hleft]
  | met hw hr hc ht ih =>
    obtain ⟨n, ih⟩ := ih
    refine ⟨n, fun k => ?_⟩
    obtain ⟨es, hes, heff⟩ := ih k
    exact ⟨_, .met hw hr hc hes, by simp [heff, Stretch.after]⟩
  | @done q q' s hw hs =>
    refine ⟨0, fun k => ⟨_, by rw [Nat.zero_add]; exact .done hw (hsettle hs), ?_⟩⟩
    simp [suspend, hleft, hunseen]
  | @round q _ _ _ _ _ hw hs ht ih =>
    obtain ⟨n, ih⟩ := ih
    refine ⟨n + 1, fun k => ?_⟩
    obtain ⟨es, hes, heff⟩ := ih k
    rw [Nat.add_right_comm]
    exact ⟨_, .round hw (hsettle hs) hes, by simp [heff, hunseen]⟩
  | acts hw hs hr hc ht ih =>
    obtain ⟨n, ih⟩ := ih
    refine ⟨n + 1, fun k => ?_⟩
    obtain ⟨es, hes, heff⟩ := ih k
    rw [Nat.add_right_comm]
    exact ⟨_, .acts hw (hsettle hs) hr hc hes, by simp [heff, hunseen, Stretch.after]⟩
  | ends hw hs hr hc =>
    refine ⟨1, fun k => ⟨_, by rw [Nat.add_comm]; exact .ends hw (hsettle hs) hr hc, ?_⟩⟩
    simp [suspend, hleft, hunseen]
  | waits hw hs hc ht ih =>
    obtain ⟨n, ih⟩ := ih
    refine ⟨n + 1, fun k => ?_⟩
    obtain ⟨es, hes, heff⟩ := ih k
    rw [Nat.add_right_comm]
    exact ⟨_, .waits hw (hsettle hs) hc hes, by simp [heff, hunseen]⟩
  | repeats hw hs ht ih =>
    obtain ⟨n, ih⟩ := ih
    refine ⟨n + 1, fun k => ?_⟩
    obtain ⟨es, hes, heff⟩ := ih k
    rw [Nat.add_right_comm]
    exact ⟨_, .repeats hw (hsettle hs) hes, by simp [heff, hunseen]⟩

/-- Nothing of a tick that is not short of steps is left to chance. -/
theorem Flows.unique {q : Queue} {s : Stage ω} {r r' : Stretch ω} (h : Flows m q s r)
    (h' : Flows m q s r') : r = r' := by
  obtain ⟨n, hn⟩ := h.exists_runs
  obtain ⟨n', hn'⟩ := h'.exists_runs
  obtain ⟨es, hes, heff⟩ := hn n'
  obtain ⟨es', hes', heff'⟩ := hn' n
  rw [Nat.add_comm] at hes'
  obtain ⟨hqueue, hstage, -, rfl⟩ := Tick.mk.inj (hes.unique hes')
  obtain ⟨queue, stage, effects⟩ := r
  obtain ⟨queue', stage', effects'⟩ := r'
  simp only at hqueue hstage heff heff'
  rw [hqueue, hstage, ← heff, heff']

/-! ### Runs that flow -/

theorem runs_onward (m : Moment) (n : Nat) (q : Queue) (s : Stage ω) :
    Runs m n q s (onward m n q s) := by
  unfold onward
  split
  · next hq => exact runs_advance n q s hq
  · next w hq =>
    have h := runs_resume (m := m) (w := w) (q := { q with waiting := none }) rfl
      (fun q' s' h => runs_advance n q' s' h) s
    rw [← hq] at h
    exact h

theorem Runs.steps_le {n : Nat} {q : Queue} {s : Stage ω} {t : Tick ω} (h : Runs m n q s t) :
    t.steps ≤ n := by
  induction h with
  | pending | stops | done | spentCommand | spentRound => simp
  | met _ _ _ _ ih => simpa using ih
  | ends => simp
  | round _ _ _ ih | acts _ _ _ _ _ ih | waits _ _ _ _ ih | repeats _ _ _ ih =>
    simp only [Tick.steps_after]
    omega

/-- A single step is spent on what comes next. -/
theorem Runs.steps_eq_zero {q q' : Queue} {s : Stage ω} {t : Tick ω} {es : List Event} {next : Next}
    (h : Runs m 1 q s t) (hw : q.waiting = none) (hs : settle q.rest q.loops = (es, q', next))
    (hn : next ≠ .nothing) : t.steps = 0 := by
  cases h with
  | pending hw' | stops hw' | met hw' => simp [hw] at hw'
  | done _ hs' =>
    obtain ⟨-, -, rfl⟩ : es = _ ∧ q' = _ ∧ next = _ := by simpa [hs] using hs'
    exact absurd rfl hn
  | ends => simp
  | round _ _ ht | acts _ _ _ _ ht | waits _ _ _ ht | repeats _ _ ht =>
    simpa using ht.steps_le

/-- A run is not short of steps if it leaves one over when it has one more. -/
theorem flows_of_runs {n : Nat} {q : Queue} {s : Stage ω} {t : Tick ω} (h : Runs m n q s t)
    (hl : 0 < (onward m (n + 1) q s).steps) :
    Flows m q s ⟨t.queue, t.stage, effectsOf t.events⟩ := by
  have hrest {n n' : Nat} {q q' : Queue} {s s' : Stage ω} (hl : 0 < (onward m n q s).steps)
      (hstep : ∀ t', Runs m n' q' s' t' → ∃ t, Runs m n q s t ∧ t.steps = t'.steps) :
      0 < (onward m n' q' s').steps := by
    obtain ⟨t, ht, hsteps⟩ := hstep _ (runs_onward m n' q' s')
    rwa [← ht.eq_onward, hsteps] at hl
  have hunseen {q q' : Queue} {es : List Event} {next : Next}
      (hs : settle q.rest q.loops = (es, q', next)) : effectsOf es = [] := by
    have h := effectsOf_settle q.rest q.loops
    rwa [hs] at h
  have hsettle {q q' : Queue} {es : List Event} {next : Next}
      (hs : settle q.rest q.loops = (es, q', next)) :
      (settle q.rest q.loops).2 = (q', next) := by rw [hs]
  induction h with
  | pending hw hr => simpa using Flows.pending hw hr
  | stops hw hr hc => simpa using Flows.stops hw hr hc
  | met hw hr hc ht ih =>
    have hf := ih (hrest hl fun _ h => ⟨_, .met hw hr hc h, rfl⟩)
    simpa [Stretch.after] using Flows.met hw hr hc hf
  | done hw hs => simpa [hunseen hs] using Flows.done (m := m) hw (hsettle hs)
  | @spentCommand q _ _ s _ _ hw hs | @spentRound q _ _ s _ _ hw hs =>
    -- The step that is missing would be spent.
    have hzero := (runs_onward m 1 q s).steps_eq_zero hw hs (by simp)
    exact absurd hzero (Nat.ne_of_gt hl)
  | round hw hs ht ih =>
    have hf := ih (hrest hl fun _ h => ⟨_, .round hw hs h, rfl⟩)
    simpa [hunseen hs] using Flows.round hw (hsettle hs) hf
  | acts hw hs hr hc ht ih =>
    have hf := ih (hrest hl fun _ h => ⟨_, .acts hw hs hr hc h, rfl⟩)
    simpa [hunseen hs, Stretch.after] using Flows.acts hw (hsettle hs) hr hc hf
  | ends hw hs hr hc => simpa [hunseen hs] using Flows.ends hw (hsettle hs) hr hc
  | waits hw hs hc ht ih =>
    have hf := ih (hrest hl fun _ h => ⟨_, .waits hw hs hc h, rfl⟩)
    simpa [hunseen hs] using Flows.waits hw (hsettle hs) hc hf
  | repeats hw hs ht ih =>
    have hf := ih (hrest hl fun _ h => ⟨_, .repeats hw hs h, rfl⟩)
    simpa [hunseen hs] using Flows.repeats hw (hsettle hs) hf

/-! ### Ticks -/

/-- Whether the steps of a tick last to its end: with one more, one is left over. -/
def Lasts (q : Queue) (m : Moment) (n : Nat) (s : Stage ω) : Prop := 0 < (q.tick m (n + 1) s).steps

theorem flows_of_lasts {q : Queue} {n : Nat} {s : Stage ω} (h : q.Lasts m n s) :
    Flows m { q with deferred := false } s
      ⟨(q.tick m n s).queue, (q.tick m n s).stage, effectsOf (q.tick m n s).events⟩ := by
  have htick (n : Nat) := (runs_onward m n { q with deferred := false } s).tick_eq
  have hl := h
  rw [Lasts, htick, Tick.steps_after] at hl
  have hf := flows_of_runs (runs_onward m n { q with deferred := false } s) hl
  have hunseen := effectsOf_replicate (e := .entered) rfl q.loops.length
  simpa [htick, hunseen] using hf

end StoryScript.Queue
