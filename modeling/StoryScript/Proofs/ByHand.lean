import StoryScript.Proofs.Rounds
import StoryScript.Proofs.Schedule

/-! A block of a single command does what the command does when it is driven by hand: evaluated and
run in every tick until it is over. -/
namespace StoryScript.Task
open Queue (Runs Pulse)

variable {ω : Type}

/-- The block that is as far as a command under way is. -/
inductive Shows : Task → Queue → Prop
  | time (limit : Operand) (c : Option Context) (elapsed : Int) :
      Shows ⟨.wait limit, c, elapsed⟩ { rest := [], waiting := some (.time limit elapsed) }
  | goal (w : Await Operand) (c : Option Context) (watch : Watch) :
      Shows ⟨.await w, c, watch⟩ { rest := [], waiting := some (.goal w watch) }
  | rounds {range : Range Operand} {body : List Command} {items : Items} {current : Option Queue}
      {k : Nat} {q : Queue} (c : Option Context) (h : Rounds.Shows range body items current k q) :
      Shows ⟨.repeat range body, c, (⟨some items, current, k⟩ : Rounds)⟩ q

theorem Shows.isEmpty {t : Task} {q : Queue} (h : t.Shows q) : q.isEmpty = false := by
  cases h with
  | time | goal => rfl
  | rounds c h =>
    cases h <;>
      simp [Rounds.between, Queue.within, Queue.isEmpty, Queue.size, Queue.isBusy]

abbrev Matches (o : Run ω) (t : Tick ω) : Prop :=
  t.Yields o.pending o.task.Shows o.stage o.steps o.effects

variable [World ω] {m : Moment}

def surroundings (m : Moment) (s : Stage ω) : Context := ⟨s.scope.vars, m.iterator, m.args⟩

theorem exists_wait {w w' : Waiting} {p : Bool} {s s' : Stage ω} {fx : List Effect} {u : Task}
    (n : Nat)
    (hr : w.run m.now m.delta (Operand.read (some (surroundings m s))) s = (p, w', s', fx))
    (hu : p = true → u.Shows { rest := [], waiting := some w' }) :
    ∃ t, Runs m n { rest := [], waiting := some w } s t ∧ Matches ⟨p, u, s', n, fx⟩ t := by
  cases p with
  | true =>
    refine ⟨_, .pending rfl hr, rfl, rfl, ?_, hu, fun h => Bool.noConfusion h⟩
    simp
  | false =>
    cases hc : w.command.chains with
    | false =>
      refine ⟨_, .stops rfl hr hc, rfl, rfl, ?_, fun h => Bool.noConfusion h, fun _ => rfl⟩
      simp
    | true =>
      refine ⟨_, .met rfl hr hc (.done rfl rfl), rfl, rfl, ?_, fun h => Bool.noConfusion h,
        fun _ => rfl⟩
      simp

theorem exists_rounds {range : Range Operand} {body : List Command} {items : Items}
    {c : Option Context} {n : Nat} {q : Queue} {s : Stage ω} {o : Rounds.Run ω}
    (h : ∃ t, Runs m n q s t ∧ Rounds.Matches range body items o t) :
    ∃ t, Runs m n q s t ∧
      Matches ⟨o.pending, ⟨.repeat range body, c, (⟨some items, o.current, o.index⟩ : Rounds)⟩,
        o.stage, o.steps, o.effects⟩ t := by
  obtain ⟨t, ht, hm⟩ := h
  exact ⟨t, ht, hm.stage, hm.steps, hm.effects, fun hp => .rounds c (hm.pending hp), hm.finished⟩

theorem exists_resumed {u : Task} {q : Queue} (h : u.Shows q) (n : Nat) (s : Stage ω) :
    ∃ t, Runs m n { q with deferred := false } s t ∧
      Matches ((u.evaluate (surroundings m s)).run m.now m.delta n s) t := by
  cases h with
  | time limit c elapsed => exact exists_wait n rfl fun _ => .time ..
  | goal w c watch => exact exists_wait n rfl fun _ => .goal ..
  | rounds c h => exact exists_rounds (Rounds.exists_run h n s)

/-- A command that has not begun, in step with a block of its own. The block spends a step on its
beginning. -/
theorem exists_started (c : Command) (n : Nat) (s : Stage ω) :
    ∃ t, Runs m (n + 1) (.ofBlock [c]) s t ∧
      Matches ((evaluate { command := c } (surroundings m s)).run m.now m.delta n s) t := by
  cases c with
  | act a =>
    rcases hr : (a.map (Operand.read (some (surroundings m s)))).run s with ⟨s', fx⟩
    have hrun : (evaluate { command := .act a } (surroundings m s)).run m.now m.delta n s =
        ⟨false, ⟨.act a, some (surroundings m s), ()⟩, s', n, fx⟩ := by
      simp only [evaluate, run, hr]
      rfl
    rw [hrun]
    cases hc : a.chains with
    | false =>
      refine ⟨_, .ends rfl rfl hr hc, rfl, rfl, ?_, fun h => Bool.noConfusion h, fun _ => rfl⟩
      simp
    | true =>
      refine ⟨_, .acts rfl rfl hr hc (.done rfl rfl), rfl, rfl, ?_, fun h => Bool.noConfusion h,
        fun _ => rfl⟩
      simp
  | wait limit =>
    obtain ⟨t, ht, hm⟩ := exists_resumed (m := m) (.time limit none 0) n s
    exact ⟨_, .waits rfl rfl rfl ht, (hm.unseen rfl).unseen rfl⟩
  | await w =>
    obtain ⟨t, ht, hm⟩ := exists_resumed (m := m) (.goal w none {}) n s
    exact ⟨_, .waits rfl rfl rfl ht, (hm.unseen rfl).unseen rfl⟩
  | «repeat» range body =>
    have hbegin : ∃ t, Runs m n _ s t ∧ Rounds.Matches range body
        (range.map (Operand.read (some (surroundings m s)))).items _ t :=
      Rounds.exists_begin 0 n .absent s
    rw [Rounds.between, Items.drop_zero] at hbegin
    obtain ⟨t, ht, hm⟩ := exists_rounds (c := some (surroundings m s)) hbegin
    exact ⟨_, .repeats rfl rfl ht, ((hm.unseen rfl).unseen rfl).unseen rfl⟩

/-! ### Schedules -/

/-- What some ticks come to for a command: the command, unless it is over, the stage, and the
effects. -/
structure Stretch (ω : Type) where
  task : Option Task
  stage : Stage ω
  effects : List Effect

/-- Drives a command by hand through the ticks of a schedule, until it is over. -/
def drive (iterator : Value) (args : List Value) (u : Task) (s : Stage ω) :
    List Pulse → Stretch ω
  | [] => ⟨some u, s, []⟩
  | p :: r =>
    let o := (u.evaluate ⟨s.scope.vars, iterator, args⟩).run p.now p.delta p.steps s
    if o.pending then
      let rest := drive iterator args o.task o.stage r
      { rest with effects := o.effects ++ rest.effects }
    else ⟨none, o.stage, o.effects⟩

structure Agrees (a : Stretch ω) (b : Queue.Stretch ω) : Prop where
  stage : a.stage = b.stage
  effects : a.effects = b.effects
  finished : a.task.isNone = b.queue.isEmpty

variable (iterator : Value) (args : List Value)

theorem drive_of_isEmpty {q : Queue} (h : q.isEmpty = true) (s : Stage ω) (ps : List Pulse) :
    (Queue.drive iterator args q s ps).queue.isEmpty = true ∧
      (Queue.drive iterator args q s ps).stage = s ∧
      (Queue.drive iterator args q s ps).effects = [] := by
  induction ps generalizing q with
  | nil => exact ⟨h, rfl, rfl⟩
  | cons p r ih =>
    have htick := Queue.tick_of_isEmpty h ⟨p.now, p.delta, iterator, args⟩ p.steps s
    simpa [Queue.drive, htick] using ih (q := { rest := [] }) rfl

variable {iterator args}

theorem agrees_cons {u : Task} {q : Queue} {s : Stage ω} {p p' : Pulse} {r : List Pulse}
    (hm : Matches ((u.evaluate ⟨s.scope.vars, iterator, args⟩).run p.now p.delta p.steps s)
      (q.tick ⟨p'.now, p'.delta, iterator, args⟩ p'.steps s))
    (hr : ∀ {u : Task} {q : Queue} (s : Stage ω), u.Shows q →
      Agrees (u.drive iterator args s r) (q.drive iterator args s r)) :
    Agrees (u.drive iterator args s (p :: r)) (q.drive iterator args s (p' :: r)) := by
  simp only [drive, Queue.drive]
  rw [hm.stage, hm.effects]
  split
  · next hp =>
    have hrest := hr ((u.evaluate ⟨s.scope.vars, iterator, args⟩).run p.now p.delta p.steps s).stage
      (hm.pending hp)
    exact ⟨hrest.stage, by rw [hrest.effects], hrest.finished⟩
  · next hp =>
    obtain ⟨hempty, hstage, heffects⟩ := drive_of_isEmpty iterator args
      (hm.finished (by simpa using hp))
      ((u.evaluate ⟨s.scope.vars, iterator, args⟩).run p.now p.delta p.steps s).stage r
    exact ⟨hstage.symm, by simp [heffects], hempty.symm⟩

theorem agrees_of_shows {u : Task} {q : Queue} (s : Stage ω) (h : u.Shows q) (ps : List Pulse) :
    Agrees (u.drive iterator args s ps) (q.drive iterator args s ps) := by
  induction ps generalizing u q s with
  | nil => exact ⟨rfl, rfl, h.isEmpty.symm⟩
  | cons p r ih =>
    obtain ⟨t, ht, hm⟩ := exists_resumed (m := ⟨p.now, p.delta, iterator, args⟩) h p.steps s
    refine agrees_cons ?_ fun s h => ih s h
    rw [ht.tick_eq]
    exact hm.unseen (effectsOf_replicate rfl _)

/-- A block of a single command goes through any schedule as the command does that is driven by hand.
Its first tick has one more step to spend, for the command to begin. -/
theorem drive_alone (c : Command) (s : Stage ω) (p : Pulse) (ps : List Pulse) :
    Agrees (drive iterator args { command := c } s (p :: ps))
      (Queue.drive iterator args (.ofBlock [c]) s ({ p with steps := p.steps + 1 } :: ps)) := by
  obtain ⟨t, ht, hm⟩ := exists_started (m := ⟨p.now, p.delta, iterator, args⟩) c p.steps s
  refine agrees_cons ?_ fun s h => agrees_of_shows s h ps
  rw [Runs.tick_eq (q := .ofBlock [c]) ht]
  exact hm.unseen (effectsOf_replicate rfl _)

end StoryScript.Task
