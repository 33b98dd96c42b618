import StoryScript.Proofs.Trail
import StoryScript.Proofs.TurnOrder
import StoryScript.Proofs.Watching

/-! What the steps of a tick are spent on. A step is spent on every command that begins and on every
round that begins, and on nothing else: what was under way before the tick is run for nothing. So the
steps bound what a tick can do, whatever the counts of its repetitions are. -/
namespace StoryScript

/-! ### Traces -/

/-- How many commands and rounds begin in some events. -/
def spent (es : List Event) : Nat := (beganOf es).length + es.countP Event.isRound

/-- How often commands are run in some events. -/
def runsIn (es : List Event) : Nat := es.countP Event.enters

/-- Every command that begins is run at once. -/
def RunsAtOnce : List Event → Prop
  | [] => True
  | .began _ :: es => es.head? = some .entered ∧ RunsAtOnce es
  | _ :: es => RunsAtOnce es

/-- Whether nothing begins or is run by an event. -/
def Event.idles : Event → Bool
  | effect _ | left _ => true
  | began _ | entered | round _ => false

section
variable (es : List Event)

theorem spent_round (v : Value) : spent (.round v :: es) = spent es + 1 := by
  have hone : List.countP Event.isRound (.round v :: es) = es.countP Event.isRound + 1 :=
    List.countP_cons_of_pos rfl
  simp only [spent, hone, beganOf_cons, Event.began?_round, Option.toList_none, List.nil_append]
  omega

theorem spent_began (c : Command) : spent (.began c :: es) = spent es + 1 := by
  have hnone : List.countP Event.isRound (.began c :: es) = es.countP Event.isRound := rfl
  simp only [spent, hnone, beganOf_cons, Event.began?_began, Option.toList_some, List.length_append,
    List.length_singleton]
  omega

theorem runsIn_entered : runsIn (.entered :: es) = runsIn es + 1 := List.countP_cons_of_pos rfl

end

/-- What a tick comes to with some steps when some commands that are under way are yet to be run:
the steps that it does not leave over are spent, and every command that begins is run as well. -/
structure Pays {ω : Type} (steps underWay : Nat) (t : Tick ω) : Prop where
  steps : t.steps + spent t.events = steps
  runs : runsIn t.events = underWay + (beganOf t.events).length
  atOnce : RunsAtOnce t.events

namespace Pays
variable {ω : Type} {n k : Nat} {t : Tick ω}

theorem idle {es : List Event} (h : Pays n k t) (hes : ∀ e ∈ es, e.idles = true) :
    Pays n k (t.after es) := by
  induction es with
  | nil => exact h
  | cons e es ih =>
    obtain ⟨he, hes⟩ := List.forall_mem_cons.1 hes
    obtain ⟨hsteps, hruns, honce⟩ := ih hes
    cases e with
    | effect | left => exact ⟨hsteps, hruns, honce⟩
    | began | entered | round => cases he

theorem entered (h : Pays n k t) : Pays n (k + 1) (t.after [.entered]) := by
  obtain ⟨hsteps, hruns, honce⟩ := h
  refine ⟨hsteps, ?_, honce⟩
  simpa [runsIn_entered, hruns] using Nat.add_right_comm k _ 1

theorem enteredAll (h : Pays n k t) (j : Nat) :
    Pays n (j + k) (t.after (List.replicate j .entered)) := by
  induction j with
  | zero => simpa [Tick.after] using h
  | succ j ih =>
    have hj := ih.entered
    rwa [Tick.after_after, List.singleton_append, ← List.replicate_succ, Nat.add_right_comm] at hj

/-- A command is run. -/
theorem ran (h : Pays n k t) (fx : List Effect) (pending : Bool) :
    Pays n (k + 1) (t.after (.entered :: fx.map .effect ++ [.left pending])) := by
  have hidle : ∀ e ∈ fx.map Event.effect ++ [Event.left pending], e.idles = true := by
    intro e he
    rcases List.mem_append.1 he with he | he
    · obtain ⟨f, -, rfl⟩ := List.mem_map.1 he
      rfl
    · rw [List.mem_singleton.1 he]
      rfl
  simpa using (h.idle hidle).entered

/-- A step is spent on a round, -/
theorem round (h : Pays n k t) (v : Value) : Pays (n + 1) k (t.after [.round v]) := by
  obtain ⟨hsteps, hruns, honce⟩ := h
  refine ⟨?_, hruns, honce⟩
  simp [spent_round, ← hsteps, Nat.add_assoc]

/-- and on a command that begins, which is then run. -/
theorem began (h : Pays n (k + 1) t) (c : Command) (hrun : t.events.head? = some .entered) :
    Pays (n + 1) k (t.after [.began c]) := by
  obtain ⟨hsteps, hruns, honce⟩ := h
  refine ⟨?_, ?_, hrun, honce⟩
  · simp [spent_began, ← hsteps, Nat.add_assoc]
  · have hnone : runsIn (.began c :: t.events) = runsIn t.events := rfl
    simp [hnone, hruns]
    omega

theorem suspend (q : Queue) (n : Nat) (s : Stage ω) : Pays n 0 (q.suspend n s) := by
  have hidle : ∀ e ∈ List.replicate q.loops.length (Event.left true), e.idles = true := by
    intro e he
    rw [List.eq_of_mem_replicate he]
    rfl
  have hnone : Pays n 0 (⟨q, s, n, []⟩ : Tick ω) := ⟨rfl, rfl, trivial⟩
  simpa [Tick.after, Queue.suspend] using hnone.idle hidle

end Pays

namespace Queue

theorem idles_settle {rest : List Command} {ls : List Loop} {es : List Event} {q : Queue}
    {next : Next} (hs : settle rest ls = (es, q, next)) : ∀ e ∈ es, e.idles = true := by
  induction ls generalizing es with
  | nil => cases rest <;> (cases hs; simp)
  | cons l ls ih =>
    simp only [settle] at hs
    split at hs
    · cases hs
      simp
    · split at hs
      · cases hs
        simp
      · rcases hrest : settle rest ls with ⟨es', q', next'⟩
        rw [hrest] at hs
        cases hs
        exact List.forall_mem_cons.2 ⟨rfl, ih hrest⟩

variable {ω : Type} [World ω] {m : Moment} {n : Nat} {q : Queue} {s : Stage ω} {t : Tick ω}

/-- A command that waits is run before anything else. -/
theorem Runs.resumed (h : Runs m n q s t) {w : Waiting} (hw : q.waiting = some w) :
    ∃ pending w' s' fx rest, w.run m.now m.delta (q.read m s) s = (pending, w', s', fx) ∧
      t.events = .entered :: fx.map .effect ++ [.left pending] ++ rest := by
  cases h with
  | pending hw' hr | stops hw' hr | met hw' hr =>
    obtain rfl := Option.some.inj (hw.symm.trans hw')
    exact ⟨_, _, _, _, _, hr, rfl⟩
  | done hw' | spentCommand hw' | spentRound hw' | round hw' | acts hw' | ends hw' | waits hw'
  | repeats hw' => simp [hw] at hw'

theorem Runs.pays (h : Runs m n q s t) : Pays n q.waiting.toList.length t := by
  induction h with
  | pending hw hr => simpa [hw] using (Pays.suspend _ _ _).ran _ true
  | stops hw hr hc => simpa [hw] using (Pays.suspend _ _ _).ran _ false
  | met hw hr hc ht ih => simpa [hw] using Pays.ran ih _ false
  | done hw hs => simpa [hw] using (Pays.suspend _ _ _).idle (idles_settle hs)
  | spentCommand hw hs =>
    simpa [hw] using ((Pays.suspend _ _ _).idle (by simp [Event.idles])).idle (idles_settle hs)
  | spentRound hw hs => simpa [hw] using (Pays.suspend _ _ _).idle (idles_settle hs)
  | round hw hs ht ih =>
    rw [waiting_of_round hs] at ih
    simpa [hw] using (ih.round _).idle (idles_settle hs)
  | acts hw hs hr hc ht ih =>
    rw [waiting_of_command hs] at ih
    simpa [hw] using ((Pays.ran ih _ false).began _ rfl).idle (idles_settle hs)
  | ends hw hs hr hc =>
    simpa [hw] using (((Pays.suspend _ _ _).ran _ false).began _ rfl).idle (idles_settle hs)
  | waits hw hs hc ht ih =>
    obtain ⟨_, _, _, _, _, -, hevents⟩ := ht.resumed rfl
    simpa [hw] using (Pays.began ih _ (by simp [hevents])).idle (idles_settle hs)
  | repeats hw hs ht ih =>
    have hw' := waiting_of_command hs
    simp only [hw'] at ih
    simpa [hw] using (ih.entered.began _ rfl).idle (idles_settle hs)

/-! ### Ticks -/

/-- What is done in a tick with some steps, and what it costs. -/
structure Spends (q : Queue) (m : Moment) (n : Nat) (s : Stage ω) (t : Tick ω) : Prop where
  /-- The steps that are not left over are as many as commands and rounds began. -/
  steps : t.steps + ((beganOf t.events).length + t.events.countP Event.isRound) = n
  /-- The commands that are run are those that were under way and those that began, -/
  runs : runsIn t.events = q.underWay.length + (beganOf t.events).length
  atOnce : RunsAtOnce t.events
  /-- first those that were under way, whatever steps there are. -/
  resumed : List.replicate q.underWay.length .entered <+: t.events
  waiting : ∀ w ∈ q.waiting, ∃ pending w' s' fx rest,
    w.run m.now m.delta (q.read m s) s = (pending, w', s', fx) ∧
      t.events = List.replicate q.loops.length .entered ++
        (.entered :: fx.map .effect ++ [.left pending] ++ rest)

theorem spends_tick (q : Queue) (m : Moment) (n : Nat) (s : Stage ω) :
    Spends q m n s (q.tick m n s) := by
  obtain ⟨t, ht, htick⟩ := runs_tick q m n s
  have hunderWay : q.underWay.length = q.loops.length + q.waiting.toList.length := by
    cases hw : q.waiting <;> simp [underWay, hw]
  have hwaiting : ∀ w ∈ q.waiting, ∃ pending w' s' fx rest,
      w.run m.now m.delta (q.read m s) s = (pending, w', s', fx) ∧
        t.events = .entered :: fx.map .effect ++ [.left pending] ++ rest :=
    fun w hw => ht.resumed hw
  obtain ⟨hsteps, hruns, honce⟩ := ht.pays.enteredAll q.loops.length
  rw [← htick] at hsteps hruns honce
  refine ⟨hsteps, by rwa [hunderWay], honce, ?_, fun w hw => ?_⟩
  · rw [htick, Tick.events_after, hunderWay, List.replicate_add, List.prefix_append_right_inj]
    cases hw : q.waiting with
    | none => simp
    | some w =>
      obtain ⟨_, _, _, _, _, -, hevents⟩ := hwaiting w hw
      simp [hevents]
  · obtain ⟨pending, w', s', fx, rest, hr, hevents⟩ := hwaiting w hw
    exact ⟨pending, w', s', fx, rest, hr, by rw [htick, Tick.events_after, hevents]⟩

end Queue

/-! ### Turns -/

namespace Instance
variable {ω : Type} [World ω]

/-- The steps that some turns one after another leave over. -/
def leftOver (steps : Nat) : List (Seat ω) → Nat
  | [] => steps
  | x :: xs => leftOver x.tick.steps xs

theorem Onward.spent {steps : Nat} {s s' : Stage ω} {xs : List (Seat ω)}
    (h : Onward steps s xs s') :
    leftOver steps xs + sumOf (fun x => StoryScript.spent x.tick.events) xs = steps := by
  induction h with
  | finished => rfl
  | @turn x xs s h ih =>
    have hturn : x.tick.steps + StoryScript.spent x.tick.events = x.steps :=
      (Queue.spends_tick x.runner.queue x.moment x.steps x.stage).steps
    simp only [leftOver, sumOf]
    omega

theorem spent_turns {xs : List (Seat ω)} {ts : List Turn} (h : List.Forall₂ Seat.Takes xs ts) :
    sumOf (fun x => StoryScript.spent x.tick.events) xs =
      sumOf (fun t => StoryScript.spent t.events) ts := by
  induction h with
  | nil => rfl
  | cons hx _ ih => simp only [sumOf, ih, hx.events]

section
variable {t : Template} {b : Beat}

/-- The turns of a tick are given one after another, also when one of them terminates the story. -/
theorem exists_seats (steps : Nat) (seen : List Runner) (Q : Waitlist) (s : Stage ω)
    (todo : List Runner) :
    ∃ xs : List (Seat ω), (∀ x ∈ xs, Seated t b x steps Q s todo) ∧
      List.Forall₂ Seat.Takes xs (runAll t b steps seen Q s todo).turns ∧
      Onward steps s xs (runAll t b steps seen Q s todo).stage := by
  fun_induction runAll t b steps seen Q s todo with
  | case1 => exact ⟨[], by simp, .nil, .finished⟩
  | case2 steps seen Q s r todo hpaused ih =>
    obtain ⟨xs, hseated, hturns, honward⟩ := ih
    exact ⟨xs, fun x hx => .paused hpaused (hseated x hx), hturns, honward⟩
  | case3 steps seen Q s r todo hpaused shift =>
    have hp : b.paused.contains r.message.id = false := by simpa using hpaused
    refine ⟨[⟨r, b.moment r.message, steps, s⟩], ?_, .cons ⟨rfl, rfl, rfl⟩ .nil, ?_⟩
    · simpa using Seated.here hp rfl
    · exact Onward.turn (x := ⟨r, b.moment r.message, steps, s⟩) .finished
  | case4 steps seen Q s r todo hpaused shift hgoes ih =>
    have hp : b.paused.contains r.message.id = false := by simpa using hpaused
    have hends : endsStory shift.turn.events = false := by simpa using hgoes
    obtain ⟨xs, hseated, hturns, honward⟩ := ih
    refine ⟨⟨r, b.moment r.message, steps, s⟩ :: xs, ?_, .cons ⟨rfl, rfl, rfl⟩ hturns, ?_⟩
    · exact List.forall_mem_cons.2 ⟨.here hp rfl, fun x hx => .later hp hends (hseated x hx)⟩
    · exact Onward.turn (x := ⟨r, b.moment r.message, steps, s⟩) honward

end

/-- What the turns of a tick of a story cost. -/
structure Spends (i : Instance) (b : Beat) (steps : Nat) (w : ω) (ts : List Turn)
    (xs : List (Seat ω)) : Prop where
  seats : ∀ x ∈ xs, i.Seats b steps w x
  turns : List.Forall₂ Seat.Takes xs ts
  /-- The first turn has the steps of the tick, and every other those that the one before leaves. -/
  onward : ∃ s', Onward steps ⟨(i.deliverPosted b.now).1.scope, w⟩ xs s'
  steps : leftOver steps xs +
    sumOf (fun t : Turn => (beganOf t.events).length + t.events.countP Event.isRound) ts = steps

theorem exists_spends (i : Instance) (b : Beat) (steps : Nat) (w : ω) :
    ∃ xs, Spends i b steps w (i.account b steps w).turns xs := by
  unfold account
  split
  · exact ⟨[], by simp, .nil, ⟨_, .finished⟩, rfl⟩
  · next hidle =>
    obtain ⟨hlive, hactive⟩ : i.terminated = false ∧ i.paused = false := by simpa using hidle
    have htemplate := template_deliverPosted i b.now
    obtain ⟨xs, hseated, hturns, honward⟩ := exists_seats (t := i.template) (b := b) steps []
      (i.deliverPosted b.now).1.queued ⟨(i.deliverPosted b.now).1.scope, w⟩
      (i.deliverPosted b.now).1.runners
    simp only [htemplate]
    refine ⟨xs, fun x hx => ⟨hlive, hactive, hseated x hx⟩, hturns, ⟨_, honward⟩, ?_⟩
    have h := honward.spent
    rwa [spent_turns hturns] at h

/-- In every tick of a block and of a story the steps that are gone are told by what began in it, and
what was under way before is run even without a step. -/
theorem steps_spent :
    (∀ (q : Queue) (m : Moment) (n : Nat) (s : Stage ω), Queue.Spends q m n s (q.tick m n s)) ∧
      ∀ (i : Instance) (b : Beat) (steps : Nat) (w : ω),
        ∃ xs, Spends i b steps w (i.account b steps w).turns xs :=
  ⟨Queue.spends_tick, exists_spends⟩

end Instance
end StoryScript
