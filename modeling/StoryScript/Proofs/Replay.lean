import StoryScript.Host
import StoryScript.Proofs.Schedule

/-! What happens to the stage, told by the effects. Running commands changes the memory of a story
and the world around it by what they are seen to do, and by nothing else: the effects of a run,
replayed on the stage on which it began, lead to the stage on which it ended. -/
namespace StoryScript

section
variable {ω : Type} [World ω]

/-- The stage after something was seen to happen on it. -/
def Stage.replay (s : Stage ω) : Effect → Stage ω
  | .wrote name v => { s with scope := s.scope.set name v }
  | .requested r => { s with world := World.ask r s.world }
  | .called f args => { s with world := (World.call f args s.world).2 }
  | .posted _ _ | .terminated | .said _ | .warned _ => s

/-- The stage after some things were seen to happen on it, one after another. -/
def Stage.replayAll (s : Stage ω) (fx : List Effect) : Stage ω := fx.foldl Stage.replay s

namespace Stage

@[simp] theorem replayAll_nil (s : Stage ω) : s.replayAll [] = s := rfl

@[simp] theorem replayAll_cons (s : Stage ω) (e : Effect) (fx : List Effect) :
    s.replayAll (e :: fx) = (s.replay e).replayAll fx := rfl

@[simp] theorem replayAll_append (s : Stage ω) (fx gx : List Effect) :
    s.replayAll (fx ++ gx) = (s.replayAll fx).replayAll gx := List.foldl_append

theorem replayAll_ask (s : Stage ω) (rs : List Request) :
    (s.ask rs).1 = s.replayAll (s.ask rs).2 := by
  induction rs generalizing s with
  | nil => rfl
  | cons r rs ih => exact ih { s with world := World.ask r s.world }

theorem replayAll_posted (s : Stage ω) (ms : List String) (args : List Value) :
    s.replayAll (ms.map (.posted · args)) = s := by
  induction ms with
  | nil => rfl
  | cons m ms ih => exact ih

end Stage

/-! ### Commands -/

theorem Assignment.replay_run (a : Assignment Value) (s : Stage ω) :
    (a.run s).1 = s.replayAll (a.run s).2 := by
  unfold run
  split <;> rfl

theorem Action.replay_run (a : Action Value) (s : Stage ω) :
    (a.run s).1 = s.replayAll (a.run s).2 := by
  cases a with
  | assign a =>
    simp only [run]
    split
    · rfl
    · exact a.replay_run s
  | post m args => exact (s.replayAll_posted _ args).symm
  | terminate | log => rfl
  | start id =>
    simp only [run]
    split
    · rfl
    · exact s.replayAll_ask _
  | stop | pause | send | pauseHandlers => exact s.replayAll_ask _
  | callHost f args result =>
    rcases hc : World.call f.toText args s.world with ⟨answer, world⟩
    have hcall : s.replay (.called f.toText args) = { s with world } := by simp [Stage.replay, hc]
    cases answer with
    | error fault => simp [run, hc, Stage.replay]
    | ok v =>
      cases result with
      | none => simp [run, hc, hcall]
      | some target =>
        have hrun := Assignment.replay_run ⟨target, v⟩ { s with world }
        simpa [run, hc, hcall] using hrun

theorem Outcomes.replay_run (o : Outcomes Value) (v : Verdict) (s : Stage ω) :
    (o.run v s).1 = s.replayAll (o.run v s).2 := by
  unfold run
  split
  · next a _ => exact a.replay_run s
  · rfl

theorem Waiting.replay_run (w : Waiting) (now delta : Int) (read : Operand → Value) (s : Stage ω) :
    (w.run now delta read s).2.2.1 = s.replayAll (w.run now delta read s).2.2.2 := by
  cases w with
  | time limit elapsed => rfl
  | goal wait watch => exact (wait.map read).outcomes.replay_run _ s

/-! ### Ticks -/

theorem Queue.replay_runs {m : Moment} {n : Nat} {q : Queue} {s : Stage ω} {t : Tick ω}
    (h : Runs m n q s t) : t.stage = s.replayAll (effectsOf t.events) := by
  have hwait {w w' : Waiting} {q : Queue} {s s' : Stage ω} {pending : Bool} {fx : List Effect}
      (hr : w.run m.now m.delta (q.read m s) s = (pending, w', s', fx)) : s' = s.replayAll fx := by
    have h := w.replay_run m.now m.delta (q.read m s) s
    rwa [hr] at h
  have hact {a : Action Value} {s s' : Stage ω} {fx : List Effect} (hr : a.run s = (s', fx)) :
      s' = s.replayAll fx := by
    have h := a.replay_run s
    rwa [hr] at h
  have hunseen {q q' : Queue} {es : List Event} {next : Next}
      (hs : settle q.rest q.loops = (es, q', next)) : effectsOf es = [] := by
    have h := effectsOf_settle q.rest q.loops
    rwa [hs] at h
  induction h with
  | pending _ hr => simp [hwait hr]
  | stops _ hr => simp [hwait hr]
  | met _ hr _ _ ih => simp [ih, hwait hr]
  | done _ hs => simp [hunseen hs]
  | spentCommand _ hs => simp [hunseen hs, Stage.replay]
  | spentRound _ hs => simp [hunseen hs]
  | round _ hs _ ih => simp [hunseen hs, ih]
  | acts _ hs hr _ _ ih => simp [hunseen hs, ih, hact hr]
  | ends _ hs hr => simp [hunseen hs, hact hr]
  | waits _ hs _ _ ih => simp [hunseen hs, ih]
  | repeats _ hs _ ih => simp [hunseen hs, ih]

theorem Queue.replay_tick (q : Queue) (m : Moment) (n : Nat) (s : Stage ω) :
    (q.tick m n s).stage = s.replayAll (effectsOf (q.tick m n s).events) := by
  obtain ⟨t, ht, htick⟩ := runs_tick q m n s
  have hunseen := effectsOf_replicate (e := .entered) rfl q.loops.length
  rw [htick]
  simp [hunseen, replay_runs ht]

namespace Instance

theorem replay_takeTurn (t : Template) (b : Beat) (steps : Nat) (Q : Waitlist) (s : Stage ω)
    (r : Runner) :
    (takeTurn t b steps Q s r).stage =
      s.replayAll (effectsOf (takeTurn t b steps Q s r).turn.events) :=
  r.queue.replay_tick (b.moment r.message) steps s

theorem replay_runAll (t : Template) (b : Beat) (steps : Nat) (seen : List Runner) (Q : Waitlist)
    (s : Stage ω) (todo : List Runner) :
    (runAll t b steps seen Q s todo).stage =
      s.replayAll (Turn.effects (runAll t b steps seen Q s todo).turns) := by
  fun_induction runAll t b steps seen Q s todo with
  | case1 => rfl
  | case2 _ _ _ _ _ _ _ ih => exact ih
  | case3 steps seen Q s r => simpa [Turn.effects] using replay_takeTurn t b steps Q s r
  | case4 steps seen Q s r todo hpaused shift hgoes =>
    rename_i ih
    have hturn : shift.stage = s.replayAll (effectsOf shift.turn.events) :=
      replay_takeTurn t b steps Q s r
    simpa [Round.after, Turn.effects, ← hturn] using ih

/-- The world is changed by what is seen of a story in its tick, whatever is in its memory. -/
theorem world_replayAll (scope scope' : Scope) (w : ω) (fx : List Effect) :
    ((⟨scope, w⟩ : Stage ω).replayAll fx).world = ((⟨scope', w⟩ : Stage ω).replayAll fx).world := by
  induction fx generalizing scope scope' w with
  | nil => rfl
  | cons e fx ih => cases e <;> exact ih _ _ _

theorem replay_account (i : Instance) (b : Beat) (steps : Nat) (w : ω) (scope : Scope) :
    (i.account b steps w).world =
      ((⟨scope, w⟩ : Stage ω).replayAll (Turn.effects (i.account b steps w).turns)).world := by
  unfold account
  split
  · rfl
  · generalize i.deliverPosted b.now = d
    have hrun := replay_runAll d.1.template b steps [] d.1.queued ⟨d.1.scope, w⟩ d.1.runners
    have hworld := congrArg Stage.world hrun
    rwa [world_replayAll d.1.scope scope] at hworld

end Instance

theorem Host.replay_runInstances (b : Instance.Beat) (steps : Nat) (w : ω) (is : List Instance)
    (scope : Scope) :
    (runInstances b steps w is).2.1 =
      ((⟨scope, w⟩ : Stage ω).replayAll
        ((runInstances b steps w is).2.2.flatMap fun t => Turn.effects t.2)).world := by
  induction is generalizing w with
  | nil => rfl
  | cons i is ih =>
    have hi := i.replay_account b steps w scope
    simp only [runInstances, Instance.tick, List.flatMap_cons, Stage.replayAll_append]
    rw [ih, hi]
    exact Instance.world_replayAll _ _ _ _

end

/-! ### Memory and board -/

/-- No command changes when messages came. -/
theorem Stage.triggers_replayAll {ω : Type} [World ω] (s : Stage ω) (fx : List Effect) :
    (s.replayAll fx).scope.triggers = s.scope.triggers := by
  induction fx generalizing s with
  | nil => rfl
  | cons e fx ih =>
    have he : (s.replay e).scope.triggers = s.scope.triggers := by cases e <;> rfl
    rw [replayAll_cons, ih, he]

def Effect.request? : Effect → Option Request
  | requested r => some r
  | _ => none

/-- A board after some requests were made, one after another. -/
def Board.askAll (b : Board) (rs : List Request) : Board := rs.foldl (fun b r => b.ask r) b

theorem Board.requests_askAll (b : Board) (rs : List Request) :
    (b.askAll rs).requests = b.requests ++ rs := by
  induction rs generalizing b with
  | nil => simp [askAll]
  | cons r rs ih =>
    have h := ih (b.ask r)
    simpa [askAll] using h

theorem Board.requests_refresh (b : Board) (is : List Instance) :
    (b.refresh is).requests = b.requests := by
  suffices h : ∀ c : Board, ((is.filter (!·.terminated)).foldl countInstance c).requests = c.requests
    from h { requests := b.requests }
  induction is.filter (!·.terminated) with
  | nil => exact fun c => rfl
  | cons i is ih => exact fun c => ih (c.countInstance i)

/-- The board is changed by requests, and by nothing else that is seen. -/
theorem Stage.board_replayAll {η : Type} [HostFunctions η] (s : Stage (Surroundings η))
    (fx : List Effect) :
    (s.replayAll fx).world.board = s.world.board.askAll (fx.filterMap Effect.request?) := by
  induction fx generalizing s with
  | nil => rfl
  | cons e fx ih =>
    rw [replayAll_cons, ih]
    cases e <;> rfl

end StoryScript
