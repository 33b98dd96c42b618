import StoryScript.Proofs.Arrivals
import StoryScript.Proofs.Upkeep

/-! Stories that are terminated. The command that terminates a story is the last that is run in it,
whatever handlers are still at work or wait; from then on the story is left alone, its host lets it
go at the end of the tick, and no later story gets its id. -/
namespace StoryScript

/-! ### Traces -/

/-- Whether an event is the beginning of a command that terminates the story, or what that command is
seen to do. -/
def Event.terminates : Event → Bool
  | .effect .terminated | .began (.act .terminate) => true
  | _ => false

/-- What is told of a command that terminates the story and stands inside of so many repetitions. -/
def closing (k : Nat) : List Event :=
  .began (.act .terminate) :: .entered :: .effect .terminated :: .left false ::
    List.replicate k (.left true)

theorem effectsOf_closing (k : Nat) : effectsOf (closing k) = [.terminated] := by
  have hunseen := effectsOf_replicate (e := .left true) rfl k
  simp [closing, hunseen]

/-- In a trace nothing terminates the story, or the trace closes with the command that does. -/
def Closes (es : List Event) : Prop :=
  es.any Event.terminates = false ∨
    ∃ before k, before.any Event.terminates = false ∧ es = before ++ closing k

theorem Closes.append {es fs : List Event} (hes : es.any Event.terminates = false) (h : Closes fs) :
    Closes (es ++ fs) := by
  rcases h with hfs | ⟨before, k, hbefore, rfl⟩
  · exact .inl (by simp [List.any_append, hes, hfs])
  · exact .inr ⟨es ++ before, k, by simp [List.any_append, hes, hbefore], by simp⟩

/-- What is seen of a trace that closes tells whether it is closed by a command. -/
theorem Closes.any_effectsOf {es : List Event} (h : Closes es) :
    (effectsOf es).any Effect.terminates = es.any Event.terminates := by
  have hnone {es : List Event} (hes : es.any Event.terminates = false) :
      (effectsOf es).any Effect.terminates = false := by
    induction es with
    | nil => rfl
    | cons e es ih =>
      rw [List.any_cons, Bool.or_eq_false_iff] at hes
      have he : e.effect?.toList.any Effect.terminates = false := by
        cases e with
        | effect e => cases e <;> first | rfl | exact hes.1
        | began | entered | left | round => rfl
      rw [effectsOf_cons, List.any_append, he, ih hes.2]
      rfl
  rcases h with hes | ⟨before, k, hbefore, rfl⟩
  · rw [hes, hnone hes]
  · rw [effectsOf_append, effectsOf_closing]
    simp [closing, List.any_append, Event.terminates, Effect.terminates]

/-! ### Commands -/

theorem Event.any_map_effect (fx : List Effect) :
    (fx.map Event.effect).any Event.terminates = fx.any Effect.terminates := by
  rw [List.any_map]
  congr 1
  funext e
  cases e <;> rfl

section
variable {ω : Type} [World ω]

omit [World ω] in
theorem Assignment.terminates_run (a : Assignment Value) (s : Stage ω) :
    (a.run s).2.any Effect.terminates = false := by
  unfold run
  split <;> rfl

theorem Stage.terminates_ask (s : Stage ω) (rs : List Request) :
    (s.ask rs).2.any Effect.terminates = false := by
  simp [ask, Effect.terminates]

/-- Of all that acts at once, only what terminates the story ends the tick. -/
theorem Action.terminates_run (a : Action Value) (s : Stage ω) :
    (a.run s).2.any Effect.terminates = !a.chains := by
  cases a with
  | assign a =>
    simp only [run]
    split
    · rfl
    · exact a.terminates_run s
  | post m args => simp [run, Effect.terminates, chains]
  | terminate | log => rfl
  | start id =>
    simp only [run]
    split
    · rfl
    · exact s.terminates_ask _
  | stop | pause | send | pauseHandlers => exact s.terminates_ask _
  | callHost f args result =>
    simp only [run]
    split
    · rfl
    · split
      · rfl
      · exact Assignment.terminates_run _ _

theorem Waiting.terminates_run (w : Waiting) (now delta : Int) (read : Operand → Value)
    (s : Stage ω) : (w.run now delta read s).2.2.2.any Effect.terminates = false := by
  cases w with
  | time limit elapsed => rfl
  | goal wait watch =>
    simp only [run, Await.run, Outcomes.run]
    split
    · exact Assignment.terminates_run _ _
    · rfl

/-! ### Ticks -/

namespace Queue

omit [World ω] in
theorem terminates_suspend (q : Queue) (n : Nat) (s : Stage ω) :
    (q.suspend n s).events.any Event.terminates = false := by
  simp [suspend, List.any_replicate, Event.terminates]

theorem terminates_settle {q q' : Queue} {es : List Event} {next : Next}
    (hs : settle q.rest q.loops = (es, q', next)) : es.any Event.terminates = false := by
  suffices h : ∀ rest ls, (settle rest ls).1.any Event.terminates = false by
    have hq := h q.rest q.loops
    rwa [hs] at hq
  intro rest ls
  induction ls with
  | nil => cases rest <;> rfl
  | cons l ls ih =>
    simp only [settle]
    split
    · rfl
    · split
      · rfl
      · simpa [Event.terminates] using ih

theorem terminates_ran {fx : List Effect} (h : fx.any Effect.terminates = false) (p : Bool) :
    (.entered :: fx.map .effect ++ [.left p] : List Event).any Event.terminates = false := by
  rw [List.cons_append, List.any_cons, List.any_append, Event.any_map_effect, h]
  rfl

theorem closes_runs {m : Moment} {n : Nat} {q : Queue} {s : Stage ω} {t : Tick ω}
    (h : Runs m n q s t) : Closes t.events := by
  have hwait {w w' : Waiting} {q : Queue} {s s' : Stage ω} {p : Bool} {fx : List Effect}
      (hr : w.run m.now m.delta (q.read m s) s = (p, w', s', fx)) :
      (.entered :: fx.map .effect ++ [.left p] : List Event).any Event.terminates = false := by
    have hfx := w.terminates_run m.now m.delta (q.read m s) s
    rw [hr] at hfx
    exact terminates_ran hfx p
  have hact {a : Action Operand} {q : Queue} {s s' : Stage ω} {fx : List Effect}
      (hr : (a.map (q.read m s)).run s = (s', fx)) : fx.any Effect.terminates = !a.chains := by
    have hfx := (a.map (q.read m s)).terminates_run s
    rw [hr] at hfx
    cases a <;> exact hfx
  induction h with
  | pending _ hr | stops _ hr => exact .append (hwait hr) (.inl (terminates_suspend _ _ _))
  | met _ hr _ _ ih => exact .append (hwait hr) ih
  | done _ hs | spentRound _ hs =>
    exact .append (terminates_settle hs) (.inl (terminates_suspend _ _ _))
  | spentCommand _ hs =>
    exact .append (terminates_settle hs) (.append rfl (.inl (terminates_suspend _ _ _)))
  | round _ hs _ ih => exact .append (terminates_settle hs) (.append rfl ih)
  | @acts _ _ _ _ _ _ _ a _ _ _ hs hr hc _ ih =>
    have hbegan : [Event.began (.act a)].any Event.terminates = false := by
      cases a <;> first | rfl | cases hc
    have hran := terminates_ran ((hact hr).trans (by rw [hc]; rfl)) false
    exact .append (terminates_settle hs) (.append hbegan (.append hran ih))
  | @ends _ _ _ q'' _ _ _ a _ _ hs hr hc =>
    cases a with
    | terminate =>
      obtain ⟨rfl, rfl⟩ := Prod.mk.inj hr
      exact .append (terminates_settle hs) (.inr ⟨[], q''.loops.length, rfl, rfl⟩)
    | assign | post | log | start | stop | pause | send | pauseHandlers | callHost => cases hc
  | @waits _ _ _ _ _ _ c _ _ _ hs hc _ ih =>
    have hbegan : [Event.began c].any Event.terminates = false := by
      cases c <;> first | rfl | cases hc
    exact .append (terminates_settle hs) (.append hbegan ih)
  | repeats _ hs _ ih => exact .append (terminates_settle hs) (.append rfl (.append rfl ih))

theorem closes_tick (q : Queue) (m : Moment) (n : Nat) (s : Stage ω) :
    Closes (q.tick m n s).events := by
  obtain ⟨t, ht, htick⟩ := runs_tick q m n s
  have hentered : (List.replicate q.loops.length .entered).any Event.terminates = false := by
    simp [List.any_replicate, Event.terminates]
  rw [htick]
  exact .append hentered (closes_runs ht)

end Queue

/-! ### Stories -/

/-- All that is told of some turns. -/
def Turn.trace (ts : List Turn) : List Event := ts.flatMap (·.events)

theorem Turn.effects_eq (ts : List Turn) : Turn.effects ts = effectsOf (Turn.trace ts) := by
  induction ts with
  | nil => rfl
  | cons t ts ih => simp [effects, trace] at ih ⊢; exact ih

namespace Instance

/-- A story that is terminated in a turn has no other turn after it. -/
theorem closes_runAll (t : Template) (b : Beat) (steps : Nat) (seen : List Runner) (Q : Waitlist)
    (s : Stage ω) (todo : List Runner) : Closes (Turn.trace (runAll t b steps seen Q s todo).turns) := by
  have hturn (steps : Nat) (Q : Waitlist) (s : Stage ω) (r : Runner) :
      Closes (takeTurn t b steps Q s r).turn.events := r.queue.closes_tick _ steps s
  fun_induction runAll t b steps seen Q s todo with
  | case1 => exact .inl rfl
  | case2 _ _ _ _ _ _ _ ih => exact ih
  | case3 steps seen Q s r => simpa [Turn.trace] using hturn steps Q s r
  | case4 steps seen Q s r todo hpaused shift hgoes =>
    rename_i ih
    have hnone : shift.turn.events.any Event.terminates = false := by
      rw [← (hturn steps Q s r).any_effectsOf]
      simpa [endsStory] using hgoes
    exact .append hnone ih

theorem closes_account (i : Instance) (b : Beat) (steps : Nat) (w : ω) :
    Closes (Turn.trace (i.account b steps w).turns) := by
  unfold account
  split
  · exact .inl rfl
  · exact closes_runAll _ _ _ _ _ _ _

/-- What is so of a tick of a story in which it is terminated. -/
structure Final (i : Instance) (b : Beat) (steps : Nat) (w : ω) : Prop where
  /-- The command that terminates the story is the last that is begun and run in the tick, and the
  memory of the story and the world are left as they were found by it. -/
  last : ∃ before k, before.any Event.terminates = false ∧
    Turn.trace (i.account b steps w).turns = before ++ closing k ∧
    (⟨(i.account b steps w).inst.scope, (i.account b steps w).world⟩ : Stage ω) =
      (⟨(i.deliverPosted b.now).1.scope, w⟩ : Stage ω).replayAll (effectsOf before)
  /-- No handler of the story is left, and no message waits. -/
  emptied : (i.account b steps w).inst.isFinished = true ∧ (i.account b steps w).inst.runners = [] ∧
    (i.account b steps w).inst.queued = ∅
  /-- Whatever is done with the story later, its memory is as it was, nothing is run in its ticks, and
  all messages are lost on it. -/
  stays : ∀ ops : List (Operation ω), let j := ((i.account b steps w).inst.run ops).1
    j.scope = (i.account b steps w).inst.scope ∧
      (∀ b steps (w : ω), j.account b steps w = ⟨j, w, [], []⟩) ∧ ∀ m now, j.deliver m now = j

theorem perform_of_terminated {i : Instance} (hover : i.terminated = true) (o : Operation ω) :
    (i.perform o).1.terminated = true ∧ (i.perform o).1.scope = i.scope := by
  cases o with
  | deliver m now => simp [perform, deliver_of_terminated hover, hover]
  | post | pause => exact ⟨hover, rfl⟩
  | tick b steps w => simp [perform, account_of_terminated hover, hover]

theorem run_of_terminated {i : Instance} (hover : i.terminated = true) (ops : List (Operation ω)) :
    (i.run ops).1.terminated = true ∧ (i.run ops).1.scope = i.scope := by
  induction ops generalizing i with
  | nil => exact ⟨hover, rfl⟩
  | cons o ops ih =>
    obtain ⟨hnext, hscope⟩ := perform_of_terminated hover o
    obtain ⟨hlast, hscopes⟩ := ih hnext
    exact ⟨hlast, hscopes.trans hscope⟩

/-- A story is terminated after a tick if and only if it was so before, or a command of the tick did
it. -/
theorem terminated_account (i : Instance) (b : Beat) (steps : Nat) (w : ω) :
    (i.account b steps w).inst.terminated =
      (i.terminated || (Turn.trace (i.account b steps w).turns).any Event.terminates) := by
  have hseen := (i.closes_account b steps w).any_effectsOf
  rw [← Turn.effects_eq] at hseen
  rw [← hseen]
  unfold account
  split
  · simp [Turn.effects]
  · next hidle =>
    obtain ⟨hlive, -⟩ : i.terminated = false ∧ i.paused = false := by simpa using hidle
    dsimp only
    rw [terminated_settle _ _ ((terminated_deliverPosted i b.now).trans hlive), hlive, Bool.false_or]

theorem stage_account {i : Instance} (hidle : ¬ (i.terminated || i.paused) = true) (b : Beat)
    (steps : Nat) (w : ω) :
    (⟨(i.account b steps w).inst.scope, (i.account b steps w).world⟩ : Stage ω) =
      (⟨(i.deliverPosted b.now).1.scope, w⟩ : Stage ω).replayAll
        (Turn.effects (i.account b steps w).turns) := by
  unfold account
  rw [if_neg hidle]
  dsimp only
  rw [scope_settle]
  exact replay_runAll _ _ _ _ _ _ _

theorem final_account {i : Instance} {b : Beat} {steps : Nat} {w : ω}
    (h : (Turn.trace (i.account b steps w).turns).any Event.terminates = true) : i.Final b steps w := by
  have hidle : ¬ (i.terminated || i.paused) = true := by
    intro hidle
    rw [account, if_pos hidle] at h
    cases h
  obtain ⟨hlive, -⟩ : i.terminated = false ∧ i.paused = false := by simpa using hidle
  have hover : (i.account b steps w).inst.terminated = true := by
    rw [terminated_account, h, Bool.or_true]
  refine ⟨?_, ⟨by simp [isFinished, hover], emptied_account hlive b steps w hover⟩, fun ops => ?_⟩
  · rcases i.closes_account b steps w with hnone | ⟨before, k, hbefore, htrace⟩
    · rw [hnone] at h
      cases h
    · refine ⟨before, k, hbefore, htrace, ?_⟩
      rw [stage_account hidle, Turn.effects_eq, htrace, effectsOf_append, effectsOf_closing,
        Stage.replayAll_append]
      rfl
  · obtain ⟨hlast, hscope⟩ := run_of_terminated hover ops
    exact ⟨hscope, fun b steps w => account_of_terminated hlast b steps w,
      fun m now => deliver_of_terminated hlast m now⟩

end Instance
end

/-! ### All stories -/

namespace Host

theorem ids_of_terminates {η : Type} [HostFunctions η] {h : Host η} (hr : h.Reached) (now delta : Int)
    {story : Nat × List Turn} (hstory : story ∈ ((h.asOf now).tick delta).2.turns)
    (hends : (Turn.trace story.2).any Event.terminates = true) {h' : Host η}
    (hl : Leads ((h.asOf now).tick delta).1 h') : story.1 ∉ h'.instances.map (·.id) := by
  have ho := hr.orderly.asOf now
  rw [turns_tick] at hstory
  obtain ⟨p, hp, rfl⟩ := List.mem_map.1 hstory
  obtain ⟨hover, -, -⟩ := (Instance.final_account hends).emptied
  have hran : (p.1.account ((h.asOf now).beat delta) (h.asOf now).opened.steps p.2).inst ∈
      (h.asOf now).ran delta := by
    rw [ran_eq]
    exact List.mem_map_of_mem hp
  have hborn : p.1.id < ((h.asOf now).tick delta).1.nextId := ho.opened.below _ (mem_opened hp)
  intro hfound
  obtain ⟨i', hi', hid⟩ := List.mem_map.1 hfound
  -- What is found later under the id came of a story that was there after the tick, which can only be
  -- the one that was terminated.
  obtain ⟨i, hi, hremains⟩ := hl.succeeds.remains i' hi' (by rw [hid]; exact hborn)
  rw [instances_tick] at hi
  obtain ⟨hleft, hlives⟩ := List.mem_filter.1 hi
  have hkept := (p.1.remains_account ((h.asOf now).beat delta) (h.asOf now).opened.steps p.2).id
  have hsame := Instance.eq_of_id (ho.ascending_ran delta) hleft hran
    ((hremains.id.symm.trans hid).trans hkept.symm)
  rw [hsame, hover] at hlives
  cases hlives

/-- A command that terminates a story is the last that is run in it, and the story stays as it was
left. Its host lets it go at the end of the tick, and nothing is found under its id from then on. -/
theorem terminate_final {ω η : Type} [World ω] [HostFunctions η] :
    (∀ (i : Instance) (b : Instance.Beat) (steps : Nat) (w : ω),
      (Turn.trace (i.account b steps w).turns).any Event.terminates = true → i.Final b steps w) ∧
    ∀ h : Host η, h.Reached → ∀ now delta, ∀ story ∈ ((h.asOf now).tick delta).2.turns,
      (Turn.trace story.2).any Event.terminates = true →
        ∀ h', Leads ((h.asOf now).tick delta).1 h' → story.1 ∉ h'.instances.map (·.id) :=
  ⟨fun _ _ _ _ hends => Instance.final_account hends,
    fun _ hr now delta _ hstory hends _ hl => ids_of_terminates hr now delta hstory hends hl⟩

/-- A story that sounds until a message puts an end to it, from inside of two repetitions. -/
def siren : Template :=
  ⟨"siren", true, ((∅ : Table (List Command)).insert "start" [.wait (Operand.literal (.int 90))]).insert
    "quiet" [.repeat (.times (Operand.literal (.int 2)))
      [.repeat (.times (Operand.literal (.int 2))) [.act .terminate],
        .act (.log [Operand.literal (.text "still")])]]⟩

/-- A host in which the siren sounds. -/
def sounding : Host NoFunctions :=
  ({ library := (∅ : Library).insert "siren" siren, functions := ⟨⟩ } : Host NoFunctions).obey
    (.start "siren")

/-- A host in which the siren is to be quiet, and is told so twice. -/
def hushed : Host NoFunctions :=
  (((sounding.asOf 0).obey (.send "quiet" [] false)).asOf 0).obey (.send "quiet" [] false)

theorem reached_hushed : hushed.Reached := by
  have hbuilt : Library.Built ((∅ : Library).insert "siren" siren) :=
    .add siren .empty (by simp [Library.add, siren, Table.contains])
  exact .call (.call (.call (.new _ hbuilt _ 0 _ defaultSteps) 0 _) 0 _) 0 _

/-- A handler of the siren is at work, the one that puts an end to it comes next, and a message waits.
The tick ends with its command, and the siren is not there from then on. -/
theorem terminate_final_hushed :
    ∃ i ∈ hushed.opened.instances, i.runners.length = 2 ∧ i.queued.size = 1 ∧
      i.Final (hushed.beat 10) hushed.steps hushed.scene ∧
      1 ∉ (((hushed.asOf 0).tick 10).1.obey (.send "start" [] false)).instances.map (·.id) := by
  have hone : hushed.opened.instances.any (fun i => i.runners.length = 2 && i.queued.size = 1 &&
      (Turn.trace (i.account (hushed.beat 10) hushed.steps hushed.scene).turns).any
        Event.terminates) = true := by decide +kernel
  obtain ⟨i, hi, hone⟩ := List.any_eq_true.1 hone
  obtain ⟨⟨htwo, hwaits⟩, hends⟩ : (i.runners.length = 2 ∧ i.queued.size = 1) ∧
      (Turn.trace (i.account (hushed.beat 10) hushed.steps hushed.scene).turns).any
        Event.terminates = true := by
    simpa only [Bool.and_eq_true, decide_eq_true_eq] using hone
  have htold : ((hushed.asOf 0).tick 10).2.turns.any (fun story => story.1 = 1 &&
      (Turn.trace story.2).any Event.terminates) = true := by decide +kernel
  obtain ⟨story, hstory, htold⟩ := List.any_eq_true.1 htold
  obtain ⟨hid, hstops⟩ : story.1 = 1 ∧ (Turn.trace story.2).any Event.terminates = true := by
    simpa only [Bool.and_eq_true, decide_eq_true_eq] using htold
  obtain ⟨hfinal, hgone⟩ := terminate_final (ω := Surroundings NoFunctions) (η := NoFunctions)
  have hnever := hgone hushed reached_hushed 0 10 story hstory hstops _
    (.call .refl 0 (.send "start" [] false))
  rw [hid] at hnever
  exact ⟨i, hi, htwo, hwaits, hfinal i _ _ _ hends, hnever⟩

end Host
end StoryScript
