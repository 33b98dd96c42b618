import StoryScript.Board
import StoryScript.Proofs.Course
import StoryScript.Proofs.Tick

/-! Ticks only divide a run. Whatever their lengths, their times and their budgets, the ticks of a
block that never waits for something to happen make it come to the same in the end. -/
namespace StoryScript
open Command (blockCourse)

/-! ### Blocks that wait for nothing but time -/

mutual
/-- Whether a command, or one in the bodies that it repeats, waits until something has happened. -/
def Command.awaits : Command → Bool
  | .act _ | .wait _ => false
  | .await _ => true
  | .repeat _ body => anyAwaits body

def Command.anyAwaits : List Command → Bool
  | [] => false
  | c :: r => c.awaits || anyAwaits r
end

open Command (anyAwaits)

@[simp] theorem Command.anyAwaits_cons {c : Command} {r : List Command} :
    anyAwaits (c :: r) = false ↔ c.awaits = false ∧ anyAwaits r = false := by
  simp [anyAwaits]

/-- A repetition under way in which nothing waits but for time. -/
structure Loop.Timed (l : Loop) : Prop where
  rest : anyAwaits l.rest = false
  body : anyAwaits l.body = false

/-- A block under way in which nothing waits but for time. -/
structure Queue.Timed (q : Queue) : Prop where
  rest : anyAwaits q.rest = false
  loops : ∀ l ∈ q.loops, l.Timed
  waiting : ∀ w ∈ q.waiting, w.command.awaits = false

namespace Queue

theorem timed_mk {rest : List Command} {ls : List Loop} {d : Bool} (hr : anyAwaits rest = false)
    (hl : ∀ l ∈ ls, l.Timed) : (⟨rest, ls, none, d⟩ : Queue).Timed :=
  ⟨hr, hl, by simp⟩

theorem timed_ofBlock {cs : List Command} (h : anyAwaits cs = false) : (ofBlock cs).Timed :=
  timed_mk h (by simp)

def Next.Timed : Next → Prop
  | .nothing => True
  | .command c q => c.awaits = false ∧ q.Timed
  | .round _ q => q.Timed

theorem timed_settle {rest : List Command} {ls : List Loop} (hr : anyAwaits rest = false)
    (hl : ∀ l ∈ ls, l.Timed) : (settle rest ls).2.1.Timed ∧ (settle rest ls).2.2.Timed := by
  induction ls with
  | nil =>
    cases rest with
    | nil => exact ⟨timed_mk hr hl, trivial⟩
    | cons c r =>
      obtain ⟨hc, hr'⟩ := Command.anyAwaits_cons.1 hr
      exact ⟨timed_mk hr hl, hc, timed_mk hr' hl⟩
  | cons l ls ih =>
    obtain ⟨⟨hrest, hbody⟩, hls⟩ := List.forall_mem_cons.1 hl
    simp only [settle]
    split
    · next c r hcr =>
      rw [hcr] at hrest
      obtain ⟨hc, hr'⟩ := Command.anyAwaits_cons.1 hrest
      exact ⟨timed_mk hr hl, hc, timed_mk hr (List.forall_mem_cons.2 ⟨⟨hr', hbody⟩, hls⟩)⟩
    · split
      · exact ⟨timed_mk hr hl, timed_mk hr (List.forall_mem_cons.2 ⟨⟨hbody, hbody⟩, hls⟩)⟩
      · exact ih hls

/-! ### What a block has yet to come to -/

section
variable {ω : Type} [World ω] (args : List Value) (iterator : Value)

def Next.course : Next → Course ω
  | .nothing => .idle
  | .command c q => (c.course args (q.item iterator)).andThen (q.course args iterator)
  | .round _ q => q.course args iterator

theorem course_settle (rest : List Command) (ls : List Loop) (w : Option Waiting) (d : Bool) :
    (⟨rest, ls, w, d⟩ : Queue).course (ω := ω) args iterator =
        (settle rest ls).2.1.course args iterator ∧
      (settle rest ls).2.2.course (ω := ω) args iterator =
        (settle rest ls).2.1.course args iterator := by
  induction ls with
  | nil => cases rest <;> exact ⟨rfl, rfl⟩
  | cons l ls ih =>
    simp only [settle]
    split
    · next c r hcr =>
      refine ⟨rfl, ?_⟩
      simp [Next.course, course, Course.all, Loop.course, item, hcr, blockCourse,
        Course.andThen_assoc]
    · next hr =>
      split
      · next v left hn =>
        refine ⟨rfl, ?_⟩
        simp [Next.course, course, Course.all, Loop.course, hr, blockCourse,
          Items.toList_of_next?_eq_some hn, Course.andThen_assoc]
      · next hn =>
        obtain ⟨h₁, h₂⟩ := ih
        refine ⟨?_, h₂⟩
        rw [← h₁]
        simp [course, Course.all, Loop.course, hr, blockCourse,
          Items.toList_of_next?_eq_none hn]

theorem effectsOf_settle (rest : List Command) (ls : List Loop) :
    effectsOf (settle rest ls).1 = [] := by
  induction ls with
  | nil => cases rest <;> rfl
  | cons l ls ih =>
    simp only [settle]
    split
    · rfl
    · split
      · rfl
      · simpa using ih

end
end Queue

/-! ### Outcomes -/

/-- Whether an effect only tells that a tick has run out of steps. -/
def Effect.isSpent : Effect → Bool
  | warned (.stepsSpent _) => true
  | _ => false

/-- The effects but for the warnings of ticks that have run out of steps. -/
def essential (fx : List Effect) : List Effect := fx.filter (!·.isSpent)

@[simp] theorem essential_append (fx gx : List Effect) :
    essential (fx ++ gx) = essential fx ++ essential gx := List.filter_append ..

section
variable {ω : Type}

def Course.outcome (f : Course ω) (s : Stage ω) : Stage ω × List Effect :=
  ((f s).1, essential (f s).2)

/-- What a tick comes to when it is followed by a course. -/
def Tick.outcome (t : Tick ω) (f : Course ω) : Stage ω × List Effect :=
  ((f t.stage).1, essential (effectsOf t.events) ++ essential (f t.stage).2)

theorem Tick.outcome_after (es : List Event) (t : Tick ω) (f : Course ω) :
    (t.after es).outcome f = ((t.outcome f).1, essential (effectsOf es) ++ (t.outcome f).2) := by
  simp [outcome]

theorem Course.outcome_andThen (f g : Course ω) (s : Stage ω) :
    (f.andThen g).outcome s =
      ((g.outcome (f s).1).1, essential (f s).2 ++ (g.outcome (f s).1).2) := by
  simp [outcome, andThen]

theorem effectsOf_ran (fx : List Effect) (b : Bool) :
    effectsOf (.entered :: fx.map .effect ++ [.left b]) = fx := by
  simp

end

namespace Queue
variable {ω : Type} [World ω]

omit [World ω] in
theorem outcome_suspend (q : Queue) (n : Nat) (s : Stage ω) (f : Course ω) :
    (q.suspend n s).outcome f = f.outcome s := by
  simp [Tick.outcome, Course.outcome, essential]

/-- Where a block stands once the repetitions that are over have been taken off. -/
theorem settled {m : Moment} {q q' : Queue} {es : List Event} {next : Next} (hq : q.Timed)
    (hs : settle q.rest q.loops = (es, q', next)) :
    q'.Timed ∧ next.Timed ∧
      q'.course (ω := ω) m.args m.iterator = q.course m.args m.iterator ∧
      next.course (ω := ω) m.args m.iterator = q.course m.args m.iterator ∧
      ∀ (t : Tick ω) (f : Course ω), (t.after es).outcome f = t.outcome f := by
  have ht := timed_settle hq.rest hq.loops
  obtain ⟨h₁, h₂⟩ := course_settle (ω := ω) m.args m.iterator q.rest q.loops q.waiting q.deferred
  have he := effectsOf_settle q.rest q.loops
  rw [hs] at ht h₁ h₂ he
  refine ⟨ht.1, ht.2, h₁.symm, h₂.trans h₁.symm, fun t f => ?_⟩
  rw [Tick.outcome_after, he]
  rfl

/-- A repetition that has begun has yet to come to what its command comes to. -/
theorem course_repeat (q : Queue) (m : Moment) (s : Stage ω) (range : Range Operand)
    (body : List Command) :
    { q with loops := .ofRange range body (q.read m s) :: q.loops }.course m.args m.iterator s =
      (((Command.repeat range body).course m.args (q.item m.iterator)).andThen
        (q.course m.args m.iterator)) s := by
  have hl : (Loop.ofRange range body (q.read m s)).course (ω := ω) m.args =
      .all ((range.map (q.read m s)).items.toList.map fun v => blockCourse m.args v body) := rfl
  simp only [course, List.map_cons, Course.all, Course.andThen_assoc, hl]
  rfl

theorem run_of_not_awaits {w w' : Waiting} {now delta : Int} {read : Operand → Value} {p : Bool}
    {s s' : Stage ω} {fx : List Effect} (hw : w.command.awaits = false)
    (h : w.run now delta read s = (p, w', s', fx)) :
    s' = s ∧ fx = [] ∧ w'.command = w.command ∧ w.command.chains = false := by
  cases w with
  | time limit elapsed =>
    simp only [Waiting.run, Prod.mk.injEq] at h
    obtain ⟨-, rfl, rfl, rfl⟩ := h
    exact ⟨rfl, rfl, rfl, rfl⟩
  | goal wait watch => cases hw

/-- The rest of a tick, followed by what the block has yet to come to after it, comes to what the
block had yet to come to before. -/
theorem outcome_runs {m : Moment} {n : Nat} {q : Queue} {s : Stage ω} {t : Tick ω}
    (h : Runs m n q s t) (hq : q.Timed) :
    t.queue.Timed ∧
      t.outcome (t.queue.course m.args m.iterator) =
        (q.course m.args m.iterator).outcome s := by
  induction h with
  | @pending n q s s' w w' fx hw hr =>
    obtain ⟨rfl, rfl, hw', -⟩ := run_of_not_awaits (hq.waiting w hw) hr
    refine ⟨⟨hq.rest, hq.loops, ?_⟩, ?_⟩
    · rintro _ ⟨⟩
      rw [hw']
      exact hq.waiting w hw
    · rw [Tick.outcome_after, effectsOf_ran, Tick.queue_after, outcome_suspend]
      rfl
  | @stops n q s s' w w' fx hw hr hc =>
    obtain ⟨rfl, rfl, -, -⟩ := run_of_not_awaits (hq.waiting w hw) hr
    refine ⟨timed_mk hq.rest hq.loops, ?_⟩
    rw [Tick.outcome_after, effectsOf_ran, Tick.queue_after, outcome_suspend]
    rfl
  | @met n q s s' w w' fx t hw hr hc ht ih =>
    obtain ⟨-, -, -, hc'⟩ := run_of_not_awaits (hq.waiting w hw) hr
    rw [hc] at hc'
    cases hc'
  | @done n q q' s es hw hs =>
    obtain ⟨hq', -, hc, -, he⟩ := settled (ω := ω) (m := m) hq hs
    rw [Tick.queue_after, he, outcome_suspend]
    exact ⟨hq', by rw [← hc]; rfl⟩
  | @spentCommand q q' q'' s es c hw hs =>
    obtain ⟨hq', -, hc, -, he⟩ := settled (ω := ω) (m := m) hq hs
    rw [Tick.queue_after, he, Tick.queue_after, Tick.outcome_after, outcome_suspend]
    exact ⟨hq', by rw [← hc]; rfl⟩
  | @spentRound q q' q'' s es v hw hs =>
    obtain ⟨hq', -, hc, -, he⟩ := settled (ω := ω) (m := m) hq hs
    rw [Tick.queue_after, he, outcome_suspend]
    exact ⟨hq', by rw [← hc]; rfl⟩
  | @round n q q' q'' s es v t hw hs ht ih =>
    obtain ⟨-, hq'', -, hc, he⟩ := settled (ω := ω) (m := m) hq hs
    obtain ⟨hqt, ho⟩ := ih hq''
    rw [Tick.queue_after, he, Tick.queue_after, Tick.outcome_after, ho, ← hc]
    exact ⟨hqt, rfl⟩
  | @acts n q q' q'' s s' es a fx t hw hs hr hc ht ih =>
    obtain ⟨-, ⟨-, hq''⟩, -, hn, he⟩ := settled (ω := ω) (m := m) hq hs
    obtain ⟨hqt, ho⟩ := ih hq''
    rw [Tick.queue_after, he, Tick.queue_after, Tick.queue_after, Tick.outcome_after,
      Tick.outcome_after, effectsOf_ran, ho, ← hn, Next.course, Course.outcome_andThen]
    refine ⟨hqt, ?_⟩
    rw [show (Command.act a).course m.args (q''.item m.iterator) s = (s', fx) from hr]
    rfl
  | @ends n q q' q'' s s' es a fx hw hs hr hc =>
    obtain ⟨-, ⟨-, hq''⟩, -, hn, he⟩ := settled (ω := ω) (m := m) hq hs
    rw [Tick.queue_after, he, Tick.queue_after, Tick.queue_after, Tick.outcome_after,
      Tick.outcome_after, effectsOf_ran, outcome_suspend, ← hn, Next.course,
      Course.outcome_andThen]
    refine ⟨⟨hq''.rest, hq''.loops, hq''.waiting⟩, ?_⟩
    rw [show (Command.act a).course m.args (q''.item m.iterator) s = (s', fx) from hr]
    rfl
  | @waits n q q' q'' s es c w t hw hs hc ht ih =>
    obtain ⟨-, ⟨hc', hq''⟩, -, hn, he⟩ := settled (ω := ω) (m := m) hq hs
    have hw' : w.command.awaits = false := by rw [Command.command_of_waiting? hc, hc']
    obtain ⟨hqt, ho⟩ := ih ⟨hq''.rest, hq''.loops, by rintro _ ⟨⟩; exact hw'⟩
    rw [Tick.queue_after, he, Tick.queue_after, Tick.outcome_after, ho, ← hn]
    refine ⟨hqt, ?_⟩
    cases c <;> cases hc <;> rfl
  | @repeats n q q' q'' s es range body t hw hs ht ih =>
    obtain ⟨-, ⟨hb, hq''⟩, -, hn, he⟩ := settled (ω := ω) (m := m) hq hs
    obtain ⟨hqt, ho⟩ := ih ⟨hq''.rest, List.forall_mem_cons.2 ⟨⟨rfl, hb⟩, hq''.loops⟩,
      hq''.waiting⟩
    rw [Tick.queue_after, he, Tick.queue_after, Tick.queue_after, Tick.outcome_after,
      Tick.outcome_after, ho, ← hn, Next.course, Course.outcome, course_repeat]
    exact ⟨hqt, rfl⟩

/-! ### Schedules -/

/-- A tick of a schedule: the time, the time since the tick before, and the steps to spend. -/
structure Pulse where
  now : Int
  delta : Int
  steps : Nat

/-- What some ticks come to: the block and the stage as they are left, and the effects. -/
structure Stretch (ω : Type) where
  queue : Queue
  stage : Stage ω
  effects : List Effect

/-- Runs a block through the ticks of a schedule. -/
def drive (iterator : Value) (args : List Value) (q : Queue) (s : Stage ω) :
    List Pulse → Stretch ω
  | [] => ⟨q, s, []⟩
  | p :: r =>
    let t := q.tick ⟨p.now, p.delta, iterator, args⟩ p.steps s
    let rest := drive iterator args t.queue t.stage r
    { rest with effects := effectsOf t.events ++ rest.effects }

/-- What some ticks come to when they are followed by a course. -/
def Stretch.outcome (r : Stretch ω) (f : Course ω) : Stage ω × List Effect :=
  ((f r.stage).1, essential r.effects ++ essential (f r.stage).2)

variable (iterator : Value) (args : List Value)

theorem outcome_tick {q : Queue} (hq : q.Timed) (m : Moment) (n : Nat) (s : Stage ω) :
    (q.tick m n s).queue.Timed ∧
      (q.tick m n s).outcome ((q.tick m n s).queue.course m.args m.iterator) =
        (q.course m.args m.iterator).outcome s := by
  obtain ⟨t, hr, ht⟩ := runs_tick q m n s
  obtain ⟨hqt, ho⟩ := outcome_runs hr ⟨hq.rest, hq.loops, hq.waiting⟩
  have he := effectsOf_replicate (e := .entered) rfl q.loops.length
  rw [ht, Tick.queue_after, Tick.outcome_after, he, ho]
  exact ⟨hqt, rfl⟩

/-- Any ticks, followed by what the block has yet to come to after them, come to what the block
comes to when nothing holds it up. -/
theorem outcome_drive {q : Queue} (hq : q.Timed) (s : Stage ω) (ps : List Pulse) :
    (drive iterator args q s ps).outcome
        ((drive iterator args q s ps).queue.course args iterator) =
      (q.course args iterator).outcome s := by
  induction ps generalizing q s with
  | nil => rfl
  | cons p r ih =>
    obtain ⟨hqt, ho⟩ := outcome_tick hq ⟨p.now, p.delta, iterator, args⟩ p.steps s
    have hr := ih hqt (q.tick ⟨p.now, p.delta, iterator, args⟩ p.steps s).stage
    simp only [Stretch.outcome, Course.outcome, Tick.outcome, Prod.mk.injEq] at hr ho ⊢
    obtain ⟨hr₁, hr₂⟩ := hr
    obtain ⟨ho₁, ho₂⟩ := ho
    refine ⟨hr₁.trans ho₁, ?_⟩
    rw [← ho₂, ← hr₂]
    simp [drive]

theorem course_of_isEmpty {q : Queue} (h : q.isEmpty = true) :
    q.course (ω := ω) args iterator = .idle := by
  obtain ⟨rest, loops, w, d⟩ := q
  obtain ⟨rfl, rfl, -⟩ := isEmpty_iff.1 h
  rfl

/-- A schedule that brings a block to its end makes it come to what it comes to when nothing holds
it up. -/
theorem drive_of_isEmpty {block : List Command} (h : anyAwaits block = false) (s : Stage ω)
    {ps : List Pulse} (hps : (drive iterator args (ofBlock block) s ps).queue.isEmpty = true) :
    ((drive iterator args (ofBlock block) s ps).stage,
        essential (drive iterator args (ofBlock block) s ps).effects) =
      (blockCourse args iterator block).outcome s := by
  have hc : (ofBlock block).course (ω := ω) args iterator = blockCourse args iterator block := rfl
  have ho := outcome_drive iterator args (timed_ofBlock h) s ps
  rw [course_of_isEmpty iterator args hps, hc] at ho
  simpa [Stretch.outcome, Course.idle, essential] using ho

/-- Two schedules that both bring a block to its end bring it to the same end: that to which it comes
when nothing holds it up. The same memory and the same world are left, and the same effects have come
in the same order. -/
theorem drive_eq_drive {block : List Command} (h : anyAwaits block = false) (s : Stage ω)
    {ps ps' : List Pulse} (hps : (drive iterator args (ofBlock block) s ps).queue.isEmpty = true)
    (hps' : (drive iterator args (ofBlock block) s ps').queue.isEmpty = true) :
    ((drive iterator args (ofBlock block) s ps).stage,
        essential (drive iterator args (ofBlock block) s ps).effects) =
      (blockCourse args iterator block).outcome s ∧
    (drive iterator args (ofBlock block) s ps).stage =
        (drive iterator args (ofBlock block) s ps').stage ∧
      essential (drive iterator args (ofBlock block) s ps).effects =
        essential (drive iterator args (ofBlock block) s ps').effects := by
  have hone := drive_of_isEmpty iterator args h s hps
  have hother := drive_of_isEmpty iterator args h s hps'
  exact ⟨hone, Prod.mk.inj (hone.trans hother.symm)⟩

/-- A block of two rounds, each of which logs its number and waits, and of an assignment. -/
def countdown : List Command :=
  [.repeat (.times (Operand.literal (.int 2)))
    [.act (.log [some .iterator]), .wait (Operand.literal (.int 5))],
   .act (.assign ⟨Operand.literal (.text "@done"), Operand.literal (.int 1)⟩)]

theorem awaits_countdown : anyAwaits countdown = false := rfl

/-- Three long ticks with steps to spare, and twelve short ticks of a single step. -/
theorem drive_countdown :
    let s : Stage (Surroundings NoFunctions) := ⟨∅, {}, ⟨⟩⟩
    let long := drive .absent [] (ofBlock countdown) s (List.replicate 3 ⟨0, 5, 100⟩)
    let short := drive .absent [] (ofBlock countdown) s (List.replicate 12 ⟨0, 2, 1⟩)
    (long.queue.isEmpty = true ∧ short.queue.isEmpty = true) ∧
      (long.stage, essential long.effects) = (blockCourse [] .absent countdown).outcome s ∧
      long.stage = short.stage ∧ essential long.effects = essential short.effects :=
  ⟨⟨by decide, by decide⟩,
    drive_eq_drive .absent [] awaits_countdown _ (by decide) (by decide)⟩

end Queue
end StoryScript
