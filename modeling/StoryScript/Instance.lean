import StoryScript.Queue
import StoryScript.Template

/-! Running stories. A message that comes to a running story is answered by a handler; a message
that comes while its handler is busy waits behind it, unless it is concurrent. A story that was
terminated does nothing any more. -/
namespace StoryScript

structure Message where
  id : String
  args : List Value
  concurrent : Bool := false

/-- A handler at work: the message that it answers, and its commands. -/
structure Runner where
  message : Message
  queue : Queue

/-- The messages that wait for their handlers, by their ids, the first to come in front. -/
abbrev Waitlist := Table (List Message)

namespace Waitlist

def size (w : Waitlist) : Nat := w.total List.length

def of (w : Waitlist) (id : String) : List Message := (w.find? id).getD []

/-- Puts a message behind those of its id. -/
def push (w : Waitlist) (m : Message) : Waitlist := w.insert m.id (w.of m.id ++ [m])

/-- Takes out the first message of an id. -/
def pop? (w : Waitlist) (id : String) : Option (Message × Waitlist) :=
  match w.find? id with
  | some (m :: r) => some (m, w.insert id r)
  | _ => none

@[simp] theorem of_empty (id : String) : (∅ : Waitlist).of id = [] := rfl

theorem of_push (w : Waitlist) (m : Message) (id : String) :
    (w.push m).of id = if id = m.id then w.of id ++ [m] else w.of id := by
  simp only [of, push, Table.find?_insert]
  split
  · next h => simp [h]
  · rfl

theorem of_of_pop? {w w' : Waitlist} {id : String} {m : Message} (h : w.pop? id = some (m, w'))
    (j : String) : w.of j = if j = id then m :: w'.of j else w'.of j := by
  simp only [pop?] at h
  split at h
  · next r hf =>
    obtain ⟨rfl, rfl⟩ := Prod.mk.inj (Option.some.inj h)
    simp only [of, Table.find?_insert]
    split
    · next hj => simp [hj, hf]
    · rfl
  · cases h

theorem pop?_eq_none {w : Waitlist} {id : String} (h : w.pop? id = none) : w.of id = [] := by
  simp only [pop?] at h
  split at h
  · cases h
  · next hf =>
    cases hw : w.find? id with
    | none => simp [of, hw]
    | some l =>
      cases l with
      | nil => simp [of, hw]
      | cons m r => exact absurd hw (hf m r)

theorem size_of_pop? {w w' : Waitlist} {id : String} {m : Message} (h : w.pop? id = some (m, w')) :
    w'.size + 1 = w.size := by
  simp only [pop?] at h
  split at h
  · next r hf =>
    obtain ⟨rfl, rfl⟩ := Prod.mk.inj (Option.some.inj h)
    have := Table.total_insert List.length r hf
    simp only [List.length_cons] at this
    simp only [size]
    omega
  · cases h

end Waitlist

structure Instance where
  id : Nat
  template : Template
  scope : Scope := ∅
  runners : List Runner := []
  queued : Waitlist := ∅
  posted : List Message := []
  paused : Bool := false
  terminated : Bool := false

/-- The turn of a handler in a tick: the message that it answers, the moment it was given, what
happened, and whether it was over then. `next` is the message whose handler took its place. -/
structure Turn where
  message : Message
  moment : Moment
  events : List Event
  ended : Bool
  next : Option Message

namespace Turn

def effects (ts : List Turn) : List Effect := ts.flatMap fun t => effectsOf t.events

end Turn

namespace Instance

def storyId (i : Instance) : String := i.template.storyId

def isBusy (i : Instance) (message : String) : Bool := i.runners.any (·.message.id = message)

/-- How many handlers of a message are at work or wait to be. -/
def handlerCount (i : Instance) (message : String) : Nat :=
  (i.runners.filter (·.message.id = message)).length + (i.queued.of message).length

def isIdle (i : Instance) : Bool := i.runners.isEmpty && i.posted.isEmpty && i.queued.size = 0

/-- Whether a story is over: terminated, or idle and not persistent. -/
def isFinished (i : Instance) : Bool := i.terminated || (!i.template.persistent && i.isIdle)

def terminate (i : Instance) : Instance := { i with terminated := true }

/-- Posts a message, which comes at the next tick of the story. -/
def post (i : Instance) (m : Message) : Instance := { i with posted := i.posted ++ [m] }

/-- A handler that is about to begin, if there is one for the message. -/
def activate? (t : Template) (m : Message) : Option Runner :=
  (t.handler? m.id).map fun block => ⟨m, .ofBlock block⟩

/-- What becomes of a message that comes to a story. It is lost on a story that was terminated, and
not answered where there is no handler for it. -/
inductive Fate where
  | lost
  | unanswered
  | waits
  | begins (r : Runner)

/-- A message that came to a story, and what became of it. -/
structure Arrival where
  message : Message
  fate : Fate

/-- What becomes of a message if it comes now. -/
def fate (i : Instance) (m : Message) : Fate :=
  if i.terminated then .lost
  else
    match activate? i.template m with
    | none => .unanswered
    | some r => if i.isBusy m.id && !m.concurrent then .waits else .begins r

def note (i : Instance) (m : Message) (now : Int) : Instance :=
  { i with scope := i.scope.trigger m.id now }

def take (i : Instance) (m : Message) (now : Int) : Fate → Instance
  | .lost => i
  | .unanswered => i.note m now
  | .waits => { i.note m now with queued := i.queued.push m }
  | .begins r => { i.note m now with runners := i.runners ++ [r] }

def deliver (i : Instance) (m : Message) (now : Int) : Instance := i.take m now (i.fate m)

/-- Delivers messages one after another, and tells what became of them. -/
def deliverAll (now : Int) (i : Instance) : List Message → Instance × List Arrival
  | [] => (i, [])
  | m :: r =>
    let (i', arrivals) := deliverAll now (i.deliver m now) r
    (i', ⟨m, i.fate m⟩ :: arrivals)

def deliverPosted (i : Instance) (now : Int) : Instance × List Arrival :=
  deliverAll now { i with posted := [] } i.posted

/-! ### Ticks -/

/-- What is the same for all handlers in a tick: the time, the time since the last tick, and the
messages whose handlers are paused. -/
structure Beat where
  now : Int
  delta : Int
  paused : List String

def Beat.moment (b : Beat) (m : Message) : Moment := ⟨b.now, b.delta, .absent, m.args⟩

def endsStory (es : List Event) : Bool := (effectsOf es).any Effect.terminates

/-- Takes out the first message that waits for a handler, and activates the handler for it. -/
def release (t : Template) (queued : Waitlist) (id : String) : Option Runner × Waitlist :=
  match queued.pop? id with
  | some (m, queued) => (activate? t m, queued)
  | none => (none, queued)

theorem size_release (t : Template) (queued : Waitlist) (id : String) :
    (release t queued id).1.toList.length + (release t queued id).2.size ≤ queued.size := by
  have hl (o : Option Runner) : o.toList.length ≤ 1 := by cases o <;> simp
  unfold release
  split
  · next m queued' h =>
    have hs := Waitlist.size_of_pop? h
    have := hl (activate? t m)
    dsimp only
    omega
  · simp

/-- What the turn of a handler leads to: the handler if it stays, the one that takes its place, the
messages that still wait, and how the tick goes on. -/
structure Shift (ω : Type) where
  turn : Turn
  stays : Option Runner
  follows : Option Runner
  queued : Waitlist
  steps : Nat
  stage : Stage ω

/-- Gives a handler its turn. One that is over makes way for the next message that waits for it. -/
def takeTurn {ω : Type} [World ω] (t : Template) (b : Beat) (steps : Nat) (queued : Waitlist)
    (s : Stage ω) (r : Runner) : Shift ω :=
  let moment := b.moment r.message
  let tick := r.queue.tick moment steps s
  let ended := tick.queue.isEmpty
  let (follows, queued) := if ended then release t queued r.message.id else (none, queued)
  { turn := ⟨r.message, moment, tick.events, ended, follows.map (·.message)⟩
    stays := if ended then none else some { r with queue := tick.queue }
    follows, queued
    steps := tick.steps
    stage := tick.stage }

theorem size_takeTurn {ω : Type} [World ω] (t : Template) (b : Beat) (steps : Nat)
    (queued : Waitlist) (s : Stage ω) (r : Runner) :
    (takeTurn t b steps queued s r).follows.toList.length +
      (takeTurn t b steps queued s r).queued.size ≤ queued.size := by
  simp only [takeTurn]
  split
  · exact size_release t queued r.message.id
  · simp

/-- What the handlers of a story have come to in a tick. -/
structure Round (ω : Type) where
  runners : List Runner
  queued : Waitlist
  stage : Stage ω
  turns : List Turn

def Round.after {ω : Type} (t : Turn) (r : Round ω) : Round ω := { r with turns := t :: r.turns }

/-- Gives handlers their turns one after another, but for those that are paused, with the steps that
are left over by those before. A handler that takes the place of another comes last. A handler that
terminates the story is the last to run. `seen` are the handlers that have had their turn and are
not over. -/
def runAll {ω : Type} [World ω] (t : Template) (b : Beat) (steps : Nat) (seen : List Runner)
    (queued : Waitlist) (s : Stage ω) : List Runner → Round ω
  | [] => ⟨seen, queued, s, []⟩
  | r :: todo =>
    if b.paused.contains r.message.id then runAll t b steps (seen ++ [r]) queued s todo
    else
      let shift := takeTurn t b steps queued s r
      if endsStory shift.turn.events then ⟨[], ∅, shift.stage, [shift.turn]⟩
      else
        .after shift.turn <| runAll t b shift.steps (seen ++ shift.stays.toList) shift.queued
          shift.stage (todo ++ shift.follows.toList)
termination_by todo => todo.length + queued.size
decreasing_by
  · simp
  · have := size_takeTurn t b steps queued s r
    simp only [List.length_append, List.length_cons]
    omega

def postsOf (ts : List Turn) : List Message :=
  (Turn.effects ts).filterMap fun e => e.post?.map fun p => ⟨p.1, p.2, false⟩

/-- What a tick of a story comes to: the story and the world as they are left, what became of the
messages that were posted, and the turns of the handlers. -/
structure Account (ω : Type) where
  inst : Instance
  world : ω
  arrivals : List Arrival
  turns : List Turn

/-- The story as its handlers leave it. What they posted comes at the next tick. -/
def settle {ω : Type} (i : Instance) (r : Round ω) : Instance :=
  let i := { i with runners := r.runners, queued := r.queued, scope := r.stage.scope }
  if (Turn.effects r.turns).any Effect.terminates then i.terminate
  else { i with posted := postsOf r.turns }

/-- One tick of a story: the messages that were posted come, and then the handlers run. -/
def account {ω : Type} [World ω] (i : Instance) (b : Beat) (steps : Nat) (w : ω) : Account ω :=
  if i.terminated || i.paused then ⟨i, w, [], []⟩
  else
    let (i, arrivals) := i.deliverPosted b.now
    let r := runAll i.template b steps [] i.queued ⟨i.scope, w⟩ i.runners
    ⟨i.settle r, r.stage.world, arrivals, r.turns⟩

/-- One tick of a story, without what became of the messages that were posted. -/
def tick {ω : Type} [World ω] (i : Instance) (b : Beat) (steps : Nat) (w : ω) :
    Instance × ω × List Turn :=
  let a := i.account b steps w
  (a.inst, a.world, a.turns)

end Instance
end StoryScript
