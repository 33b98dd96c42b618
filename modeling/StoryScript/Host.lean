import StoryScript.Board
import StoryScript.Library

/-! The host of running stories. It starts stories from a library, sends messages to all of them,
and runs them tick by tick. What the stories ask for in a tick is granted at the beginning of the
next one, in the order in which it was asked for. -/
namespace StoryScript

/-- The message that a story gets when it starts. -/
def startMessage : String := "start"

/-- The number of steps that a story may spend in a tick unless another is given. -/
def defaultSteps : Nat := 10000

/-- A host. Its clock tells the time in milliseconds, and may go on while the host is at work: by the
time at which a story is started, it has moved on by the drift for the id of that story. -/
structure Host (η : Type) where
  library : Library
  functions : η
  clock : Int := 0
  drift : Nat → Int := fun _ => 0
  steps : Nat := defaultSteps
  board : Board := {}
  instances : List Instance := []
  pausedHandlers : List String := []
  nextId : Nat := 1
  ticks : Nat := 0

namespace Host
variable {η : Type}

def advance (h : Host η) (delta : Int) : Host η := { h with clock := h.clock + delta }

def update (h : Host η) (storyId : String) (f : Instance → Instance) : Host η :=
  { h with instances := h.instances.map fun i => if i.storyId = storyId then f i else i }

/-- Starts a story, which gets its first message at once, and gives it an id. The clock is read for
every story by itself. -/
def startStory (h : Host η) (storyId : String) : Except Fault (Nat × Host η) :=
  match h.library.find? storyId with
  | none => .error (.ofCause (.hostStoryMissing storyId))
  | some t =>
    let now := h.clock + h.drift h.nextId
    let i : Instance := { id := h.nextId, template := t }
    let i := i.deliver ⟨startMessage, [], false⟩ now
    .ok (h.nextId,
      { h with clock := now, instances := h.instances ++ [i], nextId := h.nextId + 1 })

def stopStory (h : Host η) (storyId : String) : Host η := h.update storyId Instance.terminate

def ask (h : Host η) (r : Request) : Host η := { h with board := h.board.ask r }

/-- Sends a message to all stories at the next tick. -/
def sendMessage (h : Host η) (message : String) (args : List Value) (concurrent : Bool) : Host η :=
  h.ask (.send message args concurrent)

def storyCount (h : Host η) (storyId : String) : Nat :=
  (h.instances.filter fun i => !i.terminated && i.storyId = storyId).length

/-- How many handlers of a message are at work or wait to be. -/
def handlerCount (h : Host η) (message : String) : Nat :=
  sumOf (·.handlerCount message) (h.instances.filter (!·.terminated))

/-- The variables of the first instance of a story. -/
def variables? (h : Host η) (storyId : String) : Option (Table Value) :=
  (h.instances.find? (·.storyId = storyId)).map (·.scope.vars)

def isIdle (h : Host η) : Bool := h.instances.isEmpty && h.board.requests.isEmpty

/-! ### Ticks -/

/-- Grants a request in a tick that began at some time, and warns if it cannot be granted. -/
def grant (h : Host η) (now : Int) : Request → Host η × List Warning
  | .start id =>
    match h.startStory id with
    | .ok (_, h) => (h, [])
    | .error f => (h, [.startFailed f])
  | .stop id => (h.stopStory id, [])
  | .pause id paused => (h.update id fun i => { i with paused }, [])
  | .pauseHandlers m paused =>
    let others := h.pausedHandlers.filter (· ≠ m)
    ({ h with pausedHandlers := if paused then m :: others else others }, [])
  | .send m args concurrent =>
    ({ h with instances := h.instances.map (·.deliver ⟨m, args, concurrent⟩ now) }, [])

def grantAll (h : Host η) (now : Int) : List Request → Host η × List Warning
  | [] => (h, [])
  | r :: rs =>
    let (h, ws) := h.grant now r
    let (h, ws') := h.grantAll now rs
    (h, ws ++ ws')

/-- Runs instances one after another in one world. -/
def runInstances {ω : Type} [World ω] (b : Instance.Beat) (steps : Nat) (w : ω) :
    List Instance → List Instance × ω × List (Nat × List Turn)
  | [] => ([], w, [])
  | i :: is =>
    let (i', w, turns) := i.tick b steps w
    let (is', w, rest) := runInstances b steps w is
    (i' :: is', w, (i.id, turns) :: rest)

/-- What happened in a tick of a host: requests that could not be granted, and the turns of every
instance. -/
structure Report where
  refused : List Warning
  turns : List (Nat × List Turn)

def Report.effects (r : Report) : List Effect :=
  r.refused.map .warned ++ r.turns.flatMap fun t => Turn.effects t.2

/-- The host after it has granted the requests that were made. -/
def granted (h : Host η) : Host η × List Warning :=
  { h with board := { h.board with requests := [] } }.grantAll h.clock h.board.requests

/-- One tick: requests are granted, the stories run, and those that are over are let go. All of it
but the starting of stories is at the time at which the tick began. -/
def tick [HostFunctions η] (h : Host η) (delta : Int) : Host η × Report :=
  let now := h.clock
  let (h, refused) := { h with ticks := h.ticks + 1 }.granted
  let w : Surroundings η := ⟨h.board.refresh h.instances, h.functions⟩
  let (instances, w, turns) := runInstances ⟨now, delta, h.pausedHandlers⟩ h.steps w h.instances
  ({ h with
      instances := instances.filter (!·.isFinished)
      board := w.board
      functions := w.functions }, ⟨refused, turns⟩)

/-- A host of a library in which some stories have been started. -/
def startAll (h : Host η) : List String → Except Fault (Host η)
  | [] => .ok h
  | id :: r => do
    let (_, h) ← h.startStory id
    h.startAll r

/-- A host of the stories in some files, with those started that are asked for, or else `main`. -/
def ofFiles (voc : Vocabulary) (functions : η) (files : Table String) (asked : List String)
    (clock : Int) (steps : Nat) : Except Fault (Reported (Host η)) := do
  let l ← Library.ofFiles voc files
  let ids ← l.result.entryStories asked
  let h : Host η := { library := l.result, functions, clock, steps }
  return ⟨← h.startAll ids, l.faults⟩

end Host
end StoryScript
