import StoryScript.Effect
import StoryScript.Scope

/-! What commands act upon: the memory of their story, and a world outside of it that takes
requests, counts what runs, and calls functions. -/
namespace StoryScript

/-- Functions that are called by name, and may remember what they were called with. -/
class HostFunctions (η : Type) where
  call : String → List Value → η → Except Fault Value × η

/-- A host that has no functions. -/
structure NoFunctions where
  deriving DecidableEq, Inhabited

instance : HostFunctions NoFunctions := ⟨fun name _ h => (.error (.ofCause (.hostFunctionMissing name)), h)⟩

/-- A world outside of a story. -/
class World (ω : Type) where
  ask : Request → ω → ω
  /-- How many instances of a story run or have been asked for. -/
  storyCount : ω → String → Nat
  /-- How many handlers of a message are running or queued or have been asked for. -/
  handlerCount : ω → String → Nat
  call : String → List Value → ω → Except Fault Value × ω

/-- The memory of a story and the world around it. -/
structure Stage (ω : Type) where
  scope : Scope
  world : ω

namespace Stage
variable {ω : Type} [World ω]

def write (s : Stage ω) (name : String) (v : Value) : Stage ω × List Effect :=
  ({ s with scope := s.scope.set name v }, [.wrote name v])

/-- Makes requests, one after another. -/
def ask (s : Stage ω) (rs : List Request) : Stage ω × List Effect :=
  ({ s with world := rs.foldl (fun w r => World.ask r w) s.world }, rs.map .requested)

end Stage

/-- The texts of values, but for those that are empty. -/
def namesOf (vs : List Value) : List String := (vs.map Value.toText).filter (· ≠ "")

/-- Makes an assignment, unless its target has no name. -/
def Assignment.run {ω : Type} (a : Assignment Value) (s : Stage ω) : Stage ω × List Effect :=
  if a.target.toText = "" then (s, []) else s.write a.target.toText a.value

/-- Acts, and tells the effects in their order. -/
def Action.run {ω : Type} [World ω] (a : Action Value) (s : Stage ω) : Stage ω × List Effect :=
  match a with
  | assign a => if a.target.toText = "" then (s, [.warned .noTarget]) else a.run s
  | post m args => (s, (namesOf [m]).map (.posted · args))
  | terminate => (s, [.terminated])
  | log vs => (s, [.said (" ".intercalate (vs.map Value.toText))])
  | start id =>
    if id.toText = "" then (s, [.warned .noStory]) else s.ask [.start id.toText]
  | stop id => s.ask ((namesOf [id]).map .stop)
  | pause ids paused => s.ask ((namesOf ids).map (.pause · paused))
  | send m args concurrent => s.ask ((namesOf [m]).map (.send · args concurrent))
  | pauseHandlers ms paused => s.ask ((namesOf ms).map (.pauseHandlers · paused))
  | callHost f args result =>
    let (answer, world) := World.call f.toText args s.world
    let s := { s with world }
    match answer with
    | .error fault => (s, [.called f.toText args, .warned (.callFailed f.toText fault)])
    | .ok v =>
      match result with
      | none => (s, [.called f.toText args])
      | some target =>
        let (s, es) := Assignment.run ⟨target, v⟩ s
        (s, .called f.toText args :: es)

end StoryScript
