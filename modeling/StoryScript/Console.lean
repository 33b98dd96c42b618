import StoryScript.Console.Arguments
import StoryScript.Host
import StoryScript.Value.Json

/-! The program that runs the stories of a directory for some ticks and prints what has become of
their variables. -/
namespace StoryScript.Console

/-- What a file holds, or why it cannot be read. -/
abbrev Content := Except String ByteArray

/-- What there is at a path: nothing, a file, or a directory with the files below it, by their paths
inside it. -/
inductive Place where
  | missing
  | file
  | directory (files : List (String × Content))

/-- The path of the directory that an argument names. -/
def resolve (current arg : String) : String :=
  if arg.startsWith "/" then arg
  else if current.endsWith "/" then current ++ arg
  else current ++ "/" ++ arg

/-- The ending of the names of files that hold stories. -/
def storySuffix : String := ".story.xml"

/-- The path of a file as it is reported, with slashes between its parts. -/
def reportedPath (path : String) : String :=
  path.map fun c => if c = '\\' then '/' else c

def readText (c : Content) : Except Fault String :=
  match c with
  | .error detail => .error (.ofCause (.fileUnreadable detail))
  | .ok bytes =>
    match String.fromUTF8? bytes with
    | some text => .ok text
    | none => .error (.ofCause (.fileUnreadable "stream did not contain valid UTF-8"))

def storyFiles : List (String × Content) → Except Fault (Table String)
  | [] => .ok ∅
  | (path, content) :: r =>
    if path.endsWith storySuffix then do
      let text ← readText content
      return (← storyFiles r).insert (reportedPath path) text
    else storyFiles r

def Place.stories (p : Place) (path : String) : Except Fault (Table String) :=
  match p with
  | missing => .error (.ofCause (.directoryMissing path))
  | file => .error (.ofCause (.notADirectory path))
  | directory files => do
    let stories ← storyFiles files
    if stories.size = 0 then .error (.ofCause (.noStoryFiles path)) else .ok stories

/-- The value of an argument of a message: an integer, a number or a text. -/
def readArgument (s : String) : Value :=
  match Numeral.readInt64? s.toList with
  | some n => .int n
  | none =>
    match Numeral.readDouble? s with
    | some x => .float x
    | none => .text s

/-- The message that a text describes: its id, and then its arguments. -/
def readMessage (s : String) : Except Fault (String × List Value) :=
  match words s with
  | [] => .error (.ofCause .messageInvalid)
  | id :: args => .ok (id, args.map readArgument)

/-- Ticks a host until it has nothing to do, at most some number of times; returns also the number of
ticks before and since, and what was seen. -/
def drive {η : Type} [HostFunctions η] (delta : Int) :
    Nat → Nat → List Effect → Host η → Host η × Nat × List Effect
  | 0, done, seen, h => (h, done, seen)
  | n + 1, done, seen, h =>
    if h.isIdle then (h, done, seen)
    else
      let (h, report) := (h.advance delta).tick delta
      drive delta n (done + 1) (seen ++ report.effects) h

def variablesByStory {η : Type} (h : Host η) : Table (Table Value) :=
  h.instances.foldr (fun i t => t.insert i.storyId i.scope.vars) ∅

def jsonOfTable {α : Type} (f : α → Json) (t : Table α) : Json :=
  .object (t.entries.map fun e => (e.1, f e.2))

/-- What the program prints, what could be seen of the stories meanwhile, and how it exits. -/
structure Outcome where
  exit : UInt32
  lines : List String
  effects : List Effect

/-- The outcome of a run that is finished. -/
def Outcome.finished {η : Type} (r : Reported (Host η)) (ticks : Nat) (effects : List Effect) :
    Outcome :=
  let vars := jsonOfTable (jsonOfTable Value.toJson) (variablesByStory r.result)
  ⟨0, ["RESULT:OK", "TICKS:" ++ ticks.repr, "ELAPSED_MS:" ++ r.result.clock.repr,
    "DIAGNOSTICS:" ++ r.faults.length.repr, "VARS_JSON:" ++ vars.toText], effects⟩

def Outcome.failed (f : Fault) : Outcome :=
  ⟨1, ["RESULT:ERROR", "ERROR_CODE:" ++ f.code, "ERROR_MSG_JSON:" ++ (Json.text f.message).toText], []⟩

def Arguments.execute (a : Arguments) (path : String) (p : Place) : Except Fault Outcome := do
  let files ← p.stories path
  let messages ← a.messages.mapM readMessage
  let r ← Host.ofFiles .builtin (default : NoFunctions) files a.stories 0 defaultSteps
  let h := messages.foldl (fun h m => h.sendMessage m.1 m.2 false) r.result
  let (h, ticks, effects) := drive a.delta a.ticks 0 [] h
  return .finished { r with result := h } ticks effects

def Arguments.outcome (a : Arguments) (path : String) (p : Place) : Outcome :=
  match a.execute path p with
  | .ok o => o
  | .error f => .failed f

def usage : List String :=
  ["Usage: storyscript run --stories-dir <DIR> [OPTIONS]",
   "",
   "Runs the stories of a directory tick by tick and prints their variables.",
   "The paths of its files are read from the input, one on a line.",
   "",
   "Options:",
   "  --stories-dir <DIR>    Directory that holds the stories",
   "  --story <ID>           Story to start; may be repeated; main by default",
   "  --ticks <N>            Greatest number of ticks [default: 100]",
   "  --delta <MS>           Milliseconds of a tick [default: 16]",
   "  --message <TEXT>       Message to send before the first tick, with its arguments",
   "  -h, --help             Print this help"]

end StoryScript.Console
