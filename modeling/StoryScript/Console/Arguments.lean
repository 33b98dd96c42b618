import StoryScript.Numeral.Decimal

/-! The arguments of the program. They name a mode, `run`, and its options, each with a value that
follows it or is attached to it by an equals sign. A value that follows may not begin with a dash,
unless it is a single one. -/
namespace StoryScript.Console

/-- What a run is asked to do: where the stories are, which to start, for how many ticks of which
length to run, and which messages to send first. -/
structure Arguments where
  directory : String
  stories : List String := []
  ticks : Nat := 100
  delta : Int := 16
  messages : List String := []
  deriving DecidableEq

/-- What the program is asked for. -/
inductive Invocation where
  | run (args : Arguments)
  | help
  | misuse
  deriving DecidableEq

/-- The options given so far. -/
structure Given where
  directory : Option String := none
  stories : List String := []
  ticks : Option Nat := none
  delta : Option Int := none
  messages : List String := []
  deriving DecidableEq

namespace Given

/-- Sets an option that may be given once. -/
def once {α : Type} (old new : Option α) : Option (Option α) :=
  if old.isSome || new.isNone then none else some new

/-- The options with one more. There is none of another name, and only stories and messages may be
given more than once. -/
def add? (g : Given) (name value : String) : Option Given :=
  match name with
  | "stories-dir" => (once g.directory (some value)).map fun directory => { g with directory }
  | "story" => some { g with stories := g.stories ++ [value] }
  | "ticks" => (once g.ticks (Numeral.readIndex? value.toList)).map fun ticks => { g with ticks }
  | "delta" =>
    (once g.delta ((Numeral.readInt64? value.toList).map Int64.toInt)).map
      fun delta => { g with delta }
  | "message" => some { g with messages := g.messages ++ [value] }
  | _ => none

/-- The invocation of a run with the options given, of which only the directory is needed. -/
def toInvocation (g : Given) : Invocation :=
  match g.directory with
  | none => .misuse
  | some directory =>
    .run ⟨directory, g.stories, g.ticks.getD 100, g.delta.getD 16, g.messages⟩

end Given

/-- What a single argument is. -/
inductive Word where
  | option (name : String)
  | attached (name value : String)
  | help
  | dashes
  | plain
  deriving DecidableEq

def Word.ofChars : List Char → Word
  | ['-', '-'] => .dashes
  | '-' :: '-' :: r =>
    match r.span (· ≠ '=') with
    | (name, '=' :: value) => .attached (.ofList name) (.ofList value)
    | (name, _) => if name = "help".toList then .help else .option (.ofList name)
  | '-' :: 'h' :: _ => .help
  | '-' :: c :: _ => .option c.toString
  | _ => .plain

def Word.of (arg : String) : Word := ofChars arg.toList

/-- The invocation by the options of a run. -/
def readOptions (g : Given) : List String → Invocation
  | [] => g.toInvocation
  | arg :: r =>
    match Word.of arg with
    | .help => .help
    | .plain => .misuse
    | .dashes => if r.isEmpty then g.toInvocation else .misuse
    | .attached name value =>
      match g.add? name value with
      | some g => readOptions g r
      | none => .misuse
    | .option name =>
      match r with
      | [] => .misuse
      | value :: r =>
        if Word.of value = .plain then
          match g.add? name value with
          | some g => readOptions g r
          | none => .misuse
        else .misuse

/-- The invocation by the program's arguments. -/
def Invocation.ofArgs : List String → Invocation
  | ["help"] | ["help", "run"] | ["help", "help"] => .help
  | "run" :: r => readOptions {} r
  | arg :: _ => if Word.of arg = .help then .help else .misuse
  | [] => .misuse

end StoryScript.Console
