import StoryScript.Context
import StoryScript.Fault
import StoryScript.Script.Eval
import StoryScript.Script.Parser
import StoryScript.Script.Reference

/-! Scripts: expressions whose text may refer to variables, the iterator and arguments. A script is
evaluated with its symbols bound to what its references name, and to nothing else. Whatever reads the
text with the symbols in it is an engine; there is one for every language of scripts. -/
namespace StoryScript

/-- An engine of scripts. It reads a text as what the script comes to when its symbols are bound, and
tells in its own words why a text cannot be read and why a script fails. -/
structure Script.Engine where
  read : List Char → Except String (Script.Bindings → Except String Script.Datum)

/-- The engine of the expressions that every story knows. -/
def Script.Engine.builtin : Script.Engine where
  read text := match Script.Expr.parse text with
    | .ok body => .ok fun bindings => (body.eval bindings).mapError Script.RunProblem.message
    | .error p => .error p.message

structure Script where
  source : String
  segments : List Script.Segment
  run : Script.Bindings → Except String Script.Datum

namespace Script

def compile (engine : Engine) (source : String) : Except Fault Script :=
  let ss := Script.segmentsOf source.toList
  match engine.read (symbolText ss) with
  | .ok run => .ok ⟨source, ss, run⟩
  | .error message => .error (.ofCause (.scriptUnreadable source message))

/-- The name that a variable has in a story. -/
def variableName (name : List Char) : String := .ofList ('@' :: name)

/-- What a segment binds: the symbol of a reference, to the datum of the value it names. -/
def binding? (c : Context) (s : Segment) : Option (String × Datum) :=
  match s with
  | .plain _ => none
  | .variable name => some (.ofList s.symbol, .ofValue (c.variable (variableName name)))
  | .iterator => some (.ofList s.symbol, .ofValue c.iterator)
  | .argument i => some (.ofList s.symbol, .ofValue (c.argument i))

def bindings (s : Script) (c : Context) : Bindings := s.segments.filterMap (binding? c)

def evaluate (s : Script) (c : Context) : Except Fault Value :=
  match s.run (s.bindings c) with
  | .error message => .error (.ofCause (.scriptFailed s.source message))
  | .ok d =>
    match d.toValue with
    | .ok v => .ok v
    | .error type => .error (.ofCause (.scriptResult type))

end Script
end StoryScript
