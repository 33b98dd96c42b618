import StoryScript.Script
import StoryScript.Table
import StoryScript.Value

/-! The functions that an operand can apply to values. Each takes any number of values; one that
is left out counts as absent. Scripts stand beside them, in the language of some engine. -/
namespace StoryScript
open Numeral

/-- The functions that are known, by name, and the engine of the scripts. -/
structure Functions where
  byName : Table (List Value → Value)
  engine : Script.Engine := .builtin

namespace Functions

def find? (fs : Functions) (name : String) : Option (List Value → Value) := fs.byName.find? name

def first (args : List Value) : Value := args.headD .absent

/-- The vector of three coordinates or more, or of a single value that stands for one. -/
def vector3 : List Value → Vector3
  | [v] => v.toVector
  | x :: y :: z :: _ => ⟨narrow x.toFloat, narrow y.toFloat, narrow z.toFloat⟩
  | _ => .zero

/-- The vectors of a list of coordinates; up to two that are left over are passed over. -/
def vectors : List Float32 → List Vector3
  | x :: y :: z :: r => ⟨x, y, z⟩ :: vectors r
  | _ => []

/-- The functions that every story knows. -/
def builtin : Functions where
  byName := .ofList
   [("vector3", fun args => .vector (vector3 args)),
    ("stringlist", fun args => .list ((words (first args).toText).map .text)),
    ("vector3list", fun args => .list ((vectors (Vector3.numbers (first args).toText)).map .vector)),
    ("int", fun args => .int (first args).toInt),
    ("float", fun args => .float (first args).toFloat),
    ("str", fun args => .text (first args).toText),
    ("concat", fun args => .text (String.join (args.map Value.toText)))]

end Functions
end StoryScript
