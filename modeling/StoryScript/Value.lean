import StoryScript.Text.Blank
import StoryScript.Numeral.Layout

/-! The values that stories compute with, and the conversions between them. Every conversion is
total: a value that has no sensible reading of a type reads as the zero of that type, and so does
the absent value. -/
namespace StoryScript
open Numeral

structure Vector3 where
  x : Float32
  y : Float32
  z : Float32
  deriving DecidableEq

/-- A value of a story. An object is known by a handle that the host gave out. -/
inductive Value where
  | absent
  | int (n : Int64)
  | float (x : Float)
  | text (s : String)
  | vector (v : Vector3)
  | object (handle : UInt64)
  | list (items : List Value)

instance : Inhabited Value := ⟨.absent⟩

namespace Vector3

def zero : Vector3 := ⟨0, 0, 0⟩

instance : Inhabited Vector3 := ⟨zero⟩

/-- The numbers of a text, between blanks and commas; other words are passed over. -/
def numbers (s : String) : List Float32 :=
  (runs (fun c => isBlank c || c == ',') s.toList).filterMap fun w => readSingle? (.ofList w)

/-- The vector of a list of exactly three coordinates. -/
def ofList? : List Float32 → Option Vector3
  | [x, y, z] => some ⟨x, y, z⟩
  | _ => none

/-- The vector that a text of three numbers spells. -/
def parse? (s : String) : Option Vector3 := ofList? (numbers s)

def toText (v : Vector3) : String :=
  float32Text v.x ++ " " ++ float32Text v.y ++ " " ++ float32Text v.z

end Vector3

namespace Value

def typeName : Value → String
  | absent => "absent"
  | int _ => "int"
  | float _ => "float"
  | text _ => "string"
  | vector _ => "vector3"
  | object _ => "object"
  | list _ => "list"

def isAbsent : Value → Bool
  | absent => true
  | _ => false

def text? : Value → Option String
  | text s => some s
  | _ => none

/-- A value as an integer; a text that is no integer may still be a number. -/
def toInt : Value → Int64
  | int n => n
  | float x => truncate x
  | text s =>
    let cs := trimChars s.toList
    match readInt64? cs with
    | some n => n
    | none => ((readDouble? (.ofList cs)).map truncate).getD 0
  | object h => h.toInt64
  | _ => 0

def toFloat : Value → Float
  | int n => floatOfInt n.toInt
  | float x => x
  | text s => (readDouble? (trim s)).getD 0
  | _ => 0

def toBool : Value → Bool
  | int n => n ≠ 0
  | float x => !(x == 0)
  | text s => (trim s).map Char.toLower = "true" || trim s = "1"
  | object _ => true
  | list items => !items.isEmpty
  | _ => false

/-- A double in running text; one that is within `2 ^ -52` above a whole number in magnitude is
written as that number, held within 64 bits. -/
def floatAsText (x : Float) : String :=
  match decodeFloat x with
  | .finite _ m e =>
    let unit := Nat.pow 2 (-e).toNat
    if m % unit * Nat.pow 2 52 < unit then (truncate x).toInt.repr else floatText x
  | _ => floatText x

mutual
/-- A value as text; the items of a list stand between spaces. -/
def toText : Value → String
  | absent => ""
  | int n => n.toInt.repr
  | float x => floatAsText x
  | text s => s
  | vector v => v.toText
  | object h => "#" ++ h.toNat.repr
  | list items => " ".intercalate (toTexts items)

def toTexts : List Value → List String
  | [] => []
  | v :: r => toText v :: toTexts r
end

@[simp] theorem toTexts_eq_map (l : List Value) : toTexts l = l.map toText := by
  induction l with
  | nil => rfl
  | cons v r ih => simp [toTexts, ih]

def toVector : Value → Vector3
  | vector v => v
  | text s => (Vector3.parse? s).getD .zero
  | list [x, y, z] => ⟨narrow x.toFloat, narrow y.toFloat, narrow z.toFloat⟩
  | _ => .zero

/-- A value as a list: the words of a text, and a single other value as a list of one. -/
def toList : Value → List Value
  | absent => []
  | list items => items
  | text s => (words s).map text
  | v => [v]

/-- A value as an integer held within 32 bits. -/
def toInt32 (v : Value) : Int32 := Int32.ofIntClamp v.toInt.toInt

def toFloat32 (v : Value) : Float32 := narrow v.toFloat

def toStrings (v : Value) : List String := v.toList.map toText

end Value

class OfValue (α : Type) where
  ofValue : Value → α

namespace OfValue

instance : OfValue Value := ⟨id⟩
instance : OfValue Int64 := ⟨Value.toInt⟩
instance : OfValue Int32 := ⟨Value.toInt32⟩
instance : OfValue Float := ⟨Value.toFloat⟩
instance : OfValue Float32 := ⟨Value.toFloat32⟩
instance : OfValue Bool := ⟨Value.toBool⟩
instance : OfValue String := ⟨Value.toText⟩
instance : OfValue Vector3 := ⟨Value.toVector⟩
instance : OfValue (List String) := ⟨Value.toStrings⟩

end OfValue
end StoryScript
