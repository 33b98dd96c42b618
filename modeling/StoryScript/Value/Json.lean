import StoryScript.Value
import StoryScript.Json.Reader

/-! Values as JSON. A value is written without a mark of its type; a JSON value is read as the first
of absent, integer, float, text, vector, object and list that it fits. -/
namespace StoryScript
open Numeral

namespace Json

/-- The values of the fields of a record, in the order of their names: an object that has every
one of them exactly once, or an array of just these values. Other fields are passed over. -/
def record? (names : List String) : Json → Option (List Json)
  | object fields => names.mapM fun n =>
    match fields.filter (·.1 = n) with
    | [e] => some e.2
    | _ => none
  | array items => if items.length = names.length then some items else none
  | _ => none

/-- A number as a single. -/
def single? : Json → Option Float32
  | number (.integer n) => some (.ofBits (.ofNat (nearest binary32 (n < 0) n.natAbs 1)))
  | number (.double x) => some (narrow x)
  | number (.single x) => some x
  | _ => none

/-- An integer of 64 bits without sign. -/
def word? : Json → Option UInt64
  | number (.integer n) => if 0 ≤ n ∧ n < Nat.pow 2 64 then some (.ofNat n.toNat) else none
  | _ => none

/-- A vector, as the record of its three coordinates. -/
def vector? (j : Json) : Option Vector3 := do
  Vector3.ofList? (← (← j.record? ["x", "y", "z"]).mapM single?)

/-- An object's handle, as the record of it. -/
def handle? (j : Json) : Option UInt64 := do
  match ← j.record? ["handle"] with
  | [h] => h.word?
  | _ => none

end Json

namespace Value

/-- The fields of a vector. -/
def vectorJson (v : Vector3) : Json :=
  .object [("x", .number (.single v.x)), ("y", .number (.single v.y)), ("z", .number (.single v.z))]

mutual
def toJson : Value → Json
  | absent => .null
  | int n => .ofInt n.toInt
  | float x => .number (.double x)
  | text s => .text s
  | vector v => vectorJson v
  | object h => .object [("handle", .ofNat h.toNat)]
  | list items => .array (toJsons items)

def toJsons : List Value → List Json
  | [] => []
  | v :: r => toJson v :: toJsons r
end

/-- The value of an integer; one that 64 bits cannot hold is a float. -/
def ofInteger (n : Int) : Value :=
  if fitsInt64 n then int (.ofInt n) else float (floatOfInt n)

/-- The vector or object that a JSON value spells. -/
def ofRecord? (j : Json) : Option Value :=
  match j.vector? with
  | some v => some (vector v)
  | none => j.handle?.map object

mutual
/-- The value that a JSON value spells. -/
def ofJson? : Json → Option Value
  | .null => some absent
  | .bool _ => none
  | .number (.integer n) => some (ofInteger n)
  | .number (.double x) => some (float x)
  | .number (.single x) => some (float (widen x))
  | .text s => some (text s)
  | .object fields => ofRecord? (.object fields)
  | .array items =>
    match ofRecord? (.array items) with
    | some v => some v
    | none => (ofJsons? items).map list

def ofJsons? : List Json → Option (List Value)
  | [] => some []
  | j :: r => do
    let v ← ofJson? j
    return v :: (← ofJsons? r)
end

def toJsonText (v : Value) : String := v.toJson.toText

def ofJsonText? (s : String) : Option Value := do ofJson? (← Json.parse? s)

end Value
end StoryScript
