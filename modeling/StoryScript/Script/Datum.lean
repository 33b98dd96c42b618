import StoryScript.Script.Problem
import StoryScript.Script.Expr
import StoryScript.Table

/-! The data that scripts compute with, and how the values of a story become data and data become
values again. A vector becomes a map of `x`, `y` and `z`, an object a map of its `handle`. -/
namespace StoryScript.Script
open Numeral

/-- A datum of a script. The fields of a map are in ascending order of their keys. -/
inductive Datum where
  | unit
  | bool (b : Bool)
  | int (n : Int64)
  | float (x : Float)
  | text (s : String)
  | char (c : Char)
  | array (items : List Datum)
  | map (fields : List (String × Datum))

instance : Inhabited Datum := ⟨.unit⟩

namespace Datum

def typeName : Datum → String
  | unit => "()"
  | bool _ => "bool"
  | int _ => "i64"
  | float _ => "f64"
  | text _ => "string"
  | char _ => "char"
  | array _ => "array"
  | map _ => "map"

mutual
def ofValue : Value → Datum
  | .absent => unit
  | .int n => int n
  | .float x => float x
  | .text s => text s
  | .vector v => map [("x", float (widen v.x)), ("y", float (widen v.y)), ("z", float (widen v.z))]
  | .object h => map [("handle", int h.toInt64)]
  | .list items => array (ofValues items)

def ofValues : List Value → List Datum
  | [] => []
  | v :: r => ofValue v :: ofValues r
end

/-- A field of a map. -/
def field? (fields : List (String × Datum)) (k : String) : Option Datum := Table.lookup k fields

def int? : Datum → Option Int64
  | int n => some n
  | _ => none

/-- A coordinate, from a number. -/
def coordinate? : Datum → Option Float32
  | float x => some (narrow x)
  | int n => some (narrow (floatOfInt n.toInt))
  | _ => none

/-- The value of a map: an object when it has an integer handle, else a vector when its
coordinates are numbers. -/
def valueOfFields? (fields : List (String × Datum)) : Option Value :=
  match (field? fields "handle").bind int? with
  | some h => some (.object h.toUInt64)
  | none => do
    let x ← (field? fields "x").bind coordinate?
    let y ← (field? fields "y").bind coordinate?
    let z ← (field? fields "z").bind coordinate?
    return .vector ⟨x, y, z⟩

mutual
/-- The value of a datum, or the name of the type that has none. -/
def toValue : Datum → Except String Value
  | unit => .ok .absent
  | bool b => .ok (.int (if b then 1 else 0))
  | int n => .ok (.int n)
  | float x => .ok (.float x)
  | text s => .ok (.text s)
  | char c => .ok (.text c.toString)
  | array items => (toValues items).map .list
  | map fields =>
    match valueOfFields? fields with
    | some v => .ok v
    | none => .error "map"

def toValues : List Datum → Except String (List Value)
  | [] => .ok []
  | d :: r => do
    let v ← toValue d
    return v :: (← toValues r)
end

/-- Floats in the text of a script keep a point. -/
def floatLayout : Layout := ⟨none, true, false, "NaN", "inf"⟩

/-- Very large and very small floats have an exponent. -/
def extremeLayout : Layout := ⟨some (1, 0), false, false, "NaN", "inf"⟩

/-- The magnitudes between which floats are written without an exponent: the numbers nearest to
`1e-13` and `1e13` in single precision. -/
def plainRange : Float × Float := (widen 1e-13, widen 1e13)

/-- The text of a float; outside the plain range it has an exponent. -/
def floatText (x : Float) : String :=
  let size := x.abs
  if size == 0 then "0.0"
  else if plainRange.2 < size || size < plainRange.1 then extremeLayout.write binary64 (decodeFloat x)
  else floatLayout.write binary64 (decodeFloat x)

/-- A character of a quoted text. -/
def escapeChar (quote c : Char) : List Char :=
  if c = quote || c = '\\' then ['\\', c]
  else if c = '\n' then ['\\', 'n']
  else if c = '\r' then ['\\', 'r']
  else if c = '\t' then ['\\', 't']
  else if c.toNat = 0 then ['\\', '0']
  else if c.toNat < 0x20 || c.toNat = 0x7F then
    "\\u\x7b".toList ++ Nat.toDigits 16 c.toNat ++ ['\x7d']
  else [c]

def quoted (quote : Char) (cs : List Char) : String :=
  .ofList (quote :: cs.flatMap (escapeChar quote) ++ [quote])

mutual
/-- A datum as it is shown inside another. -/
def inspect : Datum → String
  | unit => "()"
  | bool b => if b then "true" else "false"
  | int n => n.toInt.repr
  | float x => floatText x
  | text s => quoted '"' s.toList
  | char c => quoted '\'' [c]
  | array items => "[" ++ ", ".intercalate (inspects items) ++ "]"
  | map fields => "#\x7b" ++ ", ".intercalate (inspectFields fields) ++ "\x7d"

def inspects : List Datum → List String
  | [] => []
  | d :: r => inspect d :: inspects r

def inspectFields : List (String × Datum) → List String
  | [] => []
  | (k, d) :: r => (quoted '"' k.toList ++ ": " ++ inspect d) :: inspectFields r
end

def toText : Datum → String
  | unit => ""
  | text s => s
  | char c => c.toString
  | d => d.inspect

end Datum
end StoryScript.Script
