import StoryScript.Numeral.Layout

/-! Numbers of JSON. A number without point and exponent that 64 bits can hold is an integer; any
other is a double, computed from its leading digits and one power of ten at a time. -/
namespace StoryScript.Json
open Numeral

/-- A number: an integer, a double, or a single that is written by its own shortest digits. -/
inductive Number where
  | integer (n : Int)
  | double (x : Float)
  | single (x : Float32)
  deriving DecidableEq

/-- Doubles have an exponent below `1e-5` and from `1e16`, and keep a point otherwise. -/
def doubleLayout : Layout := ⟨some (-5, 15), true, true, "null", "null"⟩

/-- Singles have an exponent below `1e-6` and from `1e13`, and keep a point otherwise. -/
def singleLayout : Layout := ⟨some (-6, 12), true, true, "null", "null"⟩

/-- A number of a layout; infinities and the non-number are written as null. -/
def finiteText (l : Layout) (f : Format) (d : Decoded) : String :=
  match d with
  | .finite _ _ _ => l.write f d
  | _ => "null"

def Number.write : Number → List Char
  | .integer n => n.repr.toList
  | .double x => (finiteText doubleLayout binary64 (decodeFloat x)).toList
  | .single x => (finiteText singleLayout binary32 (decodeFloat32 x)).toList

/-- The natural that digits spell after a natural, as long as it stays below `2 ^ 64`, and the
digits that are left over. -/
def takeWord (n : Nat) : List Char → Nat × List Char
  | [] => (n, [])
  | c :: r =>
    let m := 10 * n + (digit? c).getD 0
    if m < Nat.pow 2 64 then takeWord m r else (n, c :: r)

def powerOfTen (k : Nat) : Float := floatOfInt (Nat.pow 10 k)

/-- A double times a power of ten, dividing by at most `1e308` at a time; `n` bounds the number of
divisions, after three of which nothing is left of any significand. -/
def scaleFloat (x : Float) (e : Int) (n : Nat) : Option Float :=
  if x == 0 then some x
  else if 308 < e then none
  else if 0 ≤ e then
    let y := x * powerOfTen e.toNat
    if y.isInf then none else some y
  else match n with
    | 0 => some 0
    | n + 1 => if -308 ≤ e then some (x / powerOfTen (-e).toNat)
      else scaleFloat (x / powerOfTen 308) (e + 308) n

/-- The double of a sign, a significand and a power of ten, when it is finite. -/
def doubleOf? (negative : Bool) (significand : Nat) (e : Int) : Option Float :=
  (scaleFloat (floatOfInt significand) e 3).map fun x => if negative then -x else x

/-- The parts of a numeral: a whole part without needless zeros, and digits after a point. -/
def splitNumeral? (cs : List Char) : Option (List Char × Option (List Char) × List Char) :=
  let whole := cs.takeWhile isDigit
  let canonical := match whole with
    | [] => false
    | '0' :: _ :: _ => false
    | _ => true
  if !canonical then none else
  match cs.dropWhile isDigit with
  | '.' :: r =>
    let part := r.takeWhile isDigit
    if part.isEmpty then none else some (whole, some part, r.dropWhile isDigit)
  | r => some (whole, none, r)

/-- The number that a numeral spells, unless it is too large. -/
def Number.read? (cs : List Char) : Option Number := do
  let (negative, r) := match cs with
    | '-' :: r => (true, r)
    | r => (false, r)
  let (whole, part, r) ← splitNumeral? r
  let e ← readExponent? r
  let (n, left) := takeWord 0 whole
  let plain := part.isNone && r.isEmpty
  if plain && left.isEmpty && !(negative && (n = 0 || Nat.pow 2 63 < n)) then
    return .integer (if negative then -n else n)
  let digits := part.getD []
  let (n, left') := takeWord n digits
  let exponent : Int := e + left.length - (digits.length - left'.length : Nat)
  return .double (← doubleOf? negative n exponent)

example : Number.read? "-0".toList = some (.double (-0.0)) := by decide +kernel
example : Number.read? "18446744073709551615".toList = some (.integer 18446744073709551615) := by
  decide +kernel
example : Number.read? "01".toList = none := by decide +kernel

end StoryScript.Json
