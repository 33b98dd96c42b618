import StoryScript.Numeral.Shortest

/-! Layout of decimal digits as text. A layout says for which powers of ten a number is written
positionally, whether a whole number keeps a point, and how the values that are no numbers are
named. -/
namespace StoryScript.Numeral

/-- The choices of a written form of numbers. `positional` bounds the power of ten of the leading
digit within which no exponent is written; `none` never writes one. `plus` puts a plus sign before
an exponent that is not negative. -/
structure Layout where
  positional : Option (Int × Int)
  wholePoint : Bool
  plus : Bool
  nan : String
  infinity : String
  deriving DecidableEq

/-- Running text: no exponent, no point after a whole number. -/
def plain : Layout := ⟨none, false, false, "NaN", "inf"⟩

def zeros (n : Nat) : List Char := List.replicate n '0'

/-- Digits with a point after the first `k` places; `k` may lie outside the digits. -/
def positionalDigits (ds : List Char) (k : Int) (wholePoint : Bool) : List Char :=
  if k ≤ 0 then '0' :: '.' :: zeros (-k).toNat ++ ds
  else if (ds.length : Int) ≤ k then
    ds ++ zeros (k.toNat - ds.length) ++ if wholePoint then ['.', '0'] else []
  else ds.take k.toNat ++ '.' :: ds.drop k.toNat

/-- Digits with a point after the first, and an exponent. -/
def exponentDigits (ds : List Char) (power : Int) (plus : Bool) : List Char :=
  let point := if ds.length ≤ 1 then [] else ['.']
  let sign := if power < 0 then ['-'] else if plus then ['+'] else []
  ds.take 1 ++ point ++ ds.drop 1 ++ 'e' :: sign ++ (Nat.repr power.natAbs).toList

/-- The text of a decimal without sign. -/
def Layout.digits (l : Layout) (d : Decimal) : List Char :=
  if d.digits = 0 then '0' :: if l.wholePoint then ['.', '0'] else [] else
  let ds := (Nat.repr d.digits).toList
  let power := d.exponent + ds.length - 1
  let inside := match l.positional with
    | none => true
    | some (lo, hi) => lo ≤ power && power ≤ hi
  if inside then positionalDigits ds (power + 1) l.wholePoint else exponentDigits ds power l.plus

/-- The text of a number of a format, by its shortest digits. -/
def Layout.write (l : Layout) (f : Format) (d : Decoded) : String :=
  let signed (negative : Bool) (cs : List Char) := String.ofList (if negative then '-' :: cs else cs)
  match d with
  | .nan => l.nan
  | .infinite negative => signed negative l.infinity.toList
  | .finite negative m e => signed negative (l.digits (shortest f m e))

def floatText (x : Float) : String := plain.write binary64 (decodeFloat x)

def float32Text (x : Float32) : String := plain.write binary32 (decodeFloat32 x)

example : floatText 1e21 = "1000000000000000000000" := by decide +kernel
example : floatText (-0.001) = "-0.001" := by decide +kernel

end StoryScript.Numeral
