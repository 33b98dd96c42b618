import StoryScript.Numeral.Binary

/-! Decimal notation of numbers: an optional sign, digits with an optional point and an optional
exponent, or a name of infinity or of the non-number in any case of letters. A number is read as
the pattern nearest to it in the format that is asked for. -/
namespace StoryScript.Numeral

def digit? (c : Char) : Option Nat :=
  if '0' ≤ c ∧ c ≤ '9' then some (c.toNat - '0'.toNat) else none

def isDigit (c : Char) : Bool := (digit? c).isSome

/-- The natural that a list of digits spells after digits of value `n`. -/
def digitsValueFrom (n : Nat) (cs : List Char) : Nat :=
  cs.foldl (fun n c => 10 * n + (digit? c).getD 0) n

def digitsValue (cs : List Char) : Nat := digitsValueFrom 0 cs

/-- A sign in front of a numeral, and what follows it. -/
def takeSign : List Char → Bool × List Char
  | '-' :: r => (true, r)
  | '+' :: r => (false, r)
  | r => (false, r)

/-- The natural that a text consisting of digits spells. -/
def readNat? (cs : List Char) : Option Nat :=
  if cs ≠ [] ∧ cs.all isDigit then some (digitsValue cs) else none

def fitsInt64 (n : Int) : Bool := -Nat.pow 2 63 ≤ n && n < Nat.pow 2 63

def readInt64? (cs : List Char) : Option Int64 := do
  let (negative, r) := takeSign cs
  let n ← readNat? r
  let v : Int := if negative then -n else n
  if fitsInt64 v then some (Int64.ofInt v) else none

/-- A natural below `2 ^ 64`, which may have a plus sign. -/
def readIndex? (cs : List Char) : Option Nat := do
  let r := match cs with
    | '+' :: r => r
    | r => r
  let n ← readNat? r
  if n < Nat.pow 2 64 then some n else none

/-- A decimal number: `digits * 10 ^ exponent`. -/
structure Decimal where
  digits : Nat
  exponent : Int
  deriving DecidableEq

/-- The number of decimal digits of a natural, zero having none. -/
def digitCount (n : Nat) : Nat :=
  let k := n.log2 * 30103 / 100000
  if n = 0 then 0 else if Nat.pow 10 (k + 1) ≤ n then k + 2 else if Nat.pow 10 k ≤ n then k + 1 else k

/-- The pattern nearest to a decimal. Beyond the four hundredth power of ten the answer is known
without computing the power. -/
def Decimal.nearest (f : Format) (d : Decimal) : Nat :=
  let top := d.exponent + digitCount d.digits
  if d.digits = 0 ∨ top < -400 then 0
  else if 400 < top then f.infinity
  else if 0 ≤ d.exponent then nearestMagnitude f (d.digits * Nat.pow 10 d.exponent.toNat) 1
  else nearestMagnitude f d.digits (Nat.pow 10 (-d.exponent).toNat)

/-- The exponent part of a numeral: empty, or a letter and a signed integer. -/
def readExponent? : List Char → Option Int
  | [] => some 0
  | c :: r =>
    if c = 'e' ∨ c = 'E' then
      let (negative, r) := takeSign r
      (readNat? r).map fun n => if negative then -n else n
    else none

def readDecimal? (cs : List Char) : Option Decimal := do
  let whole := cs.takeWhile isDigit
  let r := cs.dropWhile isDigit
  let (part, r) := match r with
    | '.' :: r => (r.takeWhile isDigit, r.dropWhile isDigit)
    | r => ([], r)
  if whole = [] ∧ part = [] then none else
  let e ← readExponent? r
  some ⟨digitsValue (whole ++ part), e - part.length⟩

def readFloat? (f : Format) (cs : List Char) : Option Nat :=
  let (negative, r) := takeSign cs
  let sign := if negative then f.signBit else 0
  let name := String.ofList (r.map Char.toLower)
  if name = "inf" ∨ name = "infinity" then some (f.infinity + sign)
  else if name = "nan" then some (quietNaN f)
  else (readDecimal? r).map fun d => d.nearest f + sign

/-- A double in decimal notation. -/
def readDouble? (s : String) : Option Float :=
  (readFloat? binary64 s.toList).map fun b => .ofBits (.ofNat b)

/-- A single in decimal notation. -/
def readSingle? (s : String) : Option Float32 :=
  (readFloat? binary32 s.toList).map fun b => .ofBits (.ofNat b)

example : readInt64? "-9223372036854775808".toList = some Int64.minValue := by decide +kernel
example : readInt64? "9223372036854775808".toList = none := by decide +kernel
example : readDouble? "1.5e0" = some 1.5 := by decide +kernel
example : readDouble? "." = none := by decide +kernel

end StoryScript.Numeral
