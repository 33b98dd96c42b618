/-! Binary floating point by exact arithmetic. A format fixes how many bits a significand and an
exponent have; `decode` reads a bit pattern as `m * 2 ^ e`, and `nearest` writes a quotient of two
naturals as the bit pattern closest to it, an exact tie going to the even pattern. -/
namespace StoryScript.Numeral

/-- A binary format: the bits of a significand, counting the leading one, and of an exponent. -/
structure Format where
  precision : Nat
  exponentBits : Nat
  deriving DecidableEq

def binary64 : Format := ⟨53, 11⟩
def binary32 : Format := ⟨24, 8⟩

namespace Format

/-- The exponent of the least positive number. -/
def lowest (f : Format) : Int := 3 - Nat.pow 2 (f.exponentBits - 1) - f.precision

/-- The pattern of infinity, sign apart. -/
def infinity (f : Format) : Nat := (Nat.pow 2 f.exponentBits - 1) * Nat.pow 2 (f.precision - 1)

/-- The bit of the sign. -/
def signBit (f : Format) : Nat := Nat.pow 2 (f.precision + f.exponentBits - 1)

end Format

/-- What a bit pattern stands for; a finite number is `m * 2 ^ e`. -/
inductive Decoded where
  | nan
  | infinite (negative : Bool)
  | finite (negative : Bool) (m : Nat) (e : Int)
  deriving DecidableEq

/-- The reading of a bit pattern. -/
def decode (f : Format) (bits : Nat) : Decoded :=
  let negative := f.signBit ≤ bits
  let magnitude := bits % f.signBit
  let unit := Nat.pow 2 (f.precision - 1)
  let fraction := magnitude % unit
  if magnitude = f.infinity then .infinite negative
  else if f.infinity < magnitude then .nan
  else match magnitude / unit with
    | 0 => .finite negative fraction f.lowest
    | k + 1 => .finite negative (fraction + unit) (f.lowest + k)

/-- The quotient of two naturals rounded to a natural, a half going to the even neighbour. -/
def divEven (num den : Nat) : Nat :=
  let q := num / den
  let r := num % den
  if den < 2 * r ∨ (2 * r = den ∧ q % 2 = 1) then q + 1 else q

/-- `num * 2 ^ (-e) / den` as a quotient of naturals. -/
def scaled (num den : Nat) (e : Int) : Nat × Nat :=
  if 0 ≤ e then (num, den * Nat.pow 2 e.toNat) else (num * Nat.pow 2 (-e).toNat, den)

/-- The exponent of the last significand bit for a positive quotient. -/
def lastExponent (f : Format) (num den : Nat) : Int :=
  let k : Int := (num.log2 : Int) - den.log2
  let (n, d) := scaled num den k
  let top := if d ≤ n then k else k - 1
  max f.lowest (top - (f.precision - 1))

/-- The pattern nearest to a quotient of naturals, sign apart. -/
def nearestMagnitude (f : Format) (num den : Nat) : Nat :=
  if num = 0 then 0 else
  let e := lastExponent f num den
  let (n, d) := scaled num den e
  min f.infinity ((e - f.lowest).toNat * Nat.pow 2 (f.precision - 1) + divEven n d)

/-- The pattern nearest to a signed quotient of naturals. -/
def nearest (f : Format) (negative : Bool) (num den : Nat) : Nat :=
  nearestMagnitude f num den + if negative then f.signBit else 0

/-- The pattern of a quiet non-number. -/
def quietNaN (f : Format) : Nat := f.infinity + Nat.pow 2 (f.precision - 2)

/-- The pattern of another format that is nearest to what was decoded. -/
def Decoded.encode (f : Format) : Decoded → Nat
  | .nan => quietNaN f
  | .infinite negative => f.infinity + if negative then f.signBit else 0
  | .finite negative m e =>
    if 0 ≤ e then nearest f negative (m * Nat.pow 2 e.toNat) 1
    else nearest f negative m (Nat.pow 2 (-e).toNat)

/-- The integer part, toward zero, of a finite number; none of the others. -/
def Decoded.integerPart? : Decoded → Option Int
  | .finite negative m e =>
    let n : Nat := if 0 ≤ e then m * Nat.pow 2 e.toNat else m / Nat.pow 2 (-e).toNat
    some (if negative then -n else n)
  | _ => none

/-- Whether a finite number has a part after the point. -/
def Decoded.isFractional : Decoded → Bool
  | .finite _ m e => e < 0 && m % Nat.pow 2 (-e).toNat ≠ 0
  | _ => false

def decodeFloat (x : Float) : Decoded := decode binary64 x.toBits.toNat
def decodeFloat32 (x : Float32) : Decoded := decode binary32 x.toBits.toNat

/-- The double nearest to what was decoded. -/
def Decoded.toFloat (d : Decoded) : Float := .ofBits (.ofNat (d.encode binary64))

/-- The single nearest to what was decoded. -/
def Decoded.toFloat32 (d : Decoded) : Float32 := .ofBits (.ofNat (d.encode binary32))

/-- The single nearest to a double. -/
def narrow (x : Float) : Float32 := (decodeFloat x).toFloat32

/-- A single as a double. -/
def widen (x : Float32) : Float := (decodeFloat32 x).toFloat

/-- The double nearest to an integer. -/
def floatOfInt (n : Int) : Float := .ofBits (.ofNat (nearest binary64 (n < 0) n.natAbs 1))

/-- The integer part of a double, held within 64 bits; zero for a non-number. -/
def truncate (x : Float) : Int64 :=
  match decodeFloat x with
  | .nan => 0
  | .infinite negative => if negative then Int64.minValue else Int64.maxValue
  | d => Int64.ofIntClamp ((d.integerPart?).getD 0)

example : decodeFloat 1.5 = .finite false (3 * 2 ^ 51) (-52) := by decide
example : narrow 0.1 = Float32.ofBits 0x3dcccccd := by decide +kernel
example : truncate (-2.9) = -2 := by decide +kernel

end StoryScript.Numeral
