import StoryScript.Numeral.Decimal

/-! The shortest decimal of a binary number: the fewest digits that are read back as the number,
and of those the nearest to it. The search compares naturals only. -/
namespace StoryScript.Numeral

/-- The reals that round to a number, as four times the number, its lower end and its upper end,
in units of a quarter of the last bit; the ends belong to it when the significand is even. -/
structure Interval where
  value : Nat
  lower : Nat
  upper : Nat
  closed : Bool
  exponent : Int
  deriving DecidableEq

/-- The rounding interval of `m * 2 ^ e`; below a power of two the gap is half as wide. -/
def interval (f : Format) (m : Nat) (e : Int) : Interval :=
  let narrowBelow := m = Nat.pow 2 (f.precision - 1) ∧ f.lowest < e
  { value := 4 * m, lower := 4 * m - (if narrowBelow then 1 else 2), upper := 4 * m + 2
    closed := m % 2 = 0, exponent := e - 2 }

/-- `a * 10 ^ k` and `b * 2 ^ e` in one unit, as naturals. -/
def common (a : Nat) (k : Int) (b : Nat) (e : Int) : Nat × Nat :=
  let (a, b) := if 0 ≤ k then (a * Nat.pow 10 k.toNat, b) else (a, b * Nat.pow 10 (-k).toNat)
  if 0 ≤ e then (a, b * Nat.pow 2 e.toNat) else (a * Nat.pow 2 (-e).toNat, b)

/-- Whether `n * 10 ^ k` lies in an interval. -/
def Interval.holds (i : Interval) (n : Nat) (k : Int) : Bool :=
  let (a, lo) := common n k i.lower i.exponent
  let (_, hi) := common n k i.upper i.exponent
  if i.closed then lo ≤ a && a ≤ hi else lo < a && a < hi

/-- The decimal of an interval on the grid of the multiples of `10 ^ k`, of two the nearer. -/
def Interval.onGrid? (i : Interval) (k : Int) : Option Decimal :=
  let (unit, v) := common 1 k i.value i.exponent
  let n := v / unit
  match i.holds n k, i.holds (n + 1) k with
  | true, true => some ⟨if 2 * (v % unit) < unit then n else n + 1, k⟩
  | true, false => some ⟨n, k⟩
  | false, true => some ⟨n + 1, k⟩
  | false, false => none

/-- The first hit on grids that get ten times finer at each of `n` steps. -/
def Interval.search (i : Interval) (k : Int) : Nat → Option Decimal
  | 0 => none
  | n + 1 => match i.onGrid? k with
    | some d => some d
    | none => i.search (k - 1) n

/-- The least power of ten above `m * 2 ^ e`, or the one after it. -/
def scaleBound (m : Nat) (e : Int) : Int := (m.log2 + e + 1) * 30103 / 100000 + 1

/-- Moves the zeros at the end of the digits into the exponent, at most `n` of them. -/
def Decimal.strip (d : Decimal) : Nat → Decimal
  | 0 => d
  | n + 1 => if d.digits ≠ 0 ∧ d.digits % 10 = 0 then
      Decimal.strip ⟨d.digits / 10, d.exponent + 1⟩ n else d

/-- The exact decimal of `m * 2 ^ e`. -/
def exactDecimal (m : Nat) (e : Int) : Decimal :=
  if 0 ≤ e then ⟨m * Nat.pow 2 e.toNat, 0⟩ else ⟨m * Nat.pow 5 (-e).toNat, e⟩

/-- The shortest decimal of a positive number `m * 2 ^ e` of a format. -/
def shortest (f : Format) (m : Nat) (e : Int) : Decimal :=
  if m = 0 then ⟨0, 0⟩ else
  let d := ((interval f m e).search (scaleBound m e) 20).getD (exactDecimal m e)
  d.strip (digitCount d.digits)

example : shortest binary64 (3 * 2 ^ 51) (-52) = ⟨15, -1⟩ := by decide +kernel
example : shortest binary64 1 (-1074) = ⟨5, -324⟩ := by decide +kernel

end StoryScript.Numeral
