import StoryScript.Script.Datum

/-! The operators of scripts on data. Integers have 64 bits and never wrap around; an integer
beside a float counts as a float; a text beside any datum is joined with that datum's text. Data of
different types are never equal and never in order. -/
namespace StoryScript.Script
open Numeral

abbrev Outcome := Except RunProblem

/-- An integer result that 64 bits must hold. -/
def checked (n : Int) : Outcome Datum :=
  if fitsInt64 n then .ok (.int (.ofInt n)) else .error .overflow

/-- The remainder of a division of doubles toward zero, with the sign of the dividend. -/
def floatRemainder (x y : Float) : Float :=
  match decodeFloat x, decodeFloat y with
  | .finite negative m e, .finite _ n k =>
    if n = 0 then 0 / 0 else
    let low := min e k
    let r := (m * Nat.pow 2 (e - low).toNat) % (n * Nat.pow 2 (k - low).toNat)
    (Decoded.finite negative r low).toFloat
  | .finite _ _ _, .infinite _ => x
  | _, _ => 0 / 0

/-- A shift to the left; one by 64 places or more leaves nothing. -/
def shiftLeft (n : Int64) (k : Nat) : Int64 := if k < 64 then .ofInt (n.toInt * Nat.pow 2 k) else 0

/-- A shift to the right; one by 64 places or more leaves only the sign. -/
def shiftRight (n : Int64) (k : Nat) : Int64 := .ofInt (n.toInt.fdiv (Nat.pow 2 (min k 64)))

def intOperation (op : Operator) (a b : Int64) : Outcome (Option Datum) :=
  let x := a.toInt
  let y := b.toInt
  match op with
  | .add => some <$> checked (x + y)
  | .sub => some <$> checked (x - y)
  | .mul => some <$> checked (x * y)
  | .div => if y = 0 then .error .divisionByZero else some <$> checked (x.tdiv y)
  | .mod =>
    if y = 0 then .error .divisionByZero
    else if y = -1 ∧ x = -Nat.pow 2 63 then .error .overflow
    else some <$> checked (x.tmod y)
  | .pow =>
    if y < 0 ∨ Nat.pow 2 32 ≤ y then .error .exponentInvalid
    else if x.natAbs ≤ 1 then some <$> checked (x.pow (y.toNat % 2 + if y = 0 then 0 else 2))
    else if 64 ≤ y then .error .overflow
    else some <$> checked (x.pow y.toNat)
  | .shl => .ok (some (.int (if y < 0 then shiftRight a y.natAbs else shiftLeft a y.natAbs)))
  | .shr => .ok (some (.int (if y < 0 then shiftLeft a y.natAbs else shiftRight a y.natAbs)))
  | .bitAnd => .ok (some (.int (a &&& b)))
  | .bitOr => .ok (some (.int (a ||| b)))
  | .bitXor => .ok (some (.int (a ^^^ b)))
  | .eq => .ok (some (.bool (x = y)))
  | .ne => .ok (some (.bool (x ≠ y)))
  | .lt => .ok (some (.bool (x < y)))
  | .le => .ok (some (.bool (x ≤ y)))
  | .gt => .ok (some (.bool (y < x)))
  | .ge => .ok (some (.bool (y ≤ x)))
  | .contains => .ok none

def floatOperation (op : Operator) (x y : Float) : Option Datum :=
  match op with
  | .add => some (.float (x + y))
  | .sub => some (.float (x - y))
  | .mul => some (.float (x * y))
  | .div => some (.float (x / y))
  | .mod => some (.float (floatRemainder x y))
  | .pow => some (.float (x.pow y))
  | .eq => some (.bool (x == y))
  | .ne => some (.bool (!(x == y)))
  | .lt => some (.bool (x < y))
  | .le => some (.bool (x ≤ y))
  | .gt => some (.bool (y < x))
  | .ge => some (.bool (y ≤ x))
  | _ => none

/-- Comparisons of two things in a linear order. -/
def orderOperation (op : Operator) (c : Ordering) : Option Datum :=
  match op with
  | .eq => some (.bool (c = .eq))
  | .ne => some (.bool (c ≠ .eq))
  | .lt => some (.bool (c = .lt))
  | .le => some (.bool (c ≠ .gt))
  | .gt => some (.bool (c = .gt))
  | .ge => some (.bool (c ≠ .lt))
  | _ => none

/-- A text without the occurrences of another; an empty text occurs nowhere that matters. -/
def removeAll (part : List Char) (skip : Nat) : List Char → List Char
  | [] => []
  | c :: r =>
    if 0 < skip then removeAll part (skip - 1) r
    else if !part.isEmpty && part.isPrefixOf (c :: r) then removeAll part (part.length - 1) r
    else c :: removeAll part 0 r

def textOperation (op : Operator) (s t : List Char) : Option Datum :=
  match op with
  | .add => some (.text (.ofList (s ++ t)))
  | .sub => some (.text (.ofList (removeAll t 0 s)))
  | _ => orderOperation op (compare (String.ofList s) (String.ofList t))

/-- The order of two characters, of which the second may be missing, and two others. -/
def pairOrder (a b : Option Char × Option Char) : Ordering :=
  (compareOption a.1 b.1).then (compareOption a.2 b.2)
where
  compareOption : Option Char → Option Char → Ordering
    | none, none => .eq
    | none, some _ => .lt
    | some _, none => .gt
    | some c, some d => compare c.toNat d.toNat

def firstTwo (cs : List Char) : Option Char × Option Char := (cs[0]?, cs[1]?)

def unlike (op : Operator) : Option Datum :=
  match op with
  | .ne => some (.bool true)
  | .eq | .lt | .le | .gt | .ge => some (.bool false)
  | _ => none

def hasPart (part : List Char) : List Char → Bool
  | [] => part.isEmpty
  | c :: r => part.isPrefixOf (c :: r) || hasPart part r

def mergeFields (fields : List (String × Datum)) : List (String × Datum) → List (String × Datum)
  | [] => fields
  | (k, d) :: r => mergeFields (Table.place k d fields) r

mutual
/-- Whether two data are equal: items and fields one by one, numbers by value. -/
def equal : Datum → Datum → Bool
  | .unit, .unit => true
  | .bool a, .bool b => a == b
  | .int a, .int b => a == b
  | .int a, .float y => floatOfInt a.toInt == y
  | .float x, .int b => x == floatOfInt b.toInt
  | .float x, .float y => x == y
  | .text s, .text t => s == t
  | .char c, .char d => c == d
  | .char c, .text t => t.toList == [c]
  | .text s, .char d => s.toList == [d]
  | .array as, .array bs => equalItems as bs
  | .map as, .map bs => equalFields as bs
  | _, _ => false

def equalItems : List Datum → List Datum → Bool
  | [], [] => true
  | a :: as, b :: bs => equal a b && equalItems as bs
  | _, _ => false

def equalFields : List (String × Datum) → List (String × Datum) → Bool
  | [], [] => true
  | (j, a) :: as, (k, b) :: bs => j == k && equal a b && equalFields as bs
  | _, _ => false
end

/-- Whether a container holds a datum. -/
def holds (container d : Datum) : Option Bool :=
  match container, d with
  | .array items, d => some (items.any (equal · d))
  | .text s, .text t => some (hasPart t.toList s.toList)
  | .text s, .char c => some (s.toList.contains c)
  | .map fields, .text k => some (Datum.field? fields k).isSome
  | _, _ => none

/-- Operators on two data that are not both integers; none where there is no such operator. -/
def mixedOperation (op : Operator) : Datum → Datum → Option Datum
  | .float x, .float y => floatOperation op x y
  | .int a, .float y => floatOperation op (floatOfInt a.toInt) y
  | .float x, .int b => floatOperation op x (floatOfInt b.toInt)
  | .bool a, .bool b => match op with
    | .bitAnd => some (.bool (a && b))
    | .bitOr => some (.bool (a || b))
    | .bitXor => some (.bool (a != b))
    | .eq => some (.bool (a == b))
    | .ne => some (.bool (a != b))
    | _ => none
  | .unit, .unit => match op with
    | .eq => some (.bool true)
    | .ne | .lt | .le | .gt | .ge => some (.bool false)
    | _ => none
  | .text s, .text t => textOperation op s.toList t.toList
  | .char c, .char d => match op with
    | .add => some (.text (.ofList [c, d]))
    | _ => orderOperation op (compare c.toNat d.toNat)
  | .char c, .text t => match op with
    | .add => some (.text (.ofList (c :: t.toList)))
    | _ => orderOperation op (pairOrder (some c, none) (firstTwo t.toList))
  | .text s, .char d => match op with
    | .add => some (.text (.ofList (s.toList ++ [d])))
    | .sub => some (.text (.ofList (removeAll [d] 0 s.toList)))
    | _ => orderOperation op (pairOrder (firstTwo s.toList) (some d, none))
  | .array as, .array bs => match op with
    | .add => some (.array (as ++ bs))
    | .eq => some (.bool (equalItems as bs))
    | .ne => some (.bool !(equalItems as bs))
    | _ => none
  | .map as, .map bs => match op with
    | .add => some (.map (mergeFields as bs))
    | .eq => some (.bool (equalFields as bs))
    | .ne => some (.bool !(equalFields as bs))
    | _ => none
  | .text s, d => match op with
    | .add => some (.text (s ++ d.toText))
    | _ => unlike op
  | d, .text s => match op with
    | .add => some (.text (d.toText ++ s))
    | _ => unlike op
  | _, _ => unlike op

/-- The name of an operator as a function. -/
def Operator.name : Operator → String
  | add => "+" | sub => "-" | mul => "*" | div => "/" | mod => "%" | pow => "**"
  | shl => "<<" | shr => ">>" | bitAnd => "&" | bitOr => "|" | bitXor => "^"
  | eq => "==" | ne => "!=" | lt => "<" | le => "<=" | gt => ">" | ge => ">="
  | contains => "contains"

/-- The fault of a function that does not exist for the types of its arguments. -/
def noFunction (name : String) (args : List Datum) : RunProblem :=
  .functionUnknown (name ++ "(" ++ ", ".intercalate (args.map Datum.typeName) ++ ")")

/-- An operator on two data. -/
def operate (op : Operator) (a b : Datum) : Outcome Datum := do
  let result ← match op, a, b with
    | .contains, a, b => pure ((holds a b).map .bool)
    | op, .int x, .int y => intOperation op x y
    | op, a, b => pure (mixedOperation op a b)
  match result with
  | some d => return d
  | none => throw (noFunction op.name [a, b])

/-- A sign on a datum. -/
def applySign (s : Sign) (d : Datum) : Outcome Datum :=
  match s, d with
  | .neg, .int n => checked (-n.toInt)
  | .neg, .float x => .ok (.float (-x))
  | .pos, .int n => .ok (.int n)
  | .pos, .float x => .ok (.float x)
  | .not, .bool b => .ok (.bool !b)
  | .neg, d => .error (noFunction "-" [d])
  | .pos, d => .error (noFunction "+" [d])
  | .not, d => .error (noFunction "!" [d])

/-- The place that an index means in a sequence; a negative one counts from the end. -/
def placeOf? (length : Nat) (i : Int64) : Option Nat :=
  let n := i.toInt
  if 0 ≤ n then if n.toNat < length then some n.toNat else none
  else if n.natAbs ≤ length then some (length - n.natAbs) else none

/-- An item of an array, a character of a text, a bit of an integer, or a field of a map. -/
def indexInto (container position : Datum) : Outcome Datum :=
  match container, position with
  | .array items, .int i => located items.length i fun k => items[k]?
  | .text s, .int i => located s.toList.length i fun k => (s.toList[k]?).map .char
  | .int n, .int i => located 64 i fun k => some (.bool (n.toBitVec.getLsbD k))
  | .map fields, .text k => .ok ((Datum.field? fields k).getD .unit)
  | _, _ => .error .notIndexable
where
  located (length : Nat) (i : Int64) (get? : Nat → Option Datum) : Outcome Datum :=
    match (placeOf? length i).bind get? with
    | some d => .ok d
    | none => .error .outOfBounds

/-- A property of a datum; a map has every property, and those it lacks are the unit. -/
def propertyOf (d : Datum) (name : String) : Outcome Datum :=
  match d with
  | .map fields => .ok ((Datum.field? fields name).getD .unit)
  | .float x => if name = "floor" then .ok (.float x.floor) else .error (.noProperty name)
  | .text s => if name = "len" then .ok (.int (.ofNat s.length)) else .error (.noProperty name)
  | .array items =>
    if name = "len" then .ok (.int (.ofNat items.length)) else .error (.noProperty name)
  | _ => .error (.noProperty name)

end StoryScript.Script
