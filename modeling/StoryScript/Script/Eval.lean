import StoryScript.Script.Arithmetic

/-! Evaluation of expressions. -/
namespace StoryScript.Script
open Numeral

/-- The larger of two numbers or texts. -/
def larger : Datum → Datum → Option Datum
  | .int a, .int b => some (.int (if b ≤ a then a else b))
  | .float x, .float y => some (.float (if y ≤ x then x else y))
  | .int a, .float y => let x := floatOfInt a.toInt; some (.float (if y ≤ x then x else y))
  | .float x, .int b => let y := floatOfInt b.toInt; some (.float (if y ≤ x then x else y))
  | .text s, .text t => some (.text (if t ≤ s then s else t))
  | .char c, .char d => some (.char (if d ≤ c then c else d))
  | _, _ => none

/-- The smaller of two numbers or texts. -/
def smaller : Datum → Datum → Option Datum
  | .int a, .int b => some (.int (if a ≤ b then a else b))
  | .float x, .float y => some (.float (if x ≤ y then x else y))
  | .int a, .float y => let x := floatOfInt a.toInt; some (.float (if x ≤ y then x else y))
  | .float x, .int b => let y := floatOfInt b.toInt; some (.float (if x ≤ y then x else y))
  | .text s, .text t => some (.text (if s ≤ t then s else t))
  | .char c, .char d => some (.char (if c ≤ d then c else d))
  | _, _ => none

/-- The integer part of a float that 64 bits can hold. -/
def toInteger (x : Float) : Outcome Datum :=
  if x < -9223372036854775808.0 || 9223372036854775808.0 < x then .error .overflow
  else .ok (.int (truncate x))

/-- A function on data. -/
def apply (name : String) (args : List Datum) : Outcome Datum :=
  let given : Option Datum → Outcome Datum
    | some d => .ok d
    | none => .error (noFunction name args)
  match name, args with
  | "len", [.text s] => .ok (.int (.ofNat s.length))
  | "len", [.array items] => .ok (.int (.ofNat items.length))
  | "len", [.map fields] => .ok (.int (.ofNat fields.length))
  | "abs", [.int n] => checked n.toInt.natAbs
  | "abs", [.float x] => .ok (.float x.abs)
  | "max", [a, b] => given (larger a b)
  | "min", [a, b] => given (smaller a b)
  | "to_string", [d] => .ok (.text d.toText)
  | "to_int", [.int n] => .ok (.int n)
  | "to_int", [.float x] => toInteger x
  | "to_int", [.char c] => .ok (.int (.ofNat c.toNat))
  | "to_float", [.int n] => .ok (.float (floatOfInt n.toInt))
  | "floor", [.float x] => .ok (.float x.floor)
  | "parse_int", [.text s] =>
    match readInt64? (trimChars s.toList) with
    | some n => .ok (.int n)
    | none => .error (.numberInvalid s)
  | "parse_float", [.text s] =>
    match readDouble? (trim s) with
    | some x => .ok (.float x)
    | none => .error (.numberInvalid s)
  | "contains", [a, b] => given ((holds a b).map .bool)
  | _, _ => .error (noFunction name args)

/-- A datum that must be a boolean. -/
def asBool : Datum → Outcome Bool
  | .bool b => .ok b
  | _ => .error .notBoolean

/-- The data that symbols stand for. -/
abbrev Bindings := List (String × Datum)

mutual
def Expr.eval (env : Bindings) : Expr → Outcome Datum
  | .unit => .ok .unit
  | .bool b => .ok (.bool b)
  | .int n => .ok (.int n)
  | .float x => .ok (.float x)
  | .text s => .ok (.text s)
  | .char c => .ok (.char c)
  | .variable name =>
    match Datum.field? env name with
    | some d => .ok d
    | none => .error (.variableUnknown name)
  | .array items => (evalAll env items).map .array
  | .map fields => (evalFields env fields).map .map
  | .sign s e => do applySign s (← e.eval env)
  | .operation op l r => do
    let a ← l.eval env
    operate op a (← r.eval env)
  | .and l r => do
    if ← asBool (← l.eval env) then return .bool (← asBool (← r.eval env)) else return .bool false
  | .or l r => do
    if ← asBool (← l.eval env) then return .bool true else return .bool (← asBool (← r.eval env))
  | .orElse l r => do
    match ← l.eval env with
    | .unit => r.eval env
    | d => return d
  | .choice guard yes no => do
    if ← asBool (← guard.eval env) then yes.eval env else no.eval env
  | .index container position => do
    let c ← container.eval env
    indexInto c (← position.eval env)
  | .property container name => do propertyOf (← container.eval env) name
  | .call name args => do apply name (← evalAll env args)

/-- The data of expressions, from left to right. -/
def evalAll (env : Bindings) : List Expr → Outcome (List Datum)
  | [] => .ok []
  | e :: r => do
    let d ← e.eval env
    return d :: (← evalAll env r)

/-- The fields of a map, from left to right. -/
def evalFields (env : Bindings) : List (String × Expr) → Outcome (List (String × Datum))
  | [] => .ok []
  | (k, e) :: r => do
    let d ← e.eval env
    return Table.place k d (← evalFields env r)
end

end StoryScript.Script
