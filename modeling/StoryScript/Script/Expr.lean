import StoryScript.Value

/-! Expressions of scripts. -/
namespace StoryScript.Script

/-- The operators between two operands of which both are evaluated. -/
inductive Operator where
  | add | sub | mul | div | mod | pow | shl | shr
  | bitAnd | bitOr | bitXor
  | eq | ne | lt | le | gt | ge
  | contains
  deriving DecidableEq

/-- The operators in front of an operand. -/
inductive Sign where
  | neg
  | pos
  | not
  deriving DecidableEq

inductive Expr where
  | unit
  | bool (b : Bool)
  | int (n : Int64)
  | float (x : Float)
  | text (s : String)
  | char (c : Char)
  | variable (name : String)
  | array (items : List Expr)
  | map (fields : List (String × Expr))
  | sign (op : Sign) (operand : Expr)
  | operation (op : Operator) (left right : Expr)
  | and (left right : Expr)
  | or (left right : Expr)
  | orElse (left right : Expr)
  | choice (guard thenExpr elseExpr : Expr)
  | index (container position : Expr)
  | property (container : Expr) (name : String)
  | call (name : String) (args : List Expr)

instance : Inhabited Expr := ⟨.unit⟩

namespace Expr

/-- Whether an expression may be a boolean, as far as its form tells. -/
def mayBeBool : Expr → Bool
  | unit | int _ | float _ | text _ | char _ | array _ | map _ => false
  | _ => true

/-- Whether one expression may index another, as far as their forms tell. -/
def mayIndex (container position : Expr) : Bool :=
  match position with
  | int _ => !isFlat && !isMap
  | text _ => !isFlat && !isSequence
  | float _ | char _ | unit | bool _ | and _ _ | or _ _ => false
  | _ => true
where
  isFlat : Bool := match container with
    | float _ | char _ | and _ _ | or _ _ | bool _ | unit => true
    | _ => false
  isMap : Bool := match container with
    | map _ => true
    | _ => false
  isSequence : Bool := match container with
    | array _ | text _ => true
    | _ => false

end Expr

/-- An operator between two operands as it is written. -/
inductive Infix where
  | plain (op : Operator)
  | and
  | or
  | orElse
  | isIn
  | notIn
  deriving DecidableEq

namespace Infix

/-- How tightly an operator binds. -/
def precedence : Infix → Nat
  | or | plain .bitOr | plain .bitXor => 30
  | and | plain .bitAnd => 60
  | plain .eq | plain .ne => 90
  | isIn | notIn => 110
  | plain .lt | plain .le | plain .gt | plain .ge => 130
  | orElse => 135
  | plain .add | plain .sub => 150
  | plain .mul | plain .div | plain .mod => 180
  | plain .pow => 190
  | plain .shl | plain .shr => 210
  | plain .contains => 0

/-- Whether of equal operators in a row the last is taken first. -/
def bindsRight (op : Infix) : Bool := op = plain .pow

/-- The operator that a symbol stands for. -/
def ofSymbol? : String → Option Infix
  | "+" => some (plain .add)
  | "-" => some (plain .sub)
  | "*" => some (plain .mul)
  | "/" => some (plain .div)
  | "%" => some (plain .mod)
  | "**" => some (plain .pow)
  | "<<" => some (plain .shl)
  | ">>" => some (plain .shr)
  | "&" => some (plain .bitAnd)
  | "|" => some (plain .bitOr)
  | "^" => some (plain .bitXor)
  | "==" => some (plain .eq)
  | "!=" => some (plain .ne)
  | "<" => some (plain .lt)
  | "<=" => some (plain .le)
  | ">" => some (plain .gt)
  | ">=" => some (plain .ge)
  | "&&" => some and
  | "||" => some or
  | "??" => some orElse
  | _ => none

/-- The expression of an operator and its operands, unless their forms rule it out. -/
def build? (op : Infix) (l r : Expr) : Option Expr :=
  match op with
  | plain op => some (.operation op l r)
  | and => if l.mayBeBool && r.mayBeBool then some (.and l r) else none
  | or => if l.mayBeBool && r.mayBeBool then some (.or l r) else none
  | orElse => some (.orElse l r)
  | isIn => some (.operation .contains r l)
  | notIn => some (.sign .not (.operation .contains r l))

end Infix
end StoryScript.Script
