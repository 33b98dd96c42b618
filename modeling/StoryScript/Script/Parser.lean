import StoryScript.Script.Expr
import StoryScript.Script.Lexeme

/-! Reading of one expression from lexemes. Operators are joined by how tightly they bind; an
expression may be nested 32 levels deep. -/
namespace StoryScript.Script

/-- A step of reading: it takes lexemes, or finds a fault. -/
abbrev Read := StateT (List Lexeme) (Except SyntaxProblem)

namespace Read

/-- The greatest level of nesting. -/
def levelLimit : Nat := 32

def peek? : Read (Option Lexeme) := return (← get).head?

def skip : Read Unit := modify List.tail

/-- The fault of the next lexeme. -/
def fail {α : Type} : Read α := do
  match ← peek? with
  | some l => throw (.unexpected l.toText)
  | none => throw .unexpectedEnd

/-- Takes a symbol if it comes next. -/
def accept (s : String) : Read Bool := do
  if (← peek?) = some (.symbol s) then
    skip
    return true
  else return false

/-- Takes a symbol that must come next. -/
def expect (s : String) : Read Unit := do
  unless ← accept s do fail

/-- Checks a level of nesting. -/
def enter (level : Nat) : Read Unit := do
  if levelLimit < level then throw .tooDeep

/-- Words that are no names. -/
def keywords : List String :=
  ["true", "false", "if", "else", "in", "let", "const", "switch", "do", "while", "until", "loop",
   "for", "fn", "private", "break", "continue", "return", "throw", "try", "catch", "import", "export",
   "as", "public", "protected", "super", "new", "use", "module", "package", "var", "static", "shared",
   "with", "is", "goto", "exit", "match", "case", "default", "void", "null", "nil", "spawn", "thread",
   "go", "sync", "async", "await", "yield"]

/-- Words that name functions and nothing else. -/
def functionWords : List String :=
  ["print", "debug", "type_of", "eval", "Fn", "call", "curry", "is_def_var", "is_def_fn", "is_shared"]

/-- The operator that comes next, and how many lexemes it takes. -/
def operator? : Read (Option (Infix × Nat)) := do
  match ← get with
  | .symbol "!" :: .word "in" :: _ => return some (.notIn, 2)
  | .symbol s :: _ => return (Infix.ofSymbol? s).map (·, 1)
  | .word "in" :: _ => return some (.isIn, 1)
  | _ => return none

/-- An expression with a minus sign in front. -/
def negated : Expr → Expr
  | .int n => if n = Int64.minValue then .float (-Numeral.floatOfInt n.toInt) else .int (-n)
  | .float x => .float (-x)
  | e => .sign .neg e

/-- An expression with a plus sign in front. -/
def positive : Expr → Expr
  | .int n => .int n
  | .float x => .float x
  | e => .sign .pos e

mutual
def expression : Nat → Nat → Read Expr
  | 0, _ => throw .tooDeep
  | fuel + 1, level => do
    enter (level + 1)
    let left ← unary fuel (level + 1)
    binary fuel (level + 1) 1 left
termination_by structural fuel => fuel

/-- The operators that follow a left operand and bind more tightly than `parent`. -/
def binary : Nat → Nat → Nat → Expr → Read Expr
  | 0, _, _, _ => throw .tooDeep
  | fuel + 1, level, parent, left => do
    enter (level + 1)
    match ← operator? with
    | none => return left
    | some (op, size) =>
      let p := op.precedence
      if p < parent || (p = parent && !op.bindsRight) then return left
      modify (·.drop size)
      let right ← unary fuel (level + 1)
      let next := ((← operator?).map (·.1.precedence)).getD 0
      let right ← if p < next || (p = next && op.bindsRight) then
          binary fuel (level + 1) p right
        else pure right
      match op.build? left right with
      | some e => binary fuel level parent e
      | none => throw (.wrongType "a boolean expression")
termination_by structural fuel => fuel

/-- An operand with the signs in front of it. -/
def unary : Nat → Nat → Read Expr
  | 0, _ => throw .tooDeep
  | fuel + 1, level => do
    match ← peek? with
    | some (.symbol "-") =>
      enter (level + 1)
      skip
      return negated (← unary fuel (level + 1))
    | some (.symbol "+") =>
      enter (level + 1)
      skip
      return positive (← unary fuel (level + 1))
    | some (.symbol "!") =>
      enter (level + 1)
      skip
      return .sign .not (← unary fuel (level + 1))
    | _ => suffixes fuel level (← primary fuel level)
termination_by structural fuel => fuel

/-- An operand without signs and without what may follow it. -/
def primary : Nat → Nat → Read Expr
  | 0, _ => throw .tooDeep
  | fuel + 1, level => do
    match ← peek? with
    | none => throw .unexpectedEnd
    | some (.int n) => skip; return .int n
    | some (.float x) => skip; return .float x
    | some (.text s) => skip; return .text s
    | some (.char c) => skip; return .char c
    | some (.symbol "(") =>
      enter (level + 1)
      skip
      if ← accept ")" then return .unit
      let e ← expression fuel (level + 1)
      expect ")"
      return e
    | some (.symbol "[") =>
      enter (level + 1)
      skip
      return .array (← items fuel (level + 1) "]")
    | some (.symbol "#\x7b") =>
      enter (level + 1)
      skip
      return .map (← fields fuel (level + 1) [])
    | some (.word name) =>
      if name = "true" || name = "false" then
        skip
        return .bool (name = "true")
      else if name = "if" then
        skip
        choice fuel level
      else if keywords.contains name then fail
      else
        skip
        if ← accept "(" then
          enter (level + 1)
          return .call name (← items fuel (level + 1) ")")
        else if functionWords.contains name then fail
        else return .variable name
    | some _ => fail
termination_by structural fuel => fuel

/-- What follows an operand: properties, calls on it, and indices. -/
def suffixes : Nat → Nat → Expr → Read Expr
  | 0, _, _ => throw .tooDeep
  | fuel + 1, level, e => do
    if ← accept "." then
      enter (level + 1)
      match ← peek? with
      | some (.word name) =>
        if keywords.contains name then fail
        else
          skip
          if ← accept "(" then
            let args ← items fuel (level + 1) ")"
            suffixes fuel level (.call name (e :: args))
          else if functionWords.contains name then fail
          else suffixes fuel level (.property e name)
      | _ => fail
    else if ← accept "[" then
      enter (level + 1)
      let i ← expression fuel (level + 1)
      expect "]"
      if e.mayIndex i then suffixes fuel level (.index e i)
      else throw (.wrongType "an index that fits")
    else return e
termination_by structural fuel => fuel

/-- Expressions between commas up to a closing symbol; a comma may stand before it. -/
def items : Nat → Nat → String → Read (List Expr)
  | 0, _, _ => throw .tooDeep
  | fuel + 1, level, close => do
    if ← accept close then return []
    let e ← expression fuel level
    if ← accept close then return [e]
    expect ","
    return e :: (← items fuel level close)
termination_by structural fuel => fuel

/-- The fields of a map up to its closing brace. -/
def fields : Nat → Nat → List String → Read (List (String × Expr))
  | 0, _, _ => throw .tooDeep
  | fuel + 1, level, seen => do
    if ← accept "\x7d" then return []
    let key ← match ← peek? with
      | some (.word s) => if keywords.contains s || functionWords.contains s then fail else pure s
      | some (.text s) => pure s
      | _ => fail
    if seen.contains key then throw (.repeatedKey key)
    skip
    expect ":"
    let e ← expression fuel level
    if ← accept "\x7d" then return [(key, e)]
    expect ","
    return (key, e) :: (← fields fuel level (key :: seen))
termination_by structural fuel => fuel

/-- A choice, after its first word. -/
def choice : Nat → Nat → Read Expr
  | 0, _ => throw .tooDeep
  | fuel + 1, level => do
    enter (level + 1)
    let guard ← expression fuel (level + 1)
    unless guard.mayBeBool do throw (.wrongType "a boolean expression")
    let yes ← block fuel (level + 1)
    if (← peek?) = some (.word "else") then
      skip
      if (← peek?) = some (.word "if") then
        skip
        return .choice guard yes (← choice fuel (level + 1))
      else return .choice guard yes (← block fuel (level + 1))
    else return .choice guard yes .unit
termination_by structural fuel => fuel

/-- One expression between braces. -/
def block : Nat → Nat → Read Expr
  | 0, _ => throw .tooDeep
  | fuel + 1, level => do
    enter (level + 1)
    expect "\x7b"
    let e ← expression fuel (level + 1)
    expect "\x7d"
    return e
termination_by structural fuel => fuel
end

end Read

/-- The expression of a script's text. Every lexeme is read through at most eight steps. -/
def Expr.parse (cs : List Char) : Except SyntaxProblem Expr := do
  let ls ← lexemes true cs
  let (e, r) ← Read.expression (8 * ls.length + 8) 0 ls
  match r with
  | [] => return e
  | l :: _ => throw (.unexpected l.toText)

end StoryScript.Script
