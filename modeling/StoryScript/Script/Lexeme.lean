import StoryScript.Script.Problem
import StoryScript.Markup.Reference
import StoryScript.Document.Lexeme
import StoryScript.Numeral.Layout
import StoryScript.Text.Blank

/-! The lexemes of a script: numbers, texts, characters, words and symbols. A minus sign in front
of a digit belongs to the number unless a value stands before it. -/
namespace StoryScript.Script
open Numeral

inductive Lexeme where
  | int (n : Int64)
  | float (x : Float)
  | text (s : String)
  | char (c : Char)
  | word (s : String)
  | symbol (s : String)
  deriving DecidableEq

def Lexeme.toText : Lexeme → String
  | int n => n.toInt.repr
  | float x => floatText x
  | text _ => "text"
  | char c => c.toString
  | word s => s
  | symbol s => s

/-- Words after which an operand begins. -/
def operandWords : List String := ["if", "in", "return", "throw", "while", "until"]

/-- Whether a sign after a lexeme belongs to an operand. -/
def Lexeme.beforeOperand : Lexeme → Bool
  | symbol s => s ≠ ")" && s ≠ "]" && s ≠ "\x7d" && s ≠ "."
  | word s => operandWords.contains s
  | _ => false

/-! ### Numbers -/

/-- The characters of a numeral, and its base when a letter after a leading zero gives one. -/
structure Scanned where
  read : List Char
  base : Option Nat
  rest : List Char

/-- The base that a letter after a leading zero stands for. -/
def baseOf? : Char → Option Nat
  | 'x' | 'X' => some 16
  | 'o' | 'O' => some 8
  | 'b' | 'B' => some 2
  | _ => none

/-- Reads on in a numeral; what has been read is in reverse. Underscores are passed over. A point
belongs to the numeral when a digit or a symbol comes after it, an `e` when a digit or a sign does;
`afterE` says that a sign may follow. -/
def scanNumber (read : List Char) (base : Option Nat) (afterE : Bool) : List Char → Scanned
  | [] => ⟨read.reverse, base, []⟩
  | c :: r =>
    let stop : Scanned := ⟨read.reverse, base, c :: r⟩
    if afterE && (c = '+' || c = '-') then scanNumber (c :: read) base false r
    else if c = '_' then scanNumber read base false r
    else if (Markup.digitOf? (base.getD 10) c).isSome then scanNumber (c :: read) base false r
    else if c = '.' then
      match r.head? with
      | some d =>
        if isDigit d then scanNumber ('.' :: read) base false r
        else if d = '_' || d = '.' || d.isAlpha then stop
        else scanNumber ('0' :: '.' :: read) base false r
      | none => stop
    else if c = 'e' then
      match r.head? with
      | some d =>
        if isDigit d || d = '+' || d = '-' then scanNumber ('e' :: read) base true r else stop
      | none => stop
    else match baseOf? c with
      | some b => if read = ['0'] then scanNumber (c :: read) (some b) false r else stop
      | none => stop

/-- The lexeme of a numeral. One that 64 bits cannot hold is a float; one with a base is taken
modulo the words of 64 bits. -/
def Scanned.lexeme? (s : Scanned) (negative : Bool) : Option Lexeme :=
  match s.base with
  | some b => do
    let n ← Markup.natOf? b (s.read.drop 2)
    if n < Nat.pow 2 64 then
      let v := Int64.ofInt n
      some (.int (if negative then -v else v))
    else none
  | none =>
    let cs := if negative then '-' :: s.read else s.read
    match readInt64? cs with
    | some n => some (.int n)
    | none => (readDouble? (.ofList cs)).map .float

/-! ### Texts -/

/-- The character of an escape of one letter. -/
def escapeOf? : Char → Option Char
  | '\\' => some '\\'
  | 't' => some '\t'
  | 'n' => some '\n'
  | 'r' => some '\r'
  | _ => none

/-- How many hexadecimal digits follow a letter in an escape. -/
def codeLength? : Char → Option Nat
  | 'x' => some 2
  | 'u' => some 4
  | 'U' => some 8
  | _ => none

/-- What the reader of a text is in the middle of: plain text, a doubled quote, an escape, or the
digits of a coded character with the number of those that are still to come. -/
inductive InText where
  | plain
  | doubled
  | escape
  | code (left : Nat) (digits : List Char)

/-- Reads on in a text up to the closing quote, which is written twice to stand for itself. -/
def scanText (quote : Char) (state : InText) (read : List Char) :
    List Char → Except SyntaxProblem (List Char × List Char)
  | [] => .error .malformedText
  | c :: r =>
    match state with
    | .plain =>
      if c = quote then
        if r.head? = some quote then scanText quote .doubled read r else .ok (read.reverse, r)
      else if c = '\\' then scanText quote .escape read r
      else if c = '\n' then .error .malformedText
      else scanText quote .plain (c :: read) r
    | .doubled => scanText quote .plain (c :: read) r
    | .escape =>
      if c = quote then scanText quote .plain (c :: read) r
      else match escapeOf? c, codeLength? c with
        | some d, _ => scanText quote .plain (d :: read) r
        | none, some n => scanText quote (.code n []) read r
        | none, none => .error .malformedText
    | .code left digits =>
      if (Markup.digitOf? 16 c).isNone then .error .malformedText
      else if 1 < left then scanText quote (.code (left - 1) (c :: digits)) read r
      else match Markup.natOf? 16 (c :: digits).reverse with
        | some n =>
          if n.isValidChar then scanText quote .plain (Char.ofNat n :: read) r
          else .error .malformedText
        | none => .error .malformedText

/-! ### Symbols -/

/-- The symbols of more than one character, the longer ones first. -/
def longSymbols : List String :=
  ["===", "!==", "**=", "<<=", ">>=", "...", "..=", "..<", "**", "==", "!=", "<=", ">=", "<<", ">>",
   "<-", "->", "=>", "&&", "||", "++", "--", "+=", "-=", "*=", "/=", "%=", "^=", "&=", "|=", "??", "?.",
   "?[", "::", ":=", "..", "(*", "*)", "#\x7b"]

def shortSymbols : List Char := "+-*/%^&|<>=!?:.,;()[]\x7b\x7d~@$#".toList

def symbolAt? (cs : List Char) : Option String :=
  match longSymbols.find? (·.toList.isPrefixOf cs) with
  | some s => some s
  | none => match cs with
    | c :: _ => if shortSymbols.contains c then some c.toString else none
    | [] => none

/-- The rest after a comment between `/*` and `*/`, which may hold others. -/
def skipComment (depth : Nat) : List Char → List Char
  | '*' :: '/' :: r => if depth = 0 then r else skipComment (depth - 1) r
  | '/' :: '*' :: r => skipComment (depth + 1) r
  | _ :: r => skipComment depth r
  | [] => []

/-- Whether a word has a letter before any digit. -/
def isName (cs : List Char) : Bool :=
  match cs.dropWhile (· = '_') with
  | c :: _ => c.isAlpha
  | [] => false

/-- The first lexeme of a text, none for a blank or a comment, and what follows it. `operand` says
whether an operand may begin here. -/
def lexemeAt (operand : Bool) (c : Char) (r : List Char) :
    Except SyntaxProblem (Option Lexeme × List Char) :=
  if isBlank c then .ok (none, r)
  else if isDigit c then number false [c] r
  else if isWordStart c then
    let w := c :: r.takeWhile isWordPart
    if isName w then .ok (some (.word (.ofList w)), r.dropWhile isWordPart)
    else .error (.unexpected (.ofList w))
  else if c = '"' then do
    let (s, r) ← scanText '"' .plain [] r
    return (some (.text (.ofList s)), r)
  else if c = '\'' then do
    let (s, r) ← scanText '\'' .plain [] r
    match s with
    | [d] => return (some (.char d), r)
    | _ => throw .malformedCharacter
  else match c, r with
    | '/', '/' :: r => .ok (none, r.dropWhile (· ≠ '\n'))
    | '/', '*' :: r => .ok (none, skipComment 0 r)
    | '-', d :: r' => if operand && isDigit d then number true [d] r' else symbol
    | _, _ => symbol
where
  number (negative : Bool) (read r : List Char) : Except SyntaxProblem (Option Lexeme × List Char) :=
    let s := scanNumber read none false r
    match s.lexeme? negative with
    | some l => .ok (some l, s.rest)
    | none => .error (.malformedNumber (.ofList s.read))
  symbol : Except SyntaxProblem (Option Lexeme × List Char) :=
    match symbolAt? (c :: r) with
    | some s => .ok (some (.symbol s), (c :: r).drop s.length)
    | none => .error (.unexpected c.toString)

/-- The lexemes of a text. Every lexeme takes characters, so the text ends. -/
def lexemes (operand : Bool) (cs : List Char) : Except SyntaxProblem (List Lexeme) :=
  match cs with
  | [] => .ok []
  | c :: r =>
    match lexemeAt operand c r with
    | .error e => .error e
    | .ok (l, r') =>
      if r'.length < (c :: r).length then
        match l with
        | none => lexemes operand r'
        | some l => (lexemes l.beforeOperand r').map (l :: ·)
      else .error .unexpectedEnd
termination_by cs.length
decreasing_by all_goals assumption

end StoryScript.Script
