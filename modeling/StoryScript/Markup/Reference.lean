import StoryScript.Markup.Cursor
import StoryScript.Numeral.Decimal

/-! References inside text and attribute values, and the treatment of line ends. A character that
a reference stands for is kept as it is; line ends written as such become single newlines in text
and blanks in attribute values. -/
namespace StoryScript.Markup

/-- A character of a text, written as itself or by a reference. -/
inductive Piece where
  | literal (c : Char)
  | reference (c : Char)
  deriving DecidableEq

/-- The value of a digit of a base up to sixteen. -/
def digitOf? (base : Nat) (c : Char) : Option Nat :=
  let value := match Numeral.digit? c with
    | some n => some n
    | none =>
      let l := c.toLower
      if 'a' ≤ l ∧ l ≤ 'f' then some (l.toNat - 'a'.toNat + 10) else none
  value.filter (· < base)

/-- The natural that digits of a base spell. -/
def natOf? (base : Nat) (cs : List Char) : Option Nat :=
  if cs.isEmpty then none
  else cs.foldlM (fun n c => (digitOf? base c).map (base * n + ·)) 0

/-- The character of a numeric reference. A number of 32 bits that is no character stands for the
replacement character; one that markup must not hold is malformed. -/
def characterOf? (base : Nat) (cs : List Char) : Option Char := do
  let n ← natOf? base cs
  if Nat.pow 2 32 ≤ n then none else
  let c := if n.isValidChar then Char.ofNat n else '\uFFFD'
  if isAllowed c then some c else none

/-- The character that the text between an ampersand and a semicolon stands for. -/
def referenced (place : Position) : List Char → Except Problem Char
  | '#' :: 'x' :: r => ofOption (characterOf? 16 r)
  | '#' :: r => ofOption (characterOf? 10 r)
  | name =>
    match name with
    | c :: r =>
      if isNameStart c && r.all isNamePart then
        match String.ofList name with
        | "quot" => .ok '"'
        | "amp" => .ok '&'
        | "apos" => .ok '\''
        | "lt" => .ok '<'
        | "gt" => .ok '>'
        | s => .error (.unknownEntity s place)
      else .error (.malformedEntity place)
    | [] => .error (.malformedEntity place)
where
  ofOption : Option Char → Except Problem Char
    | some c => .ok c
    | none => .error (.malformedEntity place)

/-- The pieces of a raw text. `open?` holds the place of an ampersand whose semicolon has not come
yet and what stands after it, in reverse. -/
def pieces (open? : Option (Position × List Char)) (p : Position) :
    List Char → Except Problem (List Piece)
  | [] => match open? with
    | none => .ok []
    | some (q, _) => .error (.malformedEntity q)
  | c :: r => match open? with
    | none =>
      if c = '&' then pieces (some (p, [])) (p.after c) r
      else do return .literal c :: (← pieces none (p.after c) r)
    | some (q, body) =>
      if c = ';' then do
        let d ← referenced q body.reverse
        return .reference d :: (← pieces none (p.after c) r)
      else pieces (some (q, c :: body)) (p.after c) r

/-- A character after a text in reverse: a carriage return before it becomes a newline, and so does
a carriage return at the end. -/
def pushText (out : List Char) (c : Char) (last : Bool) : List Char :=
  let push (o : List Char) := (if last && c = '\r' then '\n' else c) :: o
  match out with
  | '\r' :: o => if c = '\n' then '\n' :: o else push ('\n' :: o)
  | o => push o

/-- The text of pieces between tags. The character after a reference is kept as it is. -/
def joinText (out : List Char) (keep : Bool) : List Piece → List Char
  | [] => out.reverse
  | .reference c :: r => joinText (c :: out) true r
  | .literal c :: r =>
    if keep then joinText (c :: out) false r else joinText (pushText out c r.isEmpty) false r

/-- The value of pieces between quotes. -/
def joinAttribute : List Piece → List Char
  | [] => []
  | .reference c :: r => c :: joinAttribute r
  | .literal c :: r =>
    if c = '\r' && r.head? = some (.literal '\n') then joinAttribute r
    else (if isSpace c then ' ' else c) :: joinAttribute r

/-- The value of a raw attribute. -/
def attributeValue (raw : Cursor) : Except Problem String := do
  return .ofList (joinAttribute (← pieces none raw.place raw.rest))

/-- The text of a raw run between tags. -/
def textValue (raw : Cursor) : Except Problem (List Char) := do
  return joinText [] false (← pieces none raw.place raw.rest)

/-- The text of a section in which nothing is a reference. -/
def sectionValue (raw : List Char) : List Char := joinText [] false (raw.map .literal)

end StoryScript.Markup
