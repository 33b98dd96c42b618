import StoryScript.Markup.Character
import StoryScript.Markup.Problem

/-! Scanning of a markup text: a cursor that knows its place, and the steps that read from it. -/
namespace StoryScript.Markup

def Position.after (p : Position) (c : Char) : Position :=
  if c = '\n' then ⟨p.line + 1, 1⟩ else ⟨p.line, p.column + 1⟩

/-- The rest of a text and the place where it begins. -/
structure Cursor where
  rest : List Char
  place : Position

def Cursor.start (s : String) : Cursor := ⟨s.toList, ⟨1, 1⟩⟩

def Cursor.advance : Nat → Cursor → Cursor
  | n + 1, ⟨c :: r, p⟩ => Cursor.advance n ⟨r, p.after c⟩
  | _, k => k

/-- A step of scanning: it moves a cursor, or finds a fault. -/
abbrev Scan := StateT Cursor (Except Problem)

namespace Scan

def here : Scan Position := return (← get).place

def rest : Scan (List Char) := return (← get).rest

def atEnd : Scan Bool := return (← get).rest.isEmpty

def skip (n : Nat) : Scan Unit := modify (Cursor.advance n)

/-- The character at the cursor, which must not be at the end. -/
def current : Scan Char := do
  match (← get).rest with
  | c :: _ => pure c
  | [] => throw .endOfText

def startsWith (s : String) : Scan Bool := return s.toList.isPrefixOf (← get).rest

/-- Moves over the characters that fulfil a test. -/
def skipWhile (p : Char → Bool) : Scan Unit := do
  skip ((← get).rest.takeWhile p).length

def skipSpaces : Scan Unit := skipWhile isSpace

def expect (c : Char) : Scan Unit := do
  let found ← current
  if found = c then skip 1 else throw (.expectedCharacter c (firstByte found) (← here))

def expectText (s : String) : Scan Unit := do
  if ← startsWith s then skip s.length else throw (.expectedText s (← here))

/-- Splits a text where a test of the rest first holds; the characters before it must be allowed
in markup. -/
def cutAllowed (stop : List Char → Bool) : List Char → Position → Except Problem (List Char × Cursor)
  | [], p => .ok ([], ⟨[], p⟩)
  | c :: r, p =>
    if !isAllowed c then .error (.nonMarkupCharacter c p)
    else if stop (c :: r) then .ok ([], ⟨c :: r, p⟩)
    else do
      let (taken, k) ← cutAllowed stop r (p.after c)
      return (c :: taken, k)

/-- Takes characters up to where a test of the rest first holds. -/
def takeUntil (stop : List Char → Bool) : Scan (List Char) := do
  let k ← get
  let (taken, k) ← cutAllowed stop k.rest k.place
  set k
  return taken

/-- A name in two parts: the text before a colon, if there is one, and the text after it. -/
structure QName where
  ns : String
  name : String
  deriving DecidableEq

def QName.toText (q : QName) : String := if q.ns = "" then q.name else q.ns ++ ":" ++ q.name

/-- Reads a name that may have one colon; both parts must begin as names do. -/
def qualifiedName : Scan QName := do
  let start ← here
  let taken := (← rest).takeWhile isNamePart
  let bad : Scan QName := throw (.invalidName start)
  let before := taken.takeWhile (· ≠ ':')
  let after := taken.dropWhile (· ≠ ':')
  let (ns, name) := match after with
    | [] => ([], before)
    | _ :: r => (before, r)
  if name.contains ':' then bad
  else match ns.head?, name.head? with
    | _, none => bad
    | some n, some c => if isNameStart n && isNameStart c then accept taken ns name else bad
    | none, some c => if isNameStart c then accept taken ns name else bad
where
  accept (taken ns name : List Char) : Scan QName := do
    skip taken.length
    return ⟨.ofList ns, .ofList name⟩

/-- Reads a name in which a colon has no meaning. -/
def plainName : Scan String := do
  let start ← here
  match ← rest with
  | c :: r =>
    if isNameStart c then
      let taken := c :: r.takeWhile isNamePart
      skip taken.length
      return .ofList taken
    else throw (.invalidName start)
  | [] => throw (.invalidName start)

/-- Reads an attribute: its name, and its raw value with the place where that begins. -/
def attributePair : Scan (QName × Cursor) := do
  let name ← qualifiedName
  skipSpaces
  expect '='
  skipSpaces
  let quote ← current
  if quote ≠ '"' && quote ≠ '\'' then
    throw (.expectedOneOf "a quote" (firstByte quote) (← here))
  skip 1
  let start ← here
  let value ← takeUntil fun r => r.head? = some quote || r.head? = some '<'
  expect quote
  return (name, ⟨value, start⟩)

end Scan
end StoryScript.Markup
