import StoryScript.Json.Basic
import StoryScript.Markup.Reference

/-! Reading of JSON, one character at a time. The reader's state is what it is in the middle of
(between marks, in a word, in a quoted text) and a stack of the arrays and objects that are open.
Values may be nested 127 levels deep. -/
namespace StoryScript.Json

inductive Mark where
  | openArray
  | closeArray
  | openObject
  | closeObject
  | comma
  | colon
  | scalar (j : Json)
  | text (s : String)

/-- What the reader is in the middle of. Characters read are in reverse. -/
inductive Mode where
  | between
  | word (read : List Char)
  | quoted (read : List Char)
  | escape (read : List Char)
  | code (read : List Char) (high : Option Nat) (digits : List Char)
  | lowSlash (read : List Char) (high : Nat)
  | lowLetter (read : List Char) (high : Nat)
  deriving DecidableEq

/-- An open array with its items, or an open object with its fields and the key of the next one.
Items and fields are in reverse. -/
inductive Level where
  | array (items : List Json)
  | object (fields : List (String × Json)) (key : String)

inductive Expect where
  | value
  | valueOrClose
  | key
  | keyOrClose
  | colon
  | separator
  deriving DecidableEq

/-- The structure read so far: a whole value, or open levels, the innermost first. -/
inductive Progress where
  | whole (j : Json)
  | within (levels : List Level) (expect : Expect)

def depthLimit : Nat := 127

/-- Adds a value to the innermost level. -/
def addValue (j : Json) : List Level → Progress
  | [] => .whole j
  | .array items :: r => .within (.array (j :: items) :: r) .separator
  | .object fields key :: r => .within (.object ((key, j) :: fields) "" :: r) .separator

def Expect.isValue : Expect → Bool
  | .value | .valueOrClose => true
  | _ => false

def openLevel (l : Level) (next : Expect) (levels : List Level) : Option Progress :=
  if levels.length < depthLimit then some (.within (l :: levels) next) else none

def Progress.step : Progress → Mark → Option Progress
  | .whole _, _ => none
  | .within levels e, .scalar j => if e.isValue then some (addValue j levels) else none
  | .within levels e, .openArray =>
    if e.isValue then openLevel (.array []) .valueOrClose levels else none
  | .within levels e, .openObject =>
    if e.isValue then openLevel (.object [] "") .keyOrClose levels else none
  | .within levels e, .text s =>
    if e.isValue then some (addValue (.text s) levels)
    else match e, levels with
      | .key, .object fields _ :: r => some (.within (.object fields s :: r) .colon)
      | .keyOrClose, .object fields _ :: r => some (.within (.object fields s :: r) .colon)
      | _, _ => none
  | .within levels .colon, .colon => some (.within levels .value)
  | .within (.array items :: r) .separator, .comma => some (.within (.array items :: r) .value)
  | .within (.object fields key :: r) .separator, .comma =>
    some (.within (.object fields key :: r) .key)
  | .within (.array items :: r) .separator, .closeArray =>
    some (addValue (.array items.reverse) r)
  | .within (.array items :: r) .valueOrClose, .closeArray =>
    some (addValue (.array items.reverse) r)
  | .within (.object fields _ :: r) .separator, .closeObject =>
    some (addValue (.object fields.reverse) r)
  | .within (.object fields _ :: r) .keyOrClose, .closeObject =>
    some (addValue (.object fields.reverse) r)
  | _, _ => none

/-- The characters of words and numbers. -/
def isWordChar (c : Char) : Bool := c.isAlphanum || c = '+' || c = '-' || c = '.'

def isSpace (c : Char) : Bool := c = ' ' || c = '\t' || c = '\n' || c = '\r'

def scalarOf? (cs : List Char) : Option Json :=
  if cs = "null".toList then some .null
  else if cs = "true".toList then some (.bool true)
  else if cs = "false".toList then some (.bool false)
  else (Number.read? cs).map .number

/-- The mark that a character is by itself. -/
def markOf? : Char → Option Mark
  | '[' => some .openArray
  | ']' => some .closeArray
  | '{' => some .openObject
  | '}' => some .closeObject
  | ',' => some .comma
  | ':' => some .colon
  | _ => none

/-- The character of an escape of one letter. -/
def unescape? : Char → Option Char
  | '"' => some '"'
  | '\\' => some '\\'
  | '/' => some '/'
  | 'b' => some '\x08'
  | 'f' => some '\x0c'
  | 'n' => some '\n'
  | 'r' => some '\r'
  | 't' => some '\t'
  | _ => none

structure State where
  mode : Mode
  progress : Progress

/-- A character between marks. -/
def stepBetween (p : Progress) (c : Char) : Option State :=
  if isSpace c then some ⟨.between, p⟩
  else if c = '"' then some ⟨.quoted [], p⟩
  else if isWordChar c then some ⟨.word [c], p⟩
  else do
    let p ← p.step (← markOf? c)
    return ⟨.between, p⟩

/-- The end of a coded character of four digits; a high surrogate waits for its low one. -/
def endCode (p : Progress) (read : List Char) (high : Option Nat) (n : Nat) : Option State :=
  match high with
  | some h =>
    if 0xDC00 ≤ n ∧ n ≤ 0xDFFF then
      some ⟨.quoted (Char.ofNat (0x10000 + (h - 0xD800) * 0x400 + (n - 0xDC00)) :: read), p⟩
    else none
  | none =>
    if 0xD800 ≤ n ∧ n ≤ 0xDBFF then some ⟨.lowSlash read n, p⟩
    else if 0xDC00 ≤ n ∧ n ≤ 0xDFFF then none
    else some ⟨.quoted (Char.ofNat n :: read), p⟩

def State.step (s : State) (c : Char) : Option State :=
  match s.mode with
  | .between => stepBetween s.progress c
  | .word read =>
    if isWordChar c then some ⟨.word (c :: read), s.progress⟩
    else do
      let p ← s.progress.step (.scalar (← scalarOf? read.reverse))
      stepBetween p c
  | .quoted read =>
    if c = '"' then do
      let p ← s.progress.step (.text (.ofList read.reverse))
      return ⟨.between, p⟩
    else if c = '\\' then some ⟨.escape read, s.progress⟩
    else if c.toNat < 0x20 then none
    else some ⟨.quoted (c :: read), s.progress⟩
  | .escape read =>
    if c = 'u' then some ⟨.code read none [], s.progress⟩
    else (unescape? c).map fun d => ⟨.quoted (d :: read), s.progress⟩
  | .code read high digits =>
    let digits := c :: digits
    if (Markup.digitOf? 16 c).isNone then none
    else if digits.length < 4 then some ⟨.code read high digits, s.progress⟩
    else do endCode s.progress read high (← Markup.natOf? 16 digits.reverse)
  | .lowSlash read high => if c = '\\' then some ⟨.lowLetter read high, s.progress⟩ else none
  | .lowLetter read high =>
    if c = 'u' then some ⟨.code read (some high) [], s.progress⟩ else none

def State.start : State := ⟨.between, .within [] .value⟩

/-- The value, once the characters have ended. -/
def State.finish (s : State) : Option Json := do
  let p ← match s.mode with
    | .between => some s.progress
    | .word read => s.progress.step (.scalar (← scalarOf? read.reverse))
    | _ => none
  match p with
  | .whole j => some j
  | .within _ _ => none

/-- The value that a list of characters spells. -/
def read? (cs : List Char) : Option Json := do
  (← cs.foldlM State.step State.start).finish

def parse? (s : String) : Option Json := read? s.toList

end StoryScript.Json
