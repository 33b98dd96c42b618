import StoryScript.Json.Number

/-! JSON values and their text. Objects keep their fields in order, and may repeat a key. -/
namespace StoryScript

inductive Json where
  | null
  | bool (b : Bool)
  | number (n : Json.Number)
  | text (s : String)
  | array (items : List Json)
  | object (fields : List (String × Json))

namespace Json

instance : Inhabited Json := ⟨.null⟩

def ofInt (n : Int) : Json := .number (.integer n)
def ofNat (n : Nat) : Json := .number (.integer n)

/-- The hexadecimal digits of a byte. -/
def byteDigits (n : Nat) : List Char := [Nat.digitChar (n / 16), Nat.digitChar (n % 16)]

/-- A character of a text between quotes. -/
def escapeChar (c : Char) : List Char :=
  if c = '"' then ['\\', '"']
  else if c = '\\' then ['\\', '\\']
  else if c = '\x08' then ['\\', 'b']
  else if c = '\x0c' then ['\\', 'f']
  else if c = '\n' then ['\\', 'n']
  else if c = '\r' then ['\\', 'r']
  else if c = '\t' then ['\\', 't']
  else if c.toNat < 0x20 then ['\\', 'u', '0', '0'] ++ byteDigits c.toNat
  else [c]

/-- A text between quotes. -/
def writeText (s : String) : List Char := '"' :: s.toList.flatMap escapeChar ++ ['"']

mutual
/-- The characters of a JSON value, without blanks. -/
def write : Json → List Char
  | null => "null".toList
  | bool true => "true".toList
  | bool false => "false".toList
  | number n => n.write
  | text s => writeText s
  | array items => '[' :: writeItems items ++ [']']
  | object fields => '{' :: writeFields fields ++ ['}']

def writeItems : List Json → List Char
  | [] => []
  | [j] => write j
  | j :: r => write j ++ ',' :: writeItems r

def writeFields : List (String × Json) → List Char
  | [] => []
  | [(k, j)] => writeText k ++ ':' :: write j
  | (k, j) :: r => writeText k ++ ':' :: write j ++ ',' :: writeFields r
end

def toText (j : Json) : String := .ofList j.write

mutual
/-- How many arrays and objects lie inside one another. -/
def depth : Json → Nat
  | array items => depthItems items + 1
  | object fields => depthFields fields + 1
  | _ => 0

def depthItems : List Json → Nat
  | [] => 0
  | j :: r => max j.depth (depthItems r)

def depthFields : List (String × Json) → Nat
  | [] => 0
  | (_, j) :: r => max j.depth (depthFields r)
end

end Json
end StoryScript
