/-! Blank characters, and the words between them. A character is blank when it has the Unicode
property White_Space. -/
namespace StoryScript

/-- Whether a character has the property White_Space. -/
def isBlank (c : Char) : Bool :=
  let n := c.toNat
  (9 ≤ n && n ≤ 13) || n = 0x20 || n = 0x85 || n = 0xA0 || n = 0x1680 ||
    (0x2000 ≤ n && n ≤ 0x200A) || n = 0x2028 || n = 0x2029 || n = 0x202F || n = 0x205F || n = 0x3000

/-- A list before other lists, left out when it is empty. -/
def consNonempty {α : Type} : List α → List (List α) → List (List α)
  | [], r => r
  | a, r => a :: r

/-- The run of characters up to the first separator, and the later maximal runs. -/
def cutRuns (sep : Char → Bool) : List Char → List Char × List (List Char)
  | [] => ([], [])
  | c :: r =>
    let (w, ws) := cutRuns sep r
    if sep c then ([], consNonempty w ws) else (c :: w, ws)

/-- The maximal runs of characters that are no separators. -/
def runs (sep : Char → Bool) (cs : List Char) : List (List Char) :=
  let (w, ws) := cutRuns sep cs
  consNonempty w ws

/-- The words of a text, between blanks. -/
def words (s : String) : List String := (runs isBlank s.toList).map String.ofList

/-- A list of characters without the blanks at its two ends. -/
def trimChars (cs : List Char) : List Char :=
  ((cs.dropWhile isBlank).reverse.dropWhile isBlank).reverse

/-- A text without the blanks at its two ends. -/
def trim (s : String) : String := String.ofList (trimChars s.toList)

end StoryScript
