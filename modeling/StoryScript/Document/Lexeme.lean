import StoryScript.Numeral.Decimal

/-! The forms of numbers and identifiers in a story file. Letters and digits are those of ASCII. -/
namespace StoryScript

/-- A letter of ASCII or an underscore. -/
def isWordStart (c : Char) : Bool := c.isAlpha || c = '_'

/-- A letter or digit of ASCII or an underscore. -/
def isWordPart (c : Char) : Bool := c.isAlphanum || c = '_'

/-- A word: a letter or underscore, then letters, digits and underscores. -/
def isWord : List Char → Bool
  | c :: r => isWordStart c && r.all isWordPart
  | [] => false

/-- A number: an optional sign, and digits of which one place may follow or precede a point. -/
def isNumeral (cs : List Char) : Bool :=
  let r := (Numeral.takeSign cs).2
  let whole := r.takeWhile Numeral.isDigit
  match r.dropWhile Numeral.isDigit with
  | [] => !whole.isEmpty
  | '.' :: part => part.all Numeral.isDigit && (!whole.isEmpty || !part.isEmpty)
  | _ => false

/-- An identifier: a variable `@name`, the iterator `$$`, an argument `$0`, or a word with points. -/
def isIdentifier : List Char → Bool
  | '@' :: r => isWord r
  | '$' :: r => r = ['$'] || (!r.isEmpty && r.all Numeral.isDigit)
  | c :: r => isWordStart c && r.all fun d => isWordPart d || d = '.'
  | [] => false

example : isNumeral "-.5".toList ∧ ¬isNumeral "-.".toList ∧ isNumeral "7.".toList := by decide
example : isIdentifier "$12".toList ∧ isIdentifier "a.b".toList ∧ ¬isIdentifier "@a.b".toList := by
  decide

end StoryScript
