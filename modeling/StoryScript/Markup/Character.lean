/-! The characters of markup: those a text may hold, blanks, and those of names. -/
namespace StoryScript.Markup

def isSpace (c : Char) : Bool := c = ' ' || c = '\t' || c = '\n' || c = '\r'

/-- Whether a text may hold a character. -/
def isAllowed (c : Char) : Bool :=
  if c.toNat < 0x20 then isSpace c else c.toNat ≠ 0xFFFE && c.toNat ≠ 0xFFFF

/-- The ranges of the characters beyond ASCII with which a name may begin. -/
def nameStartRanges : List (Nat × Nat) :=
  [(0xC0, 0xD6), (0xD8, 0xF6), (0xF8, 0x2FF), (0x370, 0x37D), (0x37F, 0x1FFF), (0x200C, 0x200D),
   (0x2070, 0x218F), (0x2C00, 0x2FEF), (0x3001, 0xD7FF), (0xF900, 0xFDCF), (0xFDF0, 0xFFFD),
   (0x10000, 0xEFFFF)]

/-- The ranges of the further characters beyond ASCII that a name may hold. -/
def nameRestRanges : List (Nat × Nat) := [(0xB7, 0xB7), (0x300, 0x36F), (0x203F, 0x2040)]

def inRanges (ranges : List (Nat × Nat)) (c : Char) : Bool :=
  ranges.any fun r => r.1 ≤ c.toNat && c.toNat ≤ r.2

/-- Whether a name may begin with a character. -/
def isNameStart (c : Char) : Bool :=
  if c.toNat ≤ 0x80 then c.isAlpha || c = ':' || c = '_' else inRanges nameStartRanges c

/-- Whether a name may hold a character after the first. -/
def isNamePart (c : Char) : Bool :=
  if c.toNat ≤ 0x80 then c.isAlphanum || c = ':' || c = '_' || c = '-' || c = '.'
  else inRanges nameStartRanges c || inRanges nameRestRanges c

/-- The first byte of a character in UTF-8, as the character of that code. -/
def firstByte (c : Char) : Char :=
  let n := c.toNat
  if n < 0x80 then c
  else if n < 0x800 then Char.ofNat (0xC0 + n / 0x40)
  else if n < 0x10000 then Char.ofNat (0xE0 + n / 0x1000)
  else Char.ofNat (0xF0 + n / 0x40000)

end StoryScript.Markup
