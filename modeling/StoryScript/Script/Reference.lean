import StoryScript.Document.Lexeme

/-! References of a script to what surrounds it. Before a script is read, `@name` is replaced by a
symbol for the variable, `$$` by one for the iterator and `$0`, `$1`, ... by those for arguments,
wherever they occur in its text. -/
namespace StoryScript.Script

inductive Segment where
  | plain (c : Char)
  | variable (name : List Char)
  | iterator
  | argument (index : Nat)
  deriving DecidableEq

/-- The beginning of a reference whose end has not come yet; characters are in reverse. -/
inductive Pending where
  | none
  | at
  | name (read : List Char)
  | dollar
  | digits (read : List Char)
  deriving DecidableEq

/-- The index of an argument; one that is too large counts as zero. -/
def argumentIndex (digits : List Char) : Nat := (Numeral.readIndex? digits).getD 0

/-- What a beginning amounts to when nothing more belongs to it. -/
def Pending.flush : Pending → List Segment
  | .none => []
  | .at => [.plain '@']
  | .name read => [.variable read.reverse]
  | .dollar => [.plain '$']
  | .digits read => [.argument (argumentIndex read.reverse)]

/-- A character where no reference has begun. -/
def opening (c : Char) : List Segment × Pending :=
  if c = '@' then ([], .at) else if c = '$' then ([], .dollar) else ([.plain c], .none)

def Pending.step (p : Pending) (c : Char) : List Segment × Pending :=
  let restart := let (s, q) := opening c; (p.flush ++ s, q)
  match p with
  | .none => opening c
  | .at => if isWordStart c then ([], .name [c]) else restart
  | .name read => if isWordPart c then ([], .name (c :: read)) else restart
  | .dollar =>
    if c = '$' then ([.iterator], .none)
    else if Numeral.isDigit c then ([], .digits [c])
    else restart
  | .digits read => if Numeral.isDigit c then ([], .digits (c :: read)) else restart

/-- The segments of a script's text after a pending beginning. -/
def segmentsFrom (p : Pending) : List Char → List Segment
  | [] => p.flush
  | c :: r => let (s, q) := p.step c; s ++ segmentsFrom q r

def segmentsOf (cs : List Char) : List Segment := segmentsFrom .none cs

def variableSymbol (name : List Char) : List Char := 'v' :: '_' :: name

def iteratorSymbol : List Char := ['i', 't']

def argumentSymbol (i : Nat) : List Char := ['a', 'r', 'g'] ++ (Nat.repr i).toList

/-- The text that stands for a segment in the script that is read. -/
def Segment.symbol : Segment → List Char
  | .plain c => [c]
  | .variable name => variableSymbol name
  | .iterator => iteratorSymbol
  | .argument i => argumentSymbol i

/-- The script's text with symbols for references. -/
def symbolText (ss : List Segment) : List Char := ss.flatMap Segment.symbol

end StoryScript.Script
