/-! What can be wrong with a markup text, and the wording of each fault. -/
namespace StoryScript.Markup

/-- A place in a text, counted from one; columns count characters. -/
structure Position where
  line : Nat
  column : Nat
  deriving DecidableEq, Repr

def Position.toText (p : Position) : String := p.line.repr ++ ":" ++ p.column.repr

/-- A fault of a markup text. -/
inductive Problem where
  | noRoot
  | unclosedRoot
  | endOfText
  | doctype
  | unknownToken (place : Position)
  | invalidName (place : Position)
  | unexpectedDeclaration (place : Position)
  | expectedCharacter (wanted found : Char) (place : Position)
  | expectedOneOf (wanted : String) (found : Char) (place : Position)
  | expectedText (wanted : String) (place : Position)
  | nonMarkupCharacter (found : Char) (place : Position)
  | badComment (place : Position)
  | sectionEndInText (place : Position)
  | unknownEntity (name : String) (place : Position)
  | malformedEntity (place : Position)
  | closeMismatch (wanted found : String) (place : Position)
  | repeatedAttribute (name : String) (place : Position)
  | unknownNamespace (name : String) (place : Position)
  | repeatedNamespace (name : String) (place : Position)
  | reservedPrefix (place : Position)
  | wrongReservedUri (place : Position)
  | reservedUri (place : Position)
  | declarationUri (place : Position)
  deriving DecidableEq

namespace Problem

/-- The lower-case hexadecimal digits of a natural. -/
def hex (n : Nat) : String := String.ofList (Nat.toDigits 16 n)

/-- A character that has no glyph, between quotes. -/
def escaped (c : Char) : String :=
  if c.toNat = 0 then "'\\0'" else "'\\u\x7b" ++ hex c.toNat ++ "\x7d'"

/-- Where a fault lies; faults of the whole text lie at its beginning. -/
def place : Problem → Position
  | noRoot | unclosedRoot | endOfText | doctype => ⟨1, 1⟩
  | unknownToken p | invalidName p | unexpectedDeclaration p | expectedCharacter _ _ p
  | expectedOneOf _ _ p | expectedText _ p | nonMarkupCharacter _ p | badComment p
  | sectionEndInText p | unknownEntity _ p | malformedEntity p | closeMismatch _ _ p
  | repeatedAttribute _ p | unknownNamespace _ p | repeatedNamespace _ p | reservedPrefix p
  | wrongReservedUri p | reservedUri p | declarationUri p => p

/-- The wording of a fault. -/
def message (problem : Problem) : String :=
  let here := " at " ++ problem.place.toText
  match problem with
  | noRoot => "the document does not have a root node"
  | unclosedRoot => "the root node was opened but never closed"
  | endOfText => "unexpected end of stream"
  | doctype => "XML with DTD detected"
  | unknownToken _ => "unknown token" ++ here
  | invalidName _ => "invalid name token" ++ here
  | unexpectedDeclaration _ => "unexpected XML declaration" ++ here
  | expectedCharacter w f _ => "expected '" ++ w.toString ++ "' not '" ++ f.toString ++ "'" ++ here
  | expectedOneOf w f _ => "expected " ++ w ++ " not '" ++ f.toString ++ "'" ++ here
  | expectedText w _ => "expected '" ++ w ++ "'" ++ here
  | nonMarkupCharacter c _ => "a non-XML character " ++ escaped c ++ " found" ++ here
  | badComment _ => "comment" ++ here ++ " contains '--'"
  | sectionEndInText _ => "']]>'" ++ here ++ " is not allowed inside a character data"
  | unknownEntity n _ => "unknown entity reference '" ++ n ++ "'" ++ here
  | malformedEntity _ => "malformed entity reference" ++ here
  | closeMismatch w f _ => "expected '" ++ w ++ "' tag, not '" ++ f ++ "'" ++ here
  | repeatedAttribute n _ => "attribute '" ++ n ++ "'" ++ here ++ " is already defined"
  | unknownNamespace n _ => "an unknown namespace prefix '" ++ n ++ "'" ++ here
  | repeatedNamespace n _ => "namespace '" ++ n ++ "'" ++ here ++ " is already defined"
  | reservedPrefix _ => "the 'xmlns' prefix is used" ++ here ++ ", but it must not be"
  | wrongReservedUri _ => "'xml' namespace prefix mapped to wrong URI" ++ here
  | reservedUri _ => "the 'xml' namespace URI is used for not 'xml' prefix" ++ here
  | declarationUri _ => "the 'xmlns' URI is used" ++ here ++ ", but it must not be declared"

end Problem
end StoryScript.Markup
