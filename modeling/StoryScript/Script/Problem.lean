/-! Why the text of a script cannot be read, and why a script fails. -/
namespace StoryScript.Script

/-- A fault in the text of a script. -/
inductive SyntaxProblem where
  | unexpectedEnd
  | unexpected (found : String)
  | malformedNumber (text : String)
  | malformedText
  | malformedCharacter
  | repeatedKey (key : String)
  | wrongType (wanted : String)
  | tooDeep
  deriving DecidableEq

def SyntaxProblem.message : SyntaxProblem → String
  | unexpectedEnd => "the script ends too early"
  | unexpected s => "'" ++ s ++ "' does not belong here"
  | malformedNumber s => "'" ++ s ++ "' is no number"
  | malformedText => "a text is not closed or has an unknown escape"
  | malformedCharacter => "a character literal has not exactly one character"
  | repeatedKey k => "the key '" ++ k ++ "' is repeated"
  | wrongType s => "this must be " ++ s
  | tooDeep => "the script is nested too deeply"

/-- A fault of a script that runs. -/
inductive RunProblem where
  | variableUnknown (name : String)
  | functionUnknown (name : String)
  | overflow
  | divisionByZero
  | exponentInvalid
  | outOfBounds
  | notBoolean
  | notIndexable
  | noProperty (name : String)
  | numberInvalid (text : String)
  deriving DecidableEq

def RunProblem.message : RunProblem → String
  | variableUnknown s => "variable not found: " ++ s
  | functionUnknown s => "function not found: " ++ s
  | overflow => "a number is too large"
  | divisionByZero => "division by zero"
  | exponentInvalid => "the exponent is negative or too large"
  | outOfBounds => "the index is out of bounds"
  | notBoolean => "a boolean is needed"
  | notIndexable => "this cannot be indexed"
  | noProperty s => "unknown property: " ++ s
  | numberInvalid s => "'" ++ s ++ "' is no number"

end StoryScript.Script
