import StoryScript.Node
import StoryScript.Markup.Problem

/-! The faults that reading, loading and running stories can report. A fault has a cause, from
which its code and wording follow, and may say where in which file it lies. -/
namespace StoryScript

/-- Where an element stands that does not belong there. -/
inductive Place where
  | stories
  | story
  | block
  | parameters
  | function
  | statement
  deriving DecidableEq

def Place.toText : Place → String
  | stories => "<stories>"
  | story => "<story>"
  | block => "a command block"
  | parameters => "a parameter list"
  | function => "<function>"
  | statement => "<statement>"

/-- What is at fault. -/
inductive Cause where
  | markup (problem : Markup.Problem)
  | storyCount (found : Nat)
  | rootInvalid (name : String)
  | elementUnexpected (name : String) (place : Place)
  | attributeMissing (element name : String)
  | persistenceInvalid (value : String)
  | storyRepeated (id : String)
  | contentInvalid (element text : String)
  | functionWithoutCall
  | statementEmpty
  | numberInvalid (text : String)
  | argumentInvalid (text : String)
  | notAValue (kind : String)
  | functionUnknown (name : String)
  | scriptArity
  | tooFewParameters (name : String) (least found : Nat)
  | bodyUnexpected (command : String)
  | bodyMissing (name : String)
  | clauseUnknown (command clause : String)
  | commandUnknown (name : String)
  | handlerRepeated (story message : String)
  | storyKnown (id : String)
  | scriptUnreadable (source detail : String)
  | scriptFailed (source detail : String)
  | scriptResult (type : String)
  | hostFunctionMissing (name : String)
  | hostStoryMissing (id : String)
  | noMainStory
  | entryUnknown (id : String)
  | directoryMissing (path : String)
  | notADirectory (path : String)
  | fileUnreadable (detail : String)
  | noStoryFiles (path : String)
  | messageInvalid
  | reported (code message : String)
  deriving DecidableEq

namespace Cause

def code : Cause → String
  | markup _ => "XML_PARSE_ERROR"
  | storyCount _ => "XML_STORY_COUNT"
  | rootInvalid _ => "XML_ROOT_INVALID"
  | elementUnexpected _ _ => "XML_ELEMENT_UNEXPECTED"
  | attributeMissing _ _ => "XML_ATTR_MISSING"
  | persistenceInvalid _ => "XML_ATTR_INVALID"
  | storyRepeated _ => "XML_STORY_DUPLICATE"
  | contentInvalid _ _ => "XML_VALUE_INVALID"
  | functionWithoutCall => "XML_FUNCTION_CALL_MISSING"
  | statementEmpty => "XML_STATEMENT_EMPTY"
  | numberInvalid _ | argumentInvalid _ => "STORY_PARSE_VALUE"
  | notAValue _ => "STORY_PARSE_SHAPE"
  | functionUnknown _ => "STORY_VALUE_FUNCTION_UNKNOWN"
  | scriptArity | tooFewParameters _ _ _ => "STORY_PARSE_ARITY"
  | bodyUnexpected _ => "STORY_BODY_UNEXPECTED"
  | bodyMissing _ => "STORY_BODY_MISSING"
  | clauseUnknown _ _ => "STORY_CLAUSE_UNKNOWN"
  | commandUnknown _ => "STORY_COMMAND_UNKNOWN"
  | handlerRepeated _ _ => "STORY_HANDLER_DUPLICATE"
  | storyKnown _ => "STORY_DUPLICATE"
  | scriptUnreadable _ _ => "STORY_EXPR_PARSE"
  | scriptFailed _ _ => "STORY_EXPR_EVAL"
  | scriptResult _ => "STORY_EXPR_VALUE_UNSUPPORTED"
  | hostFunctionMissing _ => "HOST_FUNCTION_MISSING"
  | hostStoryMissing _ => "HOST_STORY_NOT_FOUND"
  | noMainStory => "API_ENTRY_MAIN_NOT_FOUND"
  | entryUnknown _ => "API_STORY_NOT_FOUND"
  | directoryMissing _ => "CLI_SOURCE_NOT_FOUND"
  | notADirectory _ => "CLI_SOURCE_NOT_DIR"
  | fileUnreadable _ => "CLI_SOURCE_READ"
  | noStoryFiles _ => "CLI_SOURCE_EMPTY"
  | messageInvalid => "CLI_MESSAGE_INVALID"
  | reported code _ => code

/-- A text between double quotes. -/
def quoted (s : String) : String := "\"" ++ s ++ "\""

/-- The wording of a cause. -/
def message : Cause → String
  | markup p => p.message
  | storyCount n => "Expected exactly one <story>, found " ++ n.repr ++ "."
  | rootInvalid name => "Root element must be <story> or <stories>, found <" ++ name ++ ">."
  | elementUnexpected name place => "<" ++ name ++ "> is not allowed in " ++ place.toText ++ "."
  | attributeMissing element name =>
    "<" ++ element ++ "> requires attribute " ++ quoted name ++ "."
  | persistenceInvalid v => "persistent must be true or false, found " ++ quoted v ++ "."
  | storyRepeated id => "Story " ++ quoted id ++ " is declared more than once."
  | contentInvalid element text => "<" ++ element ++ "> has invalid content " ++ quoted text ++ "."
  | functionWithoutCall => "<function> requires a <call> header."
  | statementEmpty => "<statement> requires at least one clause."
  | numberInvalid text => "Invalid number literal " ++ quoted text ++ "."
  | argumentInvalid text => "Invalid argument reference " ++ quoted text ++ "."
  | notAValue kind => "A " ++ kind ++ " cannot be used as a value."
  | functionUnknown name => "Unknown value function " ++ quoted name ++ "."
  | scriptArity => "expr(...) takes exactly one script text."
  | tooFewParameters name least found =>
    quoted name ++ " expects at least " ++ least.repr ++ " parameter(s), got " ++ found.repr ++ "."
  | bodyUnexpected c => "Command " ++ quoted c ++ " does not take a body; it is ignored."
  | bodyMissing name => quoted name ++ " needs a body block."
  | clauseUnknown c clause => "Command " ++ quoted c ++ " does not accept clause " ++ quoted clause ++ "."
  | commandUnknown name => "Unknown story command " ++ quoted name ++ "; it is skipped."
  | handlerRepeated story m =>
    "Story " ++ quoted story ++ " declares handler " ++ quoted m ++ " twice; the later one is ignored."
  | storyKnown id => "Story " ++ quoted id ++ " is already in the library."
  | scriptUnreadable source detail =>
    "Expression " ++ quoted source ++ " failed to parse: " ++ detail
  | scriptFailed source detail => "Expression " ++ quoted source ++ " failed: " ++ detail
  | scriptResult type => "Unsupported script value type " ++ quoted type ++ "."
  | hostFunctionMissing name => "Host function " ++ quoted name ++ " is not registered."
  | hostStoryMissing id => "Story " ++ quoted id ++ " is not in the library."
  | noMainStory => "Expected a story with id=" ++ quoted "main" ++ " as default entry."
  | entryUnknown id => "Entry story " ++ quoted id ++ " is not registered."
  | directoryMissing path => "stories-dir does not exist: " ++ path
  | notADirectory path => "stories-dir is not a directory: " ++ path
  | fileUnreadable detail => detail
  | noStoryFiles path => "No .story.xml files under " ++ path
  | messageInvalid => "--message needs a message id."
  | reported _ message => message

end Cause

/-- A cause, with the file and the stretch of source it concerns where these are known. -/
structure Fault where
  cause : Cause
  span : Option Span := none
  file : Option String := none
  deriving DecidableEq

namespace Fault

def code (f : Fault) : String := f.cause.code

/-- The wording of a fault, after the path of its file. -/
def message (f : Fault) : String :=
  match f.file with
  | none => f.cause.message
  | some path => path ++ ": " ++ f.cause.message

def toText (f : Fault) : String := f.code ++ ": " ++ f.message

/-- A fault of which no more is known than its cause. -/
def ofCause (c : Cause) : Fault := ⟨c, none, none⟩

/-- A fault at a stretch of source. -/
def located (s : Span) (c : Cause) : Fault := ⟨c, some s, none⟩

/-- The same fault, said of a file. -/
def inFile (path : String) (f : Fault) : Fault := { f with file := some path }

/-- A fault of markup, at the place where it was found. -/
def ofMarkup (p : Markup.Problem) : Fault :=
  located ⟨p.place.line, p.place.column, p.place.line, p.place.column⟩ (.markup p)

@[simp] theorem code_inFile (path : String) (f : Fault) : (f.inFile path).code = f.code := rfl
@[simp] theorem span_inFile (path : String) (f : Fault) : (f.inFile path).span = f.span := rfl

end Fault
end StoryScript
