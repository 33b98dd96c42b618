import StoryScript.Document.Lexeme
import StoryScript.Fault
import StoryScript.Markup.Element
import StoryScript.Text.Blank

/-! Stories read from markup. A file holds one `<story>`, or several inside `<stories>`; a story
holds `<onmessage>` handlers with blocks of `<call>`, `<function>` and `<statement>`; parameters
are `<num>`, `<str>`, `<ident>` and `<call>`. The first fault in document order is reported. -/
namespace StoryScript
open Markup

/-- The fault of an element that does not belong where it stands. -/
def unexpected (e : Element) (place : Place) : Fault :=
  .located e.span (.elementUnexpected e.name place)

/-- The trimmed value of an attribute that must not be blank. -/
def requiredId (e : Element) : Except Fault String :=
  match e.attribute? "id" with
  | some v => if trim v = "" then missing else .ok (trim v)
  | none => missing
where
  missing : Except Fault String := .error (.located e.span (.attributeMissing e.name "id"))

/-- The token that an element of a parameter list stands for. -/
def tokenOf? : String → Option Token
  | "num" => some .number
  | "str" => some .string
  | "ident" => some .identifier
  | _ => none

/-- The text of a token, without the blanks around it unless it is a string. -/
def Token.content (t : Token) (s : String) : String :=
  match t with
  | .string => s
  | .number | .identifier => trim s

/-- Whether a text has the form of a token. -/
def Token.accepts (t : Token) (s : String) : Bool :=
  match t with
  | .string => true
  | .number => isNumeral s.toList
  | .identifier => isIdentifier s.toList

/-- The value token of an element. -/
def readLiteral (e : Element) (t : Token) : Except Fault Literal :=
  let s := t.content e.text
  if t.accepts s then .ok ⟨s, t, e.span⟩
  else .error (.located e.span (.contentInvalid e.name s))

/-- The id of a call, empty when there is none. -/
def callId (e : Element) : String := (e.attribute? "id").getD ""

mutual
def readParam : Element → Except Fault Node
  | ⟨name, attributes, children, text, span⟩ =>
    let e : Element := ⟨name, attributes, children, text, span⟩
    match tokenOf? name with
    | some t => return .value (← readLiteral e t)
    | none =>
      if name = "call" then return .call ⟨callId e, ← readParams children, span⟩
      else .error (unexpected e .parameters)

def readParams : List Element → Except Fault (List Node)
  | [] => .ok []
  | e :: r => do
    let p ← readParam e
    return p :: (← readParams r)
end

def readCall (e : Element) : Except Fault Call := do
  return ⟨callId e, ← readParams e.children, e.span⟩

/-- The clause of a function whose parts have been read. -/
def clauseOf (span : Span) (call : Option Call) (body : Option (List Node)) :
    Except Fault Clause :=
  match call with
  | none => .error (.located span .functionWithoutCall)
  | some c => .ok ⟨c, body.getD [], body.isSome⟩

mutual
def readCommand : Element → Except Fault Node
  | ⟨name, attributes, children, text, span⟩ =>
    let e : Element := ⟨name, attributes, children, text, span⟩
    if name = "call" then return .call (← readCall e)
    else if name = "function" then return .function (← readFunction span none none children)
    else if name = "statement" then do
      match ← readClauses children with
      | [] => .error (.located span .statementEmpty)
      | clauses => return .statement clauses span
    else .error (unexpected e .block)

def readBlock : List Element → Except Fault (List Node)
  | [] => .ok []
  | e :: r => do
    let c ← readCommand e
    return c :: (← readBlock r)

/-- The parts of a function: one call and at most one body, in either order. -/
def readFunction (span : Span) (call : Option Call) (body : Option (List Node)) :
    List Element → Except Fault Clause
  | [] => clauseOf span call body
  | e@⟨name, _, children, _, _⟩ :: r =>
    if name = "call" && call.isNone then do
      readFunction span (some (← readCall e)) body r
    else if name = "body" && body.isNone then do
      readFunction span call (some (← readBlock children)) r
    else .error (unexpected e .function)

def readClauses : List Element → Except Fault (List Clause)
  | [] => .ok []
  | e@⟨name, _, children, _, span⟩ :: r =>
    if name = "call" then do
      let c := Clause.ofCall (← readCall e)
      return c :: (← readClauses r)
    else if name = "function" then do
      let f ← readFunction span none none children
      return f :: (← readClauses r)
    else .error (unexpected e .statement)
end

def readHandler (e : Element) : Except Fault HandlerDecl :=
  if e.name = "onmessage" then do
    return ⟨← requiredId e, ← readBlock e.children, e.span⟩
  else .error (unexpected e .story)

def readPersistence (e : Element) : Except Fault Bool :=
  match e.attribute? "persistent" with
  | none => .ok false
  | some "true" => .ok true
  | some "false" => .ok false
  | some v => .error (.located e.span (.persistenceInvalid v))

def readStory (e : Element) : Except Fault Document := do
  return ⟨← requiredId e, ← readPersistence e, ← e.children.mapM readHandler, e.span⟩

/-- The fault of the first story whose id an earlier one has. -/
def repeatedStory? (seen : List String) : List Document → Option Fault
  | [] => none
  | d :: r =>
    if seen.contains d.storyId then some (.located d.span (.storyRepeated d.storyId))
    else repeatedStory? (d.storyId :: seen) r

/-- The stories of a root element. -/
def Document.ofRoot (root : Element) : Except Fault (List Document) := do
  let stories ←
    if root.name = "story" then return [← readStory root]
    else if root.name = "stories" then root.children.mapM fun e =>
      if e.name = "story" then readStory e else .error (unexpected e .stories)
    else .error (.located root.span (.rootInvalid root.name))
  match repeatedStory? [] stories with
  | some fault => .error fault
  | none => .ok stories

def readRoot (source : String) : Except Fault Element :=
  match Element.parse source with
  | .ok e => .ok e
  | .error p => .error (.ofMarkup p)

def Document.parseAll (source : String) : Except Fault (List Document) := do
  Document.ofRoot (← readRoot source)

/-- The story of a file that holds exactly one. -/
def Document.parse (source : String) : Except Fault Document := do
  match ← Document.parseAll source with
  | [d] => return d
  | ds => throw (.ofCause (.storyCount ds.length))

end StoryScript
