/-! The command nodes of a story. A node is a value token, a call with parameters, a function (a
call that may have a body), or a statement (a chain of functions, of which the first is the
command and the others are its clauses). Every node knows where it stands in its source. -/
namespace StoryScript

/-- A stretch of source text, from its first line and column to those just after it. -/
structure Span where
  startLine : Nat
  startColumn : Nat
  endLine : Nat
  endColumn : Nat
  deriving DecidableEq, Repr

/-- The span of a node that was not read from a source. -/
def Span.synthetic : Span := ⟨1, 1, 1, 1⟩

instance : Inhabited Span := ⟨.synthetic⟩

/-- How the text of a value token is to be read. -/
inductive Token where
  | number
  | string
  | identifier
  deriving DecidableEq, Repr

structure Literal where
  text : String
  token : Token
  span : Span
  deriving DecidableEq

mutual
inductive Node where
  | value (literal : Literal)
  | call (call : Call)
  | function (clause : Clause)
  | statement (clauses : List Clause) (span : Span)

/-- A name with parameters. -/
structure Call where
  id : String
  params : List Node
  span : Span

/-- A call that may have a body. -/
structure Clause where
  call : Call
  body : List Node
  hasBody : Bool
end

instance : Inhabited Call := ⟨⟨"", [], .synthetic⟩⟩
instance : Inhabited Clause := ⟨⟨default, [], false⟩⟩

/-- A call as a clause without a body. -/
def Clause.ofCall (c : Call) : Clause := ⟨c, [], false⟩

/-- The text of a parameter that is a value token. -/
def Call.paramText? (c : Call) (i : Nat) : Option String :=
  match c.params[i]? with
  | some (.value v) => some v.text
  | _ => none

namespace Node

instance : Inhabited Node := ⟨.statement [] .synthetic⟩

/-- The name of the command or function that a node stands for. -/
def id : Node → String
  | value v => v.text
  | call c => c.id
  | function f => f.call.id
  | statement [] _ => ""
  | statement (f :: _) _ => f.call.id

/-- Where a node stands. -/
def span : Node → Span
  | value v => v.span
  | call c => c.span
  | function f => f.call.span
  | statement _ s => s

def kindName : Node → String
  | value _ => "value"
  | call _ => "call"
  | function _ => "function"
  | statement _ _ => "statement"

/-- The call in front of a node; of a statement, that of its first clause. -/
def call? : Node → Option Call
  | value _ => none
  | call c => some c
  | function f => some f.call
  | statement [] _ => none
  | statement (f :: _) _ => some f.call

end Node

/-- A block that answers one message. -/
structure HandlerDecl where
  messageId : String
  body : List Node
  span : Span

/-- A story as written. A persistent story stays when it has nothing to do. -/
structure Document where
  storyId : String
  persistent : Bool
  handlers : List HandlerDecl
  span : Span

end StoryScript
