import StoryScript.Node
import StoryScript.Value.Json

/-! Nodes as JSON. A node is an object whose field `kind` says what it is; a record may also be
read from an array of its fields in order. -/
namespace StoryScript

namespace Span

def toJson (s : Span) : Json :=
  .object [("start", place s.startLine s.startColumn), ("end", place s.endLine s.endColumn)]
where
  place (line column : Nat) : Json := .object [("line", .ofNat line), ("column", .ofNat column)]

def placeOfJson? (j : Json) : Option (Nat × Nat) := do
  match ← j.record? ["line", "column"] with
  | [l, c] => return ((← l.word?).toNat, (← c.word?).toNat)
  | _ => none

def ofJson? (j : Json) : Option Span := do
  match ← j.record? ["start", "end"] with
  | [s, e] =>
    let (sl, sc) ← placeOfJson? s
    let (el, ec) ← placeOfJson? e
    return ⟨sl, sc, el, ec⟩
  | _ => none

end Span

namespace Token

def name : Token → String
  | number => "number"
  | string => "string"
  | identifier => "identifier"

def ofName? : String → Option Token
  | "number" => some number
  | "string" => some string
  | "identifier" => some identifier
  | _ => none

/-- A token's name, or an object with that name as its only key and nothing as its value. -/
def ofJson? : Json → Option Token
  | .text s => ofName? s
  | .object [(s, .null)] => ofName? s
  | .object [(s, .object [])] => ofName? s
  | _ => none

end Token

namespace Json

def text? : Json → Option String
  | text s => some s
  | _ => none

def bool? : Json → Option Bool
  | bool b => some b
  | _ => none

def items? : Json → Option (List Json)
  | array items => some items
  | _ => none

end Json

/-- The fields of a value token. -/
def Literal.fields (v : Literal) : List (String × Json) :=
  [("text", .text v.text), ("token", .text v.token.name), ("location", v.span.toJson)]

mutual
def Node.toJson : Node → Json
  | .value v => .object (("kind", .text "value") :: v.fields)
  | .call c => .object (("kind", .text "call") :: c.fields)
  | .function f => .object (("kind", .text "function") :: f.fields)
  | .statement clauses span => .object
    [("kind", .text "statement"), ("functions", .array (clausesJson clauses)),
     ("location", span.toJson)]

def Call.fields : Call → List (String × Json)
  | ⟨id, params, span⟩ =>
    [("id", .text id), ("params", .array (nodesJson params)), ("location", span.toJson)]

def Clause.fields : Clause → List (String × Json)
  | ⟨call, body, hasBody⟩ =>
    [("call", .object call.fields), ("body", .array (nodesJson body)), ("has_body", .bool hasBody)]

def nodesJson : List Node → List Json
  | [] => []
  | n :: r => n.toJson :: nodesJson r

def clausesJson : List Clause → List Json
  | [] => []
  | c :: r => .object c.fields :: clausesJson r
end

inductive NodeKind where
  | value
  | call
  | function
  | statement
  deriving DecidableEq

def NodeKind.ofName? : String → Option NodeKind
  | "value" => some .value
  | "call" => some .call
  | "function" => some .function
  | "statement" => some .statement
  | _ => none

/-- A kind by its name; inside another node also by its number, counted from zero. -/
def NodeKind.ofJson? (inner : Bool) : Json → Option NodeKind
  | .text s => ofName? s
  | .number (.integer n) =>
    if inner then
      match n with
      | 0 => some .value
      | 1 => some .call
      | 2 => some .function
      | 3 => some .statement
      | _ => none
    else none
  | _ => none

/-- The kind of a node and the record of its fields. -/
def kinded? (inner : Bool) : Json → Option (NodeKind × Json)
  | .object fields =>
    match fields.filter (·.1 = "kind") with
    | [e] => (NodeKind.ofJson? inner e.2).map (·, .object (fields.filter (·.1 ≠ "kind")))
    | _ => none
  | .array (j :: r) => (NodeKind.ofJson? inner j).map (·, .array r)
  | _ => none

def Literal.ofJson? (j : Json) : Option Literal := do
  match ← j.record? ["text", "token", "location"] with
  | [text, token, span] =>
    return ⟨← text.text?, ← Token.ofJson? token, ← Span.ofJson? span⟩
  | _ => none

/-- A call, given how its parameters are read. -/
def Call.ofJson? (node : Json → Option Node) (j : Json) : Option Call := do
  match ← j.record? ["id", "params", "location"] with
  | [id, params, span] =>
    return ⟨← id.text?, ← (← params.items?).mapM node, ← Span.ofJson? span⟩
  | _ => none

/-- A clause, given how the nodes inside it are read. -/
def Clause.ofJson? (node : Json → Option Node) (j : Json) : Option Clause := do
  match ← j.record? ["call", "body", "has_body"] with
  | [call, body, hasBody] =>
    return ⟨← Call.ofJson? node call, ← (← body.items?).mapM node, ← hasBody.bool?⟩
  | _ => none

/-- A statement's node, given how the nodes inside it are read. -/
def statementOfJson? (node : Json → Option Node) (j : Json) : Option Node := do
  match ← j.record? ["functions", "location"] with
  | [clauses, span] =>
    return .statement (← (← clauses.items?).mapM (Clause.ofJson? node)) (← Span.ofJson? span)
  | _ => none

/-- A node that has at most `levels` levels of nodes inside it. -/
def Node.ofJsonWithin? : Nat → Bool → Json → Option Node
  | 0, _, _ => none
  | levels + 1, inner, j => do
    let node := Node.ofJsonWithin? levels true
    match ← kinded? inner j with
    | (.value, r) => (Literal.ofJson? r).map .value
    | (.call, r) => (Call.ofJson? node r).map .call
    | (.function, r) => (Clause.ofJson? node r).map .function
    | (.statement, r) => statementOfJson? node r

/-- The node that a JSON value spells; it has fewer levels than the JSON value. -/
def Node.ofJson? (j : Json) : Option Node := Node.ofJsonWithin? j.depth false j

def Node.toJsonText (n : Node) : String := n.toJson.toText

def Node.ofJsonText? (s : String) : Option Node := do Node.ofJson? (← Json.parse? s)

def Document.toJson (d : Document) : Json :=
  .object [("storyId", .text d.storyId), ("persistent", .bool d.persistent),
    ("handlers", .array (d.handlers.map handler)), ("location", d.span.toJson)]
where
  handler (h : HandlerDecl) : Json :=
    .object [("messageId", .text h.messageId), ("body", .array (nodesJson h.body)),
      ("location", h.span.toJson)]

end StoryScript
