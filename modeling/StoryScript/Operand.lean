import StoryScript.Functions

/-! Operands of commands. An operand is bound to its source when a story is loaded, and has a value
wherever it is evaluated; one that could not be bound is absent everywhere. -/
namespace StoryScript

/-- Where an operand takes its value from. -/
inductive Source where
  | literal (v : Value)
  | variable (name : String)
  | iterator
  | argument (index : Nat)
  | apply (f : List Value → Value) (args : List Source)
  | script (s : Script)
  | collection (items : List Source)

namespace Source

mutual
/-- The value of a source; a script that fails is absent. -/
def resolve (c : Context) : Source → Value
  | .literal v => v
  | .variable name => c.variable name
  | .iterator => c.iterator
  | .argument i => c.argument i
  | .apply f args => f (resolveAll c args)
  | .script s => match s.evaluate c with
    | .ok v => v
    | .error _ => .absent
  | .collection items => .list (resolveAll c items)

def resolveAll (c : Context) : List Source → List Value
  | [] => []
  | s :: r => resolve c s :: resolveAll c r
end

@[simp] theorem resolveAll_eq_map (c : Context) (l : List Source) :
    resolveAll c l = l.map (resolve c) := by
  induction l with
  | nil => rfl
  | cons s r ih => simp [resolveAll, ih]

inductive Kind where
  | literal
  | reference
  | nested
  | collection
  deriving DecidableEq

def kind : Source → Kind
  | .literal _ => .literal
  | .variable _ => .reference
  | .iterator | .argument _ | .apply _ _ | .script _ => .nested
  | .collection _ => .collection

/-! ### Binding -/

/-- The value of a number token: a float when it has a point or an exponent. -/
def readNumber? (text : String) : Option Value :=
  if text.toList.any fun c => c = '.' || c = 'e' || c = 'E' then (Numeral.readDouble? text).map .float
  else (Numeral.readInt64? text.toList).map .int

/-- The source of an identifier: a variable, the iterator, an argument, or its own text. -/
def ofIdentifier (text : String) : Except Cause Source :=
  match text.toList with
  | '@' :: _ => .ok (.variable text)
  | ['$', '$'] => .ok .iterator
  | '$' :: digits =>
    match Numeral.readIndex? digits with
    | some i => .ok (.argument i)
    | none => .error (.argumentInvalid text)
  | _ =>
    if text = "true" then .ok (.literal (.int 1))
    else if text = "false" then .ok (.literal (.int 0))
    else .ok (.literal (.text text))

/-- The source of a value token. -/
def ofLiteral (l : Literal) : Except Fault Source :=
  match l.token with
  | .string => .ok (.literal (.text l.text))
  | .number => match readNumber? l.text with
    | some v => .ok (.literal v)
    | none => .error (.located l.span (.numberInvalid l.text))
  | .identifier => (ofIdentifier l.text).mapError (.located l.span)

/-- The source of a script call, which takes the text of the script and nothing else. -/
def ofScript (engine : Script.Engine) (params : List Node) (span : Span) : Except Fault Source :=
  match params with
  | [.value l] =>
    match Script.compile engine l.text with
    | .ok s => .ok (.script s)
    | .error f => .error (.located span f.cause)
  | _ => .error (.located span .scriptArity)

mutual
/-- The source that a node describes. A call without a name, or named `list`, collects its
parameters; one named `expr` is a script; any other applies a function to them. -/
def ofNode (fs : Functions) : Node → Except Fault Source
  | .value l => ofLiteral l
  | .call ⟨id, params, span⟩ =>
    if id = "" || id = "list" then (ofNodes fs params).map .collection
    else if id = "expr" then ofScript fs.engine params span
    else match fs.find? id with
      | some f => (ofNodes fs params).map (.apply f)
      | none => .error (.located span (.functionUnknown id))
  | .function ⟨⟨_, _, span⟩, _, _⟩ => .error (.located span (.notAValue "function"))
  | .statement _ span => .error (.located span (.notAValue "statement"))

def ofNodes (fs : Functions) : List Node → Except Fault (List Source)
  | [] => .ok []
  | n :: r =>
    match ofNode fs n with
    | .error f => .error f
    | .ok s => (ofNodes fs r).map (s :: ·)
end

end Source

/-- An operand; none is one that is not bound. -/
abbrev Operand := Option Source

namespace Operand

/-- An operand with a fixed value. -/
def literal (v : Value) : Operand := some (.literal v)

/-- The value of an operand in a context. An operand that is not bound, or has not been evaluated
in any context, is absent. -/
def read (c : Option Context) (o : Operand) : Value :=
  match c, o with
  | some c, some s => s.resolve c
  | _, _ => .absent

@[simp] theorem read_some (c : Context) (s : Source) : read (some c) (some s) = s.resolve c := rfl
@[simp] theorem read_none_right (c : Option Context) : read c none = .absent := by cases c <;> rfl
@[simp] theorem read_none_left (o : Operand) : read none o = .absent := by cases o <;> rfl

end Operand
end StoryScript
