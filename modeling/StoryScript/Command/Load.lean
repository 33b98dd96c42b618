import StoryScript.Vocabulary

/-! Commands loaded from nodes. Loading always succeeds as far as it can and reports what is at
fault: an unknown command is left out, an operand that cannot be bound stays unbound, and a command
with too few parameters keeps all of its operands unbound. -/
namespace StoryScript

/-- A result, with the faults that were found on the way to it in the order they were found. -/
structure Reported (α : Type) where
  result : α
  faults : List Fault

namespace Reported

instance : Monad Reported where
  pure a := ⟨a, []⟩
  bind x f :=
    let y := f x.result
    ⟨y.result, x.faults ++ y.faults⟩

variable {α β : Type}

@[simp] theorem result_pure (a : α) : (pure a : Reported α).result = a := rfl
@[simp] theorem faults_pure (a : α) : (pure a : Reported α).faults = [] := rfl
@[simp] theorem result_bind (x : Reported α) (f : α → Reported β) :
    (x >>= f).result = (f x.result).result := rfl
@[simp] theorem faults_bind (x : Reported α) (f : α → Reported β) :
    (x >>= f).faults = x.faults ++ (f x.result).faults := rfl

def report (f : Fault) : Reported Unit := ⟨(), [f]⟩

end Reported

open Reported

namespace Call

def bindNode (fs : Functions) (n : Node) : Reported Operand :=
  match Source.ofNode fs n with
  | .ok s => pure (some s)
  | .error f => ⟨none, [f]⟩

def operand (fs : Functions) (c : Call) (i : Nat) : Reported Operand :=
  match c.params[i]? with
  | some n => bindNode fs n
  | none => pure none

/-- The parameters from some index on as operands. -/
def operandsFrom (fs : Functions) (c : Call) (i : Nat) : Reported (List Operand) :=
  (c.params.drop i).mapM (bindNode fs)

/-- The name of a variable that is written down as such. -/
def variableName? : Node → Option String
  | .value ⟨text, .identifier, _⟩ => if text.startsWith "@" then some text else none
  | _ => none

/-- A parameter that names a variable to be assigned. -/
def target (fs : Functions) (c : Call) (i : Nat) : Reported Operand :=
  match (c.params[i]?).bind variableName? with
  | some name => pure (Operand.literal (.text name))
  | none => c.operand fs i

def assignment (fs : Functions) (c : Call) (i : Nat) : Reported (Assignment Operand) := do
  return ⟨← c.target fs i, ← c.operand fs (i + 1)⟩

/-- What is loaded from a call that needs some parameters, or what stands for it when the call has
fewer. -/
def requiring {α : Type} (c : Call) (least : Nat) (otherwise : α) (load : Reported α) :
    Reported α :=
  if least ≤ c.params.length then load
  else ⟨otherwise, [.located c.span (.tooFewParameters c.id least c.params.length)]⟩

end Call

namespace Verb
variable (fs : Functions)

/-- The command of a verb and its parameters, the body of a repetition being given. -/
def loadCall (v : Verb) (c : Call) (body : List Command) : Reported Command :=
  match v with
  | assign => c.requiring 2 v.blank do return .act (.assign (← c.assignment fs 0))
  | wait => c.requiring 1 v.blank do return .wait (← c.operand fs 0)
  | loop => do return .repeat (.times (← c.requiring 1 none (c.operand fs 0))) body
  | foreach => do return .repeat (.each (← c.operandsFrom fs 0)) body
  | localMessage => c.requiring 1 v.blank do
    return .act (.post (← c.operand fs 0) (← c.operandsFrom fs 1))
  | terminate => pure v.blank
  | log => do return .act (.log (← c.operandsFrom fs 0))
  | startStory => c.requiring 1 v.blank do return .act (.start (← c.operand fs 0))
  | stopStory => c.requiring 1 v.blank do return .act (.stop (← c.operand fs 0))
  | waitStory => c.requiring 1 v.blank do
    return .await ⟨.stories (← c.operandsFrom fs 0), {}⟩
  | pauseStory p => do return .act (.pause (← c.operandsFrom fs 0) p)
  | fireMessage concurrent => c.requiring 1 v.blank do
    return .act (.send (← c.operand fs 0) (← c.operandsFrom fs 1) concurrent)
  | waitMessage => c.requiring 1 v.blank do
    return .await ⟨.message (← c.operandsFrom fs 0), {}⟩
  | waitHandlers => c.requiring 1 v.blank do
    return .await ⟨.handlers (← c.operandsFrom fs 0), {}⟩
  | pauseHandlers p => do return .act (.pauseHandlers (← c.operandsFrom fs 0) p)
  | hostCall => c.requiring 1 v.blank do
    return .act (.callHost (← c.operand fs 0) (← c.operandsFrom fs 1) none)

def takesBody : Verb → Bool
  | loop | foreach => true
  | _ => false

/-- The command of a verb whose parameters and body are given. The body of a verb that takes none
is left out. -/
def load (v : Verb) (c : Call) (hasBody : Bool) (body : Reported (List Command)) :
    Reported Command :=
  if v.takesBody then
    let head := v.loadCall fs c body.result
    let missing := if hasBody then [] else [Fault.located c.span (.bodyMissing v.name)]
    ⟨head.result, head.faults ++ missing ++ body.faults⟩
  else
    let head := v.loadCall fs c []
    let surplus := if hasBody then [Fault.located c.span (.bodyUnexpected v.name)] else []
    ⟨head.result, surplus ++ head.faults⟩

end Verb

/-! ### Clauses -/

/-- The outcomes of a wait with one more clause, if it is one of theirs. -/
def Outcomes.loadClause? (fs : Functions) (o : Outcomes Operand) (c : Call) :
    Option (Reported (Outcomes Operand)) :=
  match c.id with
  | "set" => some <| c.requiring 2 o do return { o with success := some (← c.assignment fs 0) }
  | "timeoutset" => some <| c.requiring 3 o do
    return { o with timeout := some ⟨← c.operand fs 0, ← c.assignment fs 1⟩ }
  | _ => none

namespace Command
variable (fs : Functions)

/-- A command with one more clause, if it is one that the command accepts. -/
def loadClause? (command : Command) (c : Call) : Option (Reported Command) :=
  match command with
  | .await a => (a.outcomes.loadClause? fs c).map fun r => do return .await ⟨a.goal, ← r⟩
  | .act (.callHost function args _) =>
    if c.id = "result" then
      some <| c.requiring 1 command do
        return .act (.callHost function args (some (← c.target fs 0)))
    else none
  | _ => none

/-- A command with more clauses. One that it does not accept is left out. -/
def loadClauses (command : Command) : List Clause → Reported Command
  | [] => pure command
  | clause :: r =>
    match command.loadClause? fs clause.call with
    | some loaded => do loadClauses (← loaded) r
    | none => do
      report (.located clause.call.span (.clauseUnknown command.name clause.call.id))
      loadClauses command r

/-! ### Blocks -/

/-- The command of a name that is known, and nothing for one that is not. -/
def ofName (voc : Vocabulary) (name : String) (span : Span) (load : Verb → Reported Command) :
    Reported (Option Command) :=
  match voc.verbs.find? name with
  | some v => do return some (← load v)
  | none => ⟨none, [.located span (.commandUnknown name)]⟩

mutual
def ofNode (voc : Vocabulary) : Node → Reported (Option Command)
  | .value l => ofName voc l.text l.span fun v =>
    v.load voc.functions ⟨l.text, [], l.span⟩ false (pure [])
  | .call c => ofName voc c.id c.span fun v => v.load voc.functions c false (pure [])
  | .function ⟨c, body, hasBody⟩ => ofName voc c.id c.span fun v =>
    v.load voc.functions c hasBody (ofBlock voc body)
  | .statement [] span => ofName voc "" span fun v => pure v.blank
  | .statement (⟨c, body, hasBody⟩ :: clauses) span => ofName voc c.id span fun v => do
    (← v.load voc.functions c hasBody (ofBlock voc body)).loadClauses voc.functions clauses

def ofBlock (voc : Vocabulary) : List Node → Reported (List Command)
  | [] => pure []
  | n :: r => do
    let command ← ofNode voc n
    return command.toList ++ (← ofBlock voc r)
end

end Command
end StoryScript
