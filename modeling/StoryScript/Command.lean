import StoryScript.Operand

/-! Commands of a story. A command either acts at once, or waits for some time, or waits until
something has happened, or repeats a block of commands. The types are stated over what stands for
an operand, so that a command with its operands read is of the same form. -/
namespace StoryScript

/-- A variable and the value that it is to get. -/
structure Assignment (α : Type) where
  target : α
  value : α

/-- What a command does at once. -/
inductive Action (α : Type) where
  | assign (assignment : Assignment α)
  | post (message : α) (args : List α)
  | terminate
  | log (values : List α)
  | start (story : α)
  | stop (story : α)
  | pause (stories : List α) (paused : Bool)
  | send (message : α) (args : List α) (concurrent : Bool)
  | pauseHandlers (messages : List α) (paused : Bool)
  | callHost (function : α) (args : List α) (result : Option α)

/-- What a command waits for: that none of some stories runs, that one of some messages comes, or
that no handler of some messages is busy. -/
inductive Goal (α : Type) where
  | stories (ids : List α)
  | message (ids : List α)
  | handlers (ids : List α)

/-- After which time a wait is given up, and what is then assigned. -/
structure Timeout (α : Type) where
  limit : α
  assignment : Assignment α

/-- What a wait assigns when its goal is met and when it is given up. -/
structure Outcomes (α : Type) where
  success : Option (Assignment α) := none
  timeout : Option (Timeout α) := none

/-- A wait for a goal. -/
structure Await (α : Type) where
  goal : Goal α
  outcomes : Outcomes α

/-- What a block is repeated for: a number of times, or each of some values. -/
inductive Range (α : Type) where
  | times (count : α)
  | each (values : List α)

inductive Command where
  | act (action : Action Operand)
  | wait (time : Operand)
  | await (wait : Await Operand)
  | repeat (range : Range Operand) (body : List Command)

instance : Inhabited Command := ⟨.act .terminate⟩

section Map
variable {α β : Type}

/-- The same assignment with its operands replaced. -/
def Assignment.map (f : α → β) (a : Assignment α) : Assignment β := ⟨f a.target, f a.value⟩

def Action.map (f : α → β) : Action α → Action β
  | assign a => .assign (a.map f)
  | post m args => .post (f m) (args.map f)
  | terminate => .terminate
  | log vs => .log (vs.map f)
  | start s => .start (f s)
  | stop s => .stop (f s)
  | pause ss p => .pause (ss.map f) p
  | send m args c => .send (f m) (args.map f) c
  | pauseHandlers ms p => .pauseHandlers (ms.map f) p
  | callHost g args r => .callHost (f g) (args.map f) (r.map f)

def Goal.map (f : α → β) : Goal α → Goal β
  | stories ids => .stories (ids.map f)
  | message ids => .message (ids.map f)
  | handlers ids => .handlers (ids.map f)

def Timeout.map (f : α → β) (t : Timeout α) : Timeout β := ⟨f t.limit, t.assignment.map f⟩

def Outcomes.map (f : α → β) (o : Outcomes α) : Outcomes β :=
  ⟨o.success.map (·.map f), o.timeout.map (·.map f)⟩

def Await.map (f : α → β) (a : Await α) : Await β := ⟨a.goal.map f, a.outcomes.map f⟩

def Range.map (f : α → β) : Range α → Range β
  | times n => .times (f n)
  | each vs => .each (vs.map f)

end Map

/-! ### Names -/

def Action.name {α : Type} : Action α → String
  | assign _ => "assign"
  | post _ _ => "localmessage"
  | terminate => "terminate"
  | log _ => "log"
  | start _ => "startstory"
  | stop _ => "stopstory"
  | pause _ paused => if paused then "pausestory" else "resumestory"
  | send _ _ concurrent => if concurrent then "fireconcurrentmessage" else "firemessage"
  | pauseHandlers _ paused =>
    if paused then "pauseallmessagehandler" else "resumeallmessagehandler"
  | callHost _ _ _ => "hostcall"

def Goal.name {α : Type} : Goal α → String
  | stories _ => "waitstory"
  | message _ => "waitallmessage"
  | handlers _ => "waitallmessagehandler"

def Range.name {α : Type} : Range α → String
  | times _ => "loop"
  | each _ => "foreach"

def Command.name : Command → String
  | .act a => a.name
  | .wait _ => "wait"
  | .await a => a.goal.name
  | .repeat r _ => r.name

/-- Whether what follows an action may begin in the same tick. -/
def Action.chains {α : Type} : Action α → Bool
  | terminate => false
  | _ => true

/-- Whether what follows a command may begin in the tick in which it is over. -/
def Command.chains : Command → Bool
  | .act a => a.chains
  | .wait _ => false
  | .await _ | .repeat _ _ => true

end StoryScript
