import StoryScript.Watch

/-! Blocks of commands under way. A block is run in ticks: in each, the command that waits is run
again, and then one command after another begins, until one does not finish, or one finishes that
ends the tick, or the steps of the tick are spent. A step is spent on each command that begins and
on each round of a repetition. -/
namespace StoryScript

/-- What a repetition has yet to go through: numbers below some bound, or values. -/
inductive Items where
  | numbers (next stop : Nat)
  | values (l : List Value)

def Items.next? : Items → Option (Value × Items)
  | numbers i n => if i < n then some (.int (.ofNat i), numbers (i + 1) n) else none
  | values (v :: r) => some (v, values r)
  | values [] => none

/-- The items of a range. A range over a single list goes through what the list holds. -/
def Range.items : Range Value → Items
  | times n => .numbers 0 n.toInt.toInt.toNat
  | each [.list vs] => .values vs
  | each vs => .values vs

/-- A repetition under way: what is still to come after the round of an item, and the commands of
that round that have not begun. -/
structure Loop where
  range : Range Operand
  body : List Command
  left : Items
  item : Value
  rest : List Command

def Loop.ofRange (range : Range Operand) (body : List Command) (read : Operand → Value) : Loop :=
  ⟨range, body, (range.map read).items, .absent, []⟩

/-- A block under way: the commands that have not begun, the repetitions that have, from the
innermost on, and the command that waits. It is deferred when its last tick was ended by one of its
own commands. -/
structure Queue where
  rest : List Command
  loops : List Loop := []
  waiting : Option Waiting := none
  deferred : Bool := false

/-- What a tick has to know: the time, the time since the last tick, the item of the round in which
the block stands, and the arguments. -/
structure Moment where
  now : Int
  delta : Int
  iterator : Value
  args : List Value

/-- What a tick comes to: the block as it is left, the stage, the steps that are left over, and what
happened. -/
structure Tick (ω : Type) where
  queue : Queue
  stage : Stage ω
  steps : Nat
  events : List Event

def Tick.after {ω : Type} (es : List Event) (t : Tick ω) : Tick ω :=
  { t with events := es ++ t.events }

namespace Tick
variable {ω : Type} (es fs : List Event) (t : Tick ω)

@[simp] theorem queue_after : (t.after es).queue = t.queue := rfl
@[simp] theorem stage_after : (t.after es).stage = t.stage := rfl
@[simp] theorem steps_after : (t.after es).steps = t.steps := rfl
@[simp] theorem events_after : (t.after es).events = es ++ t.events := rfl

@[simp] theorem after_after : (t.after es).after fs = t.after (fs ++ es) := by
  simp [Tick.after]

end Tick

namespace Queue

def ofBlock (cs : List Command) : Queue := { rest := cs }

/-- Whether a command of the block has begun and is not over. -/
def isBusy (q : Queue) : Bool := !q.loops.isEmpty || q.waiting.isSome

def size (q : Queue) : Nat := q.rest.length + q.isBusy.toNat

def isEmpty (q : Queue) : Bool := q.size = 0

theorem isEmpty_iff {q : Queue} :
    q.isEmpty = true ↔ q.rest = [] ∧ q.loops = [] ∧ q.waiting = none := by
  obtain ⟨rest, loops, w, d⟩ := q
  cases w <;> simp [isEmpty, size, isBusy, Nat.add_eq_zero_iff]

/-- The first command that is not over. -/
def active? (q : Queue) : Option Command :=
  match q.loops.getLast? with
  | some l => some (.repeat l.range l.body)
  | none => match q.waiting with
    | some w => some w.command
    | none => q.rest.head?

/-- The item of the innermost round, or else the one around the block. -/
def item (q : Queue) (outer : Value) : Value :=
  match q.loops with
  | l :: _ => l.item
  | [] => outer

def read {ω : Type} (q : Queue) (m : Moment) (s : Stage ω) : Operand → Value :=
  Operand.read (some ⟨s.scope.vars, q.item m.iterator, m.args⟩)

/-! ### Ticks -/

/-- What comes next in a block: nothing, a command, or a round for an item. The block is given as it
is once that has begun. -/
inductive Next where
  | nothing
  | command (c : Command) (q : Queue)
  | round (item : Value) (q : Queue)

/-- Takes off the repetitions that are over, from the innermost on. -/
def settle (rest : List Command) : List Loop → List Event × Queue × Next
  | [] =>
    match rest with
    | [] => ([], { rest := [] }, .nothing)
    | c :: r => ([], { rest := c :: r }, .command c { rest := r })
  | l :: ls =>
    match l.rest with
    | c :: r =>
      ([], { rest, loops := l :: ls }, .command c { rest, loops := { l with rest := r } :: ls })
    | [] =>
      match l.left.next? with
      | some (item, left) =>
        ([], { rest, loops := l :: ls },
          .round item { rest, loops := { l with left, item, rest := l.body } :: ls })
      | none =>
        let (es, q, next) := settle rest ls
        (.left false :: es, q, next)

variable {ω : Type}

/-- A tick that ends here, with the repetitions under way left pending. -/
def suspend (q : Queue) (steps : Nat) (s : Stage ω) : Tick ω :=
  ⟨q, s, steps, List.replicate q.loops.length (.left true)⟩

section
variable (q : Queue) (n : Nat) (s : Stage ω)

@[simp] theorem queue_suspend : (q.suspend n s).queue = q := rfl
@[simp] theorem stage_suspend : (q.suspend n s).stage = s := rfl
@[simp] theorem steps_suspend : (q.suspend n s).steps = n := rfl

@[simp] theorem effectsOf_suspend : effectsOf (q.suspend n s).events = [] :=
  effectsOf_replicate rfl _

end

/-- Ends a tick if the command that is over ends it, and goes on otherwise. -/
def proceed (q : Queue) (chains : Bool) (steps : Nat) (go : Queue → Stage ω → Tick ω)
    (s : Stage ω) : Tick ω :=
  if chains then go q s else suspend { q with deferred := q.loops.isEmpty } steps s

variable [World ω]

/-- Runs the command that waits, and goes on once it is over. -/
def resume (q : Queue) (m : Moment) (w : Waiting) (steps : Nat) (go : Queue → Stage ω → Tick ω)
    (s : Stage ω) : Tick ω :=
  let (pending, w', s', es) := w.run m.now m.delta (q.read m s) s
  .after (.entered :: es.map .effect ++ [.left pending]) <|
    if pending then suspend { q with waiting := some w' } steps s'
    else q.proceed w.command.chains steps go s'

/-- Begins a command, and goes on as far as it lets. -/
def start (q : Queue) (m : Moment) (c : Command) (steps : Nat) (go : Queue → Stage ω → Tick ω)
    (s : Stage ω) : Tick ω :=
  .after [.began c] <|
    match c with
    | .act a =>
      let (s', es) := (a.map (q.read m s)).run s
      .after (.entered :: es.map .effect ++ [.left false]) (q.proceed a.chains steps go s')
    | .wait limit => q.resume m (.time limit 0) steps go s
    | .await w => q.resume m (.goal w {}) steps go s
    | .repeat range body =>
      .after [.entered] (go { q with loops := .ofRange range body (q.read m s) :: q.loops } s)

/-- Goes on with a block of which no command waits, with some steps to spend. -/
def advance (m : Moment) : Nat → Queue → Stage ω → Tick ω
  | 0, q, s =>
    let (es, q, next) := settle q.rest q.loops
    .after es <|
      match next with
      | .nothing => q.suspend 0 s
      | .command c _ => .after [.effect (.warned (.stepsSpent c.name))] (q.suspend 0 s)
      | .round _ _ => q.suspend 0 s
  | n + 1, q, s =>
    let (es, q, next) := settle q.rest q.loops
    .after es <|
      match next with
      | .nothing => q.suspend (n + 1) s
      | .command c q => q.start m c n (advance m n) s
      | .round item q => .after [.round item] (advance m n q s)

def tick (q : Queue) (m : Moment) (steps : Nat) (s : Stage ω) : Tick ω :=
  .after (List.replicate q.loops.length .entered) <|
    match q.waiting with
    | none => advance m steps { q with deferred := false } s
    | some w =>
      resume { q with waiting := none, deferred := false } m w steps (advance m steps) s

end Queue
end StoryScript
