import StoryScript.Queue

/-! Single commands that are driven by hand: evaluated in a context, run any number of times, begun
anew, and copied. Every kind of command has its own record of how far it has come. A command that is
begun anew keeps the values of its operands; a copy has none until it is evaluated. -/
namespace StoryScript

/-! ### Rounds -/

def Items.size : Items → Nat
  | numbers i n => n - i
  | values l => l.length

def Items.get? : Items → Nat → Option Value
  | numbers i n, k => if i + k < n then some (.int (.ofNat (i + k))) else none
  | values l, k => l[k]?

/-- How far a repetition has come: its items once they are settled, the block of the round under way,
and how many rounds are over. -/
structure Rounds where
  items : Option Items := none
  current : Option Queue := none
  index : Nat := 0

namespace Rounds

/-- What a run of rounds comes to. -/
structure Run (ω : Type) where
  pending : Bool
  current : Option Queue
  index : Nat
  stage : Stage ω
  steps : Nat
  effects : List Effect

/-- The same run after some effects. -/
def Run.after {ω : Type} (fx : List Effect) (r : Run ω) : Run ω :=
  { r with effects := fx ++ r.effects }

variable {ω : Type} [World ω] (body : List Command) (items : Items) (now delta : Int)
  (args : List Value)

/-- Runs the block of a round, and goes on once it is over. A block that was ended by one of its own
commands leaves the other rounds for the next tick. -/
def turn (q : Queue) (index steps : Nat) (s : Stage ω) (go : Nat → Stage ω → Run ω) : Run ω :=
  let t := q.tick ⟨now, delta, (items.get? index).getD .absent, args⟩ steps s
  .after (effectsOf t.events) <|
    if !t.queue.isEmpty then ⟨true, some t.queue, index, t.stage, t.steps, []⟩
    else if t.queue.deferred then ⟨true, none, index + 1, t.stage, t.steps, []⟩
    else go t.steps t.stage

/-- Runs the rounds from some index on. -/
def begin (index steps : Nat) (s : Stage ω) : Run ω :=
  if index < items.size then
    match steps with
    | 0 => ⟨true, none, index, s, 0, []⟩
    | n + 1 => turn items now delta args (.ofBlock body) index n s (begin (index + 1))
  else ⟨false, none, index, s, steps, []⟩
termination_by items.size - index

/-- Runs the round under way, if there is one, and the rounds after it. -/
def run (r : Rounds) (steps : Nat) (s : Stage ω) : Run ω :=
  match r.current with
  | some q => turn items now delta args q r.index steps s (begin body items now delta args (r.index + 1))
  | none => begin body items now delta args r.index steps s

end Rounds

/-! ### Tasks -/

/-- How far a command of some kind has come: a wait keeps the time it has spent, a wait for a goal
also when it began, and a repetition its rounds. -/
def Progress : Command → Type
  | .act _ => Unit
  | .wait _ => Int
  | .await _ => Watch
  | .repeat _ _ => Rounds

/-- How far a command has come that has not begun. -/
def Progress.none : (c : Command) → Progress c
  | .act _ => ()
  | .wait _ => (0 : Int)
  | .await _ => ({} : Watch)
  | .repeat _ _ => ({} : Rounds)

/-- A command, the context in which it was last evaluated, and how far it has come. -/
structure Task where
  command : Command
  context : Option Context := none
  progress : Progress command := .none command

namespace Task

def evaluate (t : Task) (c : Context) : Task := { t with context := some c }

def reset : Task → Task
  | ⟨.act a, c, p⟩ => ⟨.act a, c, p⟩
  | ⟨.wait limit, c, _⟩ => ⟨.wait limit, c, (0 : Int)⟩
  | ⟨.await w, c, (watch : Watch)⟩ =>
    ⟨.await w, c, { watch with elapsed := 0, start := Option.none }⟩
  | ⟨.repeat range body, c, (rounds : Rounds)⟩ =>
    ⟨.repeat range body, c, { rounds with items := Option.none, current := Option.none, index := 0 }⟩

/-- A copy of a command, which is not evaluated and has not begun. -/
def clone : Task → Task
  | ⟨.act a, _, p⟩ => ⟨.act a, Option.none, p⟩
  | ⟨.wait limit, _, _⟩ => ⟨.wait limit, Option.none, (0 : Int)⟩
  | ⟨.await w, _, _⟩ => ⟨.await w, Option.none, (⟨0, Option.none⟩ : Watch)⟩
  | ⟨.repeat range body, _, _⟩ => ⟨.repeat range body, Option.none, (⟨Option.none, Option.none, 0⟩ : Rounds)⟩

def read (t : Task) : Operand → Value := Operand.read t.context

def args (t : Task) : List Value :=
  match t.context with
  | some c => c.args
  | Option.none => []

structure Run (ω : Type) where
  pending : Bool
  task : Task
  stage : Stage ω
  steps : Nat
  effects : List Effect

variable {ω : Type} [World ω]

/-- Runs a command once. What a repetition goes through is settled the first time. -/
def run (t : Task) (now delta : Int) (steps : Nat) (s : Stage ω) : Run ω :=
  match t with
  | ⟨.act a, c, p⟩ =>
    let (s, fx) := (a.map (Operand.read c)).run s
    ⟨false, ⟨.act a, c, p⟩, s, steps, fx⟩
  | ⟨.wait limit, c, (elapsed : Int)⟩ =>
    let elapsed := elapsed + delta
    ⟨elapsed < (Operand.read c limit).toInt.toInt, ⟨.wait limit, c, elapsed⟩, s, steps, []⟩
  | ⟨.await w, c, (watch : Watch)⟩ =>
    let (pending, watch, s, fx) := (w.map (Operand.read c)).run watch now delta s
    ⟨pending, ⟨.await w, c, watch⟩, s, steps, fx⟩
  | ⟨.repeat range body, c, (rounds : Rounds)⟩ =>
    let items := rounds.items.getD (range.map (Operand.read c)).items
    let r := rounds.run body items now delta t.args steps s
    ⟨r.pending, ⟨.repeat range body, c, (⟨some items, r.current, r.index⟩ : Rounds)⟩, r.stage,
      r.steps, r.effects⟩

end Task
end StoryScript
