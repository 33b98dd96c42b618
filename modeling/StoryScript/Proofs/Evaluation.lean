import StoryScript.Proofs.Renewal
import StoryScript.Slot

/-! Commands that hold the values of their operands. Every operand is in a slot of its own, an
evaluation reads all slots anew, and a run goes by what they hold. Such a command does what one does
that only keeps the context of its last evaluation. However often it is evaluated before a run, the
last time is the only one that counts, and how far it has come is not touched by it. -/
namespace StoryScript

/-! ### Operands replaced twice -/

section
variable {α β γ : Type} (f : α → β) (g : β → γ)

@[simp] theorem Assignment.map_map (a : Assignment α) : (a.map f).map g = a.map (g ∘ f) := rfl

@[simp] theorem Action.map_map (a : Action α) : (a.map f).map g = a.map (g ∘ f) := by
  cases a <;> simp [Action.map]

@[simp] theorem Goal.map_map (a : Goal α) : (a.map f).map g = a.map (g ∘ f) := by
  cases a <;> simp [Goal.map]

@[simp] theorem Timeout.map_map (t : Timeout α) : (t.map f).map g = t.map (g ∘ f) := rfl

@[simp] theorem Outcomes.map_map (o : Outcomes α) : (o.map f).map g = o.map (g ∘ f) := by
  simp [Outcomes.map, Function.comp_def]

@[simp] theorem Await.map_map (a : Await α) : (a.map f).map g = a.map (g ∘ f) := by
  simp [Await.map]

@[simp] theorem Range.map_map (r : Range α) : (r.map f).map g = r.map (g ∘ f) := by
  cases r <;> simp [Range.map]

end

/-! ### Slots -/

namespace Slot

/-- The slot of an operand that was last read in some context, if it was ever read. -/
def held (c : Option Context) (o : Operand) : Slot Value := ⟨o, o.read c⟩

theorem evaluate_evaluate (c c' : Context) (s : Slot Value) :
    (s.evaluate c).evaluate c' = s.evaluate c' := by
  obtain ⟨_ | source, v⟩ := s <;> rfl

theorem evaluate_held (c : Option Context) (c' : Context) (o : Operand) :
    (held c o).evaluate c' = held (some c') o := by
  cases o <;> rfl

theorem copy_held (c : Option Context) (o : Operand) : (held c o).copy = held none o := by
  cases o <;> rfl

end Slot

/-! ### Commands with slots -/

/-- A command of which every operand is in a slot, and how far it has come. What the value in a slot is
taken for, such as a text or a number, is settled where the command runs. A repetition also keeps the
arguments of its last evaluation, which it hands on to the blocks of its rounds. -/
inductive Slotted where
  | act (action : Action (Slot Value))
  | wait (time : Slot Value) (elapsed : Int)
  | await (wait : Await (Slot Value)) (watch : Watch)
  | repeat (range : Range (Slot Value)) (args : List Value) (body : List Command) (rounds : Rounds)

/-- How far a command has come: the time that a wait has spent, when it began if it is for a goal, and
the items of a repetition, its block under way and how many rounds are over. -/
inductive Standing where
  | acts
  | waits (elapsed : Int)
  | awaits (watch : Watch)
  | repeats (rounds : Rounds)

namespace Slotted
open StoryScript.Task (Handling Sight)

def standing : Slotted → Standing
  | act _ => .acts
  | wait _ elapsed => .waits elapsed
  | await _ watch => .awaits watch
  | «repeat» _ _ _ rounds => .repeats rounds

/-- A command as it is loaded: no slot has been evaluated. -/
def ofCommand : Command → Slotted
  | .act a => act (a.map .ofOperand)
  | .wait limit => wait (.ofOperand limit) 0
  | .await w => await (w.map .ofOperand) {}
  | .repeat range body => «repeat» (range.map .ofOperand) [] body {}

def evaluate (c : Context) : Slotted → Slotted
  | act a => act (a.map (·.evaluate c))
  | wait limit elapsed => wait (limit.evaluate c) elapsed
  | await w watch => await (w.map (·.evaluate c)) watch
  | «repeat» range _ body rounds => «repeat» (range.map (·.evaluate c)) c.args body rounds

def reset : Slotted → Slotted
  | act a => act a
  | wait limit _ => wait limit 0
  | await w watch => await w { watch with elapsed := 0, start := none }
  | «repeat» range args body rounds =>
    «repeat» range args body { rounds with items := none, current := none, index := 0 }

/-- A copy of a command, whose slots are not evaluated, and which has not begun. -/
def clone : Slotted → Slotted
  | act a => act (a.map Slot.copy)
  | wait limit _ => wait limit.copy 0
  | await w _ => await (w.map Slot.copy) {}
  | «repeat» range _ body _ => «repeat» (range.map Slot.copy) [] body {}

structure Run (ω : Type) where
  pending : Bool
  slotted : Slotted
  stage : Stage ω
  steps : Nat
  effects : List Effect

def Run.sight {ω : Type} (r : Run ω) : Sight ω := ⟨r.pending, r.stage, r.steps, r.effects⟩

variable {ω : Type} [World ω]

/-- Runs a command once, with what its slots hold. -/
def run (d : Slotted) (now delta : Int) (steps : Nat) (s : Stage ω) : Run ω :=
  match d with
  | act a =>
    let (s, fx) := (a.map Slot.value).run s
    ⟨false, act a, s, steps, fx⟩
  | wait limit elapsed =>
    let elapsed := elapsed + delta
    ⟨elapsed < limit.value.toInt.toInt, wait limit elapsed, s, steps, []⟩
  | await w watch =>
    let (pending, watch, s, fx) := (w.map Slot.value).run watch now delta s
    ⟨pending, await w watch, s, steps, fx⟩
  | «repeat» range args body rounds =>
    let items := rounds.items.getD (range.map Slot.value).items
    let r := rounds.run body items now delta args steps s
    ⟨r.pending, «repeat» range args body ⟨some items, r.current, r.index⟩, r.stage, r.steps,
      r.effects⟩

def handle (d : Slotted) : Handling ω → Slotted
  | .evaluate c => d.evaluate c
  | .run now delta steps s => (d.run now delta steps s).slotted
  | .reset => d.reset
  | .clone => d.clone

def handleAll (d : Slotted) (hs : List (Handling ω)) : Slotted := hs.foldl handle d

def evaluateAll (d : Slotted) (cs : List Context) : Slotted := cs.foldl (fun d c => d.evaluate c) d

/-- What can be seen of one thing that is done with a command: only a run shows anything. -/
def sight? (d : Slotted) : Handling ω → Option (Sight ω)
  | .run now delta steps s => some (d.run now delta steps s).sight
  | .evaluate _ | .reset | .clone => none

/-- What can be seen of a command while one thing after another is done with it. -/
def sights (d : Slotted) : List (Handling ω) → List (Sight ω)
  | [] => []
  | h :: hs => (d.sight? h).toList ++ (d.handle h).sights hs

end Slotted

/-! ### Contexts and slots -/

namespace Task
open Slot (held)
variable {ω : Type} [World ω]

/-- The same command with its operands in slots. -/
def slotted : Task → Slotted
  | ⟨.act a, c, _⟩ => .act (a.map (held c))
  | ⟨.wait limit, c, (elapsed : Int)⟩ => .wait (held c limit) elapsed
  | ⟨.await w, c, (watch : Watch)⟩ => .await (w.map (held c)) watch
  | ⟨.repeat range body, c, (rounds : Rounds)⟩ =>
    .repeat (range.map (held c)) (args ⟨.repeat range body, c, rounds⟩) body rounds

def sight? (t : Task) : Handling ω → Option (Sight ω)
  | .run now delta steps s => some (t.run now delta steps s).sight
  | .evaluate _ | .reset | .clone => none

/-- What can be seen of a command while one thing after another is done with it. -/
def sights (t : Task) : List (Handling ω) → List (Sight ω)
  | [] => []
  | h :: hs => (t.sight? h).toList ++ (t.handle h).sights hs

def Run.slotted (r : Run ω) : Slotted.Run ω :=
  ⟨r.pending, r.task.slotted, r.stage, r.steps, r.effects⟩

theorem slotted_new (c : Command) : ({ command := c } : Task).slotted = .ofCommand c := by
  have hnew : Slot.ofOperand = held none := by
    funext o
    cases o <;> rfl
  cases c <;> (rw [Slotted.ofCommand, hnew]; rfl)

theorem slotted_evaluate (t : Task) (c : Context) :
    (t.evaluate c).slotted = t.slotted.evaluate c := by
  obtain ⟨command, c', p⟩ := t
  have hread : (fun s : Slot Value => s.evaluate c) ∘ held c' = held (some c) := by
    funext o
    exact Slot.evaluate_held c' c o
  cases command <;> simp [evaluate, slotted, Slotted.evaluate, hread, Slot.evaluate_held, args]

theorem slotted_reset (t : Task) : t.reset.slotted = t.slotted.reset := by
  obtain ⟨command, c, p⟩ := t
  cases command <;> rfl

theorem slotted_clone (t : Task) : t.clone.slotted = t.slotted.clone := by
  obtain ⟨command, c, p⟩ := t
  have hcopy : Slot.copy ∘ held c = held none := by
    funext o
    exact Slot.copy_held c o
  cases command <;> simp [clone, slotted, Slotted.clone, hcopy, Slot.copy_held, args]

/-- A run goes by what the slots hold as it goes by the context. -/
theorem slotted_run (t : Task) (now delta : Int) (steps : Nat) (s : Stage ω) :
    (t.run now delta steps s).slotted = t.slotted.run now delta steps s := by
  obtain ⟨command, c, p⟩ := t
  have hvalue : Slot.value ∘ held c = Operand.read c := rfl
  cases command with
  | wait limit => rfl
  | act a | await w => simp [run, slotted, Run.slotted, Slotted.run, hvalue]
  | «repeat» range body => simp [run, slotted, Run.slotted, Slotted.run, hvalue, args]

theorem slotted_handle (t : Task) (h : Handling ω) : (t.handle h).slotted = t.slotted.handle h := by
  cases h with
  | evaluate c => exact slotted_evaluate t c
  | run now delta steps s => exact congrArg Slotted.Run.slotted (slotted_run t now delta steps s)
  | reset => exact slotted_reset t
  | clone => exact slotted_clone t

theorem slotted_handleAll (t : Task) (hs : List (Handling ω)) :
    (t.handleAll hs).slotted = t.slotted.handleAll hs := by
  induction hs generalizing t with
  | nil => rfl
  | cons h hs ih => exact (ih (t.handle h)).trans (by rw [slotted_handle]; rfl)

theorem sight?_slotted (t : Task) (h : Handling ω) : t.slotted.sight? h = t.sight? h := by
  cases h with
  | run now delta steps s =>
    exact congrArg (fun r => some r.sight) (slotted_run t now delta steps s).symm
  | evaluate | reset | clone => rfl

/-- Nothing that is done with a command shows whether it keeps values or a context. -/
theorem sights_slotted (t : Task) (hs : List (Handling ω)) : t.slotted.sights hs = t.sights hs := by
  induction hs generalizing t with
  | nil => rfl
  | cons h hs ih => rw [Slotted.sights, sights, sight?_slotted, ← slotted_handle, ih]

end Task

/-! ### Evaluations -/

namespace Slotted
open StoryScript.Task (Handling)
variable {ω : Type} [World ω]

/-- An evaluation leaves alone how far a command has come. -/
theorem standing_evaluate (d : Slotted) (c : Context) : (d.evaluate c).standing = d.standing := by
  cases d <;> rfl

theorem standing_evaluateAll (d : Slotted) (cs : List Context) :
    (d.evaluateAll cs).standing = d.standing := by
  induction cs generalizing d with
  | nil => rfl
  | cons c cs ih => exact (ih (d.evaluate c)).trans (standing_evaluate d c)

/-- An evaluation leaves nothing of the one before it. -/
theorem evaluate_evaluate (d : Slotted) (c c' : Context) :
    (d.evaluate c).evaluate c' = d.evaluate c' := by
  have hslots : (fun s : Slot Value => s.evaluate c') ∘ Slot.evaluate c = Slot.evaluate c' := by
    funext s
    exact Slot.evaluate_evaluate c c' s
  cases d <;> simp [evaluate, hslots, Slot.evaluate_evaluate]

theorem evaluateAll_concat (d : Slotted) (cs : List Context) (last : Context) :
    d.evaluateAll (cs ++ [last]) = d.evaluate last := by
  induction cs generalizing d with
  | nil => rfl
  | cons c cs ih => exact (ih (d.evaluate c)).trans (evaluate_evaluate d c last)

/-- Evaluations show nothing. -/
theorem sights_evaluations (d : Slotted) (cs : List Context) (hs : List (Handling ω)) :
    d.sights (cs.map .evaluate ++ hs) = (d.evaluateAll cs).sights hs := by
  induction cs generalizing d with
  | nil => rfl
  | cons c cs ih => exact ih (d.evaluate c)

/-- Whatever has been done with a command, and however often it is then evaluated before it is run:
how far it has come is not touched by that, and what is seen of the run, and of all that is done with
the command later, is what is seen if it is only evaluated the last time. The same is seen of the
command if it only keeps the context of its last evaluation. -/
theorem sights_evaluateAll (c : Command) (before after : List (Handling ω)) (cs : List Context)
    (last : Context) (now delta : Int) (steps : Nat) (s : Stage ω) :
    let d := (ofCommand c).handleAll before
    let often := d.evaluateAll (cs ++ [last])
    let later := .run now delta steps s :: after
    often.standing = d.standing ∧ often.sights later = (d.evaluate last).sights later ∧
      (({ command := c } : Task).handleAll before).sights ((cs ++ [last]).map .evaluate ++ later) =
        often.sights later := by
  intro d often later
  have hcontext : (({ command := c } : Task).handleAll before).slotted = d := by
    rw [Task.slotted_handleAll, Task.slotted_new]
  refine ⟨standing_evaluateAll d _, ?_, ?_⟩
  · exact congrArg (·.sights later) (evaluateAll_concat d cs last)
  · rw [← Task.sights_slotted, hcontext]
    exact sights_evaluations d _ later

end Slotted
end StoryScript
