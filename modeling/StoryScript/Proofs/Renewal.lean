import StoryScript.Task

/-! A command that is begun anew, and a copy of a command, are as good as new. Whatever was done
with the command before, its later rounds cannot be told from those of the command as it was loaded. -/
namespace StoryScript.Task
variable {ω : Type} [World ω]

/-! ### What can be done with a command, and what can be seen of it -/

/-- One thing that is done with a command. -/
inductive Handling (ω : Type) where
  | evaluate (c : Context)
  | run (now delta : Int) (steps : Nat) (s : Stage ω)
  | reset
  | clone

/-- A command after one more thing was done with it. -/
def handle (t : Task) : Handling ω → Task
  | .evaluate c => t.evaluate c
  | .run now delta steps s => (t.run now delta steps s).task
  | .reset => t.reset
  | .clone => t.clone

def handleAll (t : Task) (hs : List (Handling ω)) : Task := hs.foldl handle t

/-- A round of a command: the context in which it is evaluated, and what it is run with. -/
structure Round (ω : Type) where
  context : Context
  now : Int
  delta : Int
  steps : Nat
  stage : Stage ω

/-- What can be seen of a round: whether the command is pending, the stage it leaves, the steps that
are left over, and what it did. -/
structure Sight (ω : Type) where
  pending : Bool
  stage : Stage ω
  steps : Nat
  effects : List Effect

/-- One round of a command. -/
def turn (t : Task) (r : Round ω) : Run ω :=
  (t.evaluate r.context).run r.now r.delta r.steps r.stage

def Run.sight (r : Run ω) : Sight ω := ⟨r.pending, r.stage, r.steps, r.effects⟩

/-- What can be seen of the rounds of a command. -/
def watch (t : Task) : List (Round ω) → List (Sight ω)
  | [] => []
  | r :: rs => (t.turn r).sight :: (t.turn r).task.watch rs

/-! ### Commands that have not begun -/

theorem clone_eq (t : Task) : t.clone = { command := t.command } := by
  obtain ⟨c, context, p⟩ := t
  cases c <;> rfl

theorem reset_eq (t : Task) : t.reset = { command := t.command, context := t.context } := by
  obtain ⟨c, context, p⟩ := t
  cases c <;> rfl

@[simp] theorem command_evaluate (t : Task) (c : Context) : (t.evaluate c).command = t.command := rfl

@[simp] theorem command_reset (t : Task) : t.reset.command = t.command := by
  rw [reset_eq]

@[simp] theorem command_clone (t : Task) : t.clone.command = t.command := by
  rw [clone_eq]

@[simp] theorem command_run (t : Task) (now delta : Int) (steps : Nat) (s : Stage ω) :
    (t.run now delta steps s).task.command = t.command := by
  obtain ⟨c, context, p⟩ := t
  cases c <;> rfl

/-- Nothing that is done with a command makes another command of it. -/
@[simp] theorem command_handle (t : Task) (h : Handling ω) : (t.handle h).command = t.command := by
  cases h <;> simp [handle]

@[simp] theorem command_handleAll (t : Task) (hs : List (Handling ω)) :
    (t.handleAll hs).command = t.command := by
  induction hs generalizing t with
  | nil => rfl
  | cons h hs ih => exact (ih (t.handle h)).trans (command_handle t h)

/-! ### Commands that cannot be told apart -/

/-- Two commands that differ at most in the contexts in which they were evaluated. -/
def Alike (t u : Task) : Prop := ∀ c, t.evaluate c = u.evaluate c

theorem alike_clone (t : Task) : t.clone.Alike { command := t.command } := by
  intro c
  rw [clone_eq]

theorem alike_reset (t : Task) : t.reset.Alike { command := t.command } := by
  intro c
  rw [reset_eq]
  rfl

/-- A command that is evaluated before each round cannot be told from one like it. -/
theorem Alike.watch {t u : Task} (h : t.Alike u) (rs : List (Round ω)) : t.watch rs = u.watch rs := by
  cases rs with
  | nil => rfl
  | cons r rs =>
    -- The first round already leads both to the same state.
    have hturn : t.turn r = u.turn r := by simp only [turn, h r.context]
    simp only [Task.watch, hturn]

/-- Whatever was done with a command, a copy of it and the command begun anew go through any later
rounds as the command would that was never touched. -/
theorem watch_renewed {ω' : Type} [World ω'] (c : Command) (hs : List (Handling ω'))
    (rs : List (Round ω)) :
    let fresh : Task := { command := c }
    (fresh.handleAll hs).clone.watch rs = fresh.watch rs ∧
      (fresh.handleAll hs).reset.watch rs = fresh.watch rs := by
  intro fresh
  have hc : (fresh.handleAll hs).command = c := command_handleAll fresh hs
  constructor
  · have h := alike_clone (fresh.handleAll hs)
    rw [hc] at h
    exact h.watch rs
  · have h := alike_reset (fresh.handleAll hs)
    rw [hc] at h
    exact h.watch rs

end StoryScript.Task
