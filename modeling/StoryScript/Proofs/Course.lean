import StoryScript.Queue

/-! What a block comes to when nothing holds it up: every command acts when its turn comes, a wait
does nothing, and a repetition runs its body for each of its items. A block under way stands for
what it has yet to do. -/
namespace StoryScript

/-- What becomes of a stage, and the effects on the way. -/
abbrev Course (ω : Type) := Stage ω → Stage ω × List Effect

namespace Course
variable {ω : Type}

def idle : Course ω := fun s => (s, [])

/-- One course after another. -/
def andThen (f g : Course ω) : Course ω := fun s =>
  ((g (f s).1).1, (f s).2 ++ (g (f s).1).2)

/-- Courses one after another. -/
def all : List (Course ω) → Course ω
  | [] => idle
  | f :: r => f.andThen (all r)

@[simp] theorem idle_andThen (f : Course ω) : idle.andThen f = f := rfl

@[simp] theorem andThen_idle (f : Course ω) : f.andThen idle = f := by
  funext s
  simp [andThen, idle]

theorem andThen_assoc (f g h : Course ω) :
    (f.andThen g).andThen h = f.andThen (g.andThen h) := by
  funext s
  simp [andThen]

end Course

/-- The items that are still to come. -/
def Items.toList : Items → List Value
  | numbers i n => (List.range' i (n - i)).map fun k => .int (.ofNat k)
  | values l => l

theorem Items.toList_of_next?_eq_none {l : Items} (h : l.next? = none) : l.toList = [] := by
  cases l with
  | numbers i n =>
    simp only [next?] at h
    split at h
    · cases h
    · simp [toList, show n - i = 0 by omega]
  | values l => cases l <;> simp_all [next?, toList]

theorem Items.toList_of_next?_eq_some {l r : Items} {v : Value} (h : l.next? = some (v, r)) :
    l.toList = v :: r.toList := by
  cases l with
  | numbers i n =>
    simp only [next?] at h
    split at h
    · next hlt =>
      obtain ⟨rfl, rfl⟩ := Prod.mk.inj (Option.some.inj h)
      have hn : n - i = n - (i + 1) + 1 := by omega
      simp [toList, hn, List.range'_succ]
    · cases h
  | values l =>
    cases l with
    | nil => cases h
    | cons w l =>
      obtain ⟨rfl, rfl⟩ := Prod.mk.inj (Option.some.inj h)
      rfl

section
variable {ω : Type} [World ω] (args : List Value)

/-- How operands are read on a stage. -/
def Stage.read (args : List Value) (item : Value) (s : Stage ω) : Operand → Value :=
  Operand.read (some ⟨s.scope.vars, item, args⟩)

mutual
/-- What a command comes to in the round of an item. -/
def Command.course (item : Value) : Command → Course ω
  | .act a => fun s => (a.map (s.read args item)).run s
  | .wait _ | .await _ => .idle
  | .repeat range body => fun s =>
    Course.all ((range.map (s.read args item)).items.toList.map fun v => blockCourse v body) s

/-- What a block comes to in the round of an item. -/
def Command.blockCourse (item : Value) : List Command → Course ω
  | [] => .idle
  | c :: r => (c.course item).andThen (blockCourse item r)
end

open Command (blockCourse)

/-- What a repetition under way has yet to come to. -/
def Loop.course (l : Loop) : Course ω :=
  (blockCourse args l.item l.rest).andThen
    (.all (l.left.toList.map fun v => blockCourse args v l.body))

/-- What a block under way has yet to come to: its repetitions, from the innermost on, and then the
commands that have not begun. A command that waits has nothing more to do. -/
def Queue.course (iterator : Value) (q : Queue) : Course ω :=
  (Course.all (q.loops.map (·.course args))).andThen (blockCourse args iterator q.rest)

end
end StoryScript
