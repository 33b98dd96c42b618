import StoryScript.Table
import StoryScript.Value

/-! What a story remembers while it runs: its variables, and when each message last came. -/
namespace StoryScript

/-- The memory of a running story. Times are in milliseconds. -/
structure Scope where
  vars : Table Value := ∅
  triggers : Table Int := ∅

namespace Scope

instance : EmptyCollection Scope := ⟨{}⟩
instance : Inhabited Scope := ⟨∅⟩

def get? (s : Scope) (name : String) : Option Value := s.vars.find? name

/-- The value of a variable, absent when it was never set. -/
def read (s : Scope) (name : String) : Value := (s.get? name).getD .absent

def set (s : Scope) (name : String) (v : Value) : Scope :=
  { s with vars := s.vars.insert name v }

def remove (s : Scope) (name : String) : Scope :=
  { s with vars := s.vars.erase name }

def trigger (s : Scope) (message : String) (now : Int) : Scope :=
  { s with triggers := s.triggers.insert message now }

/-- When a message last came. -/
def triggered? (s : Scope) (message : String) : Option Int := s.triggers.find? message

@[simp] theorem triggered?_set (s : Scope) (name m : String) (v : Value) :
    (s.set name v).triggered? m = s.triggered? m := rfl

@[simp] theorem get?_trigger (s : Scope) (m name : String) (now : Int) :
    (s.trigger m now).get? name = s.get? name := rfl

theorem get?_set (s : Scope) (name j : String) (v : Value) :
    (s.set name v).get? j = if j = name then some v else s.get? j :=
  s.vars.find?_insert name j v

theorem triggered?_trigger (s : Scope) (m j : String) (now : Int) :
    (s.trigger m now).triggered? j = if j = m then some now else s.triggered? j :=
  s.triggers.find?_insert m j now

end Scope
end StoryScript
