import StoryScript.Table
import StoryScript.Value

/-! What an operand can refer to while a story runs: the variables of the story, the item of the
innermost loop, and the arguments of the message that is being handled. -/
namespace StoryScript

/-- The surroundings of an operand. -/
structure Context where
  vars : Table Value
  iterator : Value
  args : List Value

instance : Inhabited Context := ⟨∅, .absent, []⟩

/-- The value of a variable, absent when it was never set. -/
def Context.variable (c : Context) (name : String) : Value := (c.vars.find? name).getD .absent

/-- The value of an argument, absent when there are not so many. -/
def Context.argument (c : Context) (i : Nat) : Value := (c.args[i]?).getD .absent

end StoryScript
