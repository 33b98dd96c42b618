import StoryScript.Operand

/-! Typed operands. A slot keeps the operand that it is bound to, and the value that its type made
of the operand where it was last evaluated. -/
namespace StoryScript

/-- An operand of some type, with the value that was last read from it. -/
structure Slot (α : Type) where
  operand : Operand
  value : α

namespace Slot
variable {α : Type} [Inhabited α]

/-- A slot that has not been evaluated yet. -/
def ofOperand (o : Operand) : Slot α := ⟨o, default⟩

instance : Inhabited (Slot α) := ⟨ofOperand none⟩

/-- A slot with a fixed value. -/
def literal (v : Value) : Slot α := ofOperand (.literal v)

/-- A slot that reads a variable. -/
def «variable» (name : String) : Slot α := ofOperand (some (.variable name))

/-- A slot with the same operand, which has not been evaluated yet. -/
def copy (s : Slot α) : Slot α := ofOperand s.operand

/-- Binds a slot to what a node describes. When the node describes nothing, the slot is left
without an operand. -/
def bind (fs : Functions) (n : Node) (s : Slot α) : Slot α × Except Fault Unit :=
  let s := { s with value := default }
  match Source.ofNode fs n with
  | .ok source => ({ s with operand := some source }, .ok ())
  | .error f => ({ s with operand := none }, .error f)

/-- Reads the operand of a slot in a context. -/
def evaluate [OfValue α] (c : Context) (s : Slot α) : Slot α :=
  match s.operand with
  | some source => { s with value := OfValue.ofValue (source.resolve c) }
  | none => { s with value := default }

section
variable {fs : Functions} {n : Node} {source : Source} {f : Fault}

theorem bind_of_ok (h : Source.ofNode fs n = .ok source) (s : Slot α) :
    s.bind fs n = (ofOperand (some source), .ok ()) := by
  rw [bind, h]
  rfl

theorem bind_of_error (h : Source.ofNode fs n = .error f) (s : Slot α) :
    s.bind fs n = (ofOperand none, .error f) := by
  rw [bind, h]
  rfl

theorem value_evaluate_some [OfValue α] (c : Context) :
    ((ofOperand (some source) : Slot α).evaluate c).value = OfValue.ofValue (source.resolve c) := rfl

theorem value_evaluate_none [OfValue α] (c : Context) :
    ((ofOperand none : Slot α).evaluate c).value = default := rfl

end

end Slot
end StoryScript
