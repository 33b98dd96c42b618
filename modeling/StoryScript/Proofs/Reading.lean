import Mathlib.Data.List.Basic
import StoryScript.Command

/-! What operands refer to. The value of an operand depends on what it refers to and on nothing else,
so the operands of a command read the same in two places that agree on what they refer to. -/
namespace StoryScript

/-- Something outside of an operand that it may refer to. -/
inductive Reference where
  | variable (name : String)
  | iterator
  | argument (index : Nat)
  deriving DecidableEq

/-- What a reference stands for in a context. -/
def Context.value (c : Context) : Reference → Value
  | .variable name => c.variable name
  | .iterator => c.iterator
  | .argument i => c.argument i

/-! ### Sources -/

namespace Script

def Segment.reference? : Segment → Option Reference
  | .plain _ => none
  | .variable name => some (.variable (variableName name))
  | .iterator => some .iterator
  | .argument i => some (.argument i)

def references (s : Script) : List Reference := s.segments.filterMap Segment.reference?

variable {c d : Context}

theorem binding?_congr {s : Segment} (h : ∀ r ∈ s.reference?, c.value r = d.value r) :
    binding? c s = binding? d s := by
  cases s with
  | plain x => rfl
  | «variable» name | iterator | argument i =>
    have hv := h _ rfl
    simp only [Context.value] at hv
    simp only [binding?, hv]

theorem evaluate_congr {s : Script} (h : ∀ r ∈ s.references, c.value r = d.value r) :
    s.evaluate c = s.evaluate d := by
  have hb : s.bindings c = s.bindings d := by
    apply List.filterMap_congr
    intro x hx
    apply binding?_congr
    intro r hr
    exact h r (List.mem_filterMap.2 ⟨x, hx, hr⟩)
  simp only [evaluate, hb]

end Script

namespace Source

mutual
def references : Source → List Reference
  | .literal _ => []
  | .variable name => [.variable name]
  | .iterator => [.iterator]
  | .argument i => [.argument i]
  | .apply _ args => allReferences args
  | .script s => s.references
  | .collection items => allReferences items

def allReferences : List Source → List Reference
  | [] => []
  | s :: r => s.references ++ allReferences r
end

variable {c d : Context}

mutual
/-- A source has the same value in two contexts that agree on what it refers to. -/
theorem resolve_congr : (s : Source) → (∀ r ∈ s.references, c.value r = d.value r) →
    s.resolve c = s.resolve d
  | .literal _, _ => rfl
  | .variable name, h => h (.variable name) (by simp [references])
  | .iterator, h => h .iterator (by simp [references])
  | .argument i, h => h (.argument i) (by simp [references])
  | .apply f args, h => by
    rw [resolve, resolve, resolveAll_congr args h]
  | .script s, h => by
    rw [resolve, resolve, Script.evaluate_congr h]
  | .collection items, h => by
    rw [resolve, resolve, resolveAll_congr items h]

theorem resolveAll_congr : (l : List Source) → (∀ r ∈ allReferences l, c.value r = d.value r) →
    resolveAll c l = resolveAll d l
  | [], _ => rfl
  | s :: l, h => by
    have hs := resolve_congr s fun r hr => h r (List.mem_append_left _ hr)
    have hl := resolveAll_congr l fun r hr => h r (List.mem_append_right _ hr)
    rw [resolveAll, resolveAll, hs, hl]
end

end Source

def Operand.references (o : Operand) : List Reference := o.elim [] Source.references

theorem Operand.read_congr {c d : Context} {o : Operand}
    (h : ∀ r ∈ o.references, c.value r = d.value r) : read (some c) o = read (some d) o := by
  cases o with
  | none => rfl
  | some s => exact s.resolve_congr h

/-! ### Commands -/

section
variable {α β : Type} {f g : α → β}

def Assignment.operands (a : Assignment α) : List α := [a.target, a.value]

def Action.operands : Action α → List α
  | assign a => a.operands
  | post m args => m :: args
  | terminate => []
  | log vs => vs
  | start s => [s]
  | stop s => [s]
  | pause ss _ => ss
  | send m args _ => m :: args
  | pauseHandlers ms _ => ms
  | callHost f args r => f :: args ++ r.toList

def Goal.operands : Goal α → List α
  | stories ids | message ids | handlers ids => ids

def Timeout.operands (t : Timeout α) : List α := t.limit :: t.assignment.operands

def Outcomes.operands (o : Outcomes α) : List α :=
  o.success.elim [] Assignment.operands ++ o.timeout.elim [] Timeout.operands

def Await.operands (a : Await α) : List α := a.goal.operands ++ a.outcomes.operands

def Range.operands : Range α → List α
  | times n => [n]
  | each vs => vs

theorem Assignment.map_congr {a : Assignment α} (h : ∀ o ∈ a.operands, f o = g o) :
    a.map f = a.map g := by
  simp only [operands, List.forall_mem_cons] at h
  rw [map, map, h.1, h.2.1]

theorem Action.map_congr {a : Action α} (h : ∀ o ∈ a.operands, f o = g o) : a.map f = a.map g := by
  cases a with
  | assign a => rw [map, map, Assignment.map_congr h]
  | terminate => rfl
  | log vs | pause vs _ | pauseHandlers vs _ =>
    have hvs : vs.map f = vs.map g := List.map_congr_left h
    rw [map, map, hvs]
  | start s | stop s => rw [map, map, h s (by simp [operands])]
  | post m args | send m args _ =>
    obtain ⟨hm, hargs⟩ := List.forall_mem_cons.1 h
    rw [map, map, hm, List.map_congr_left hargs]
  | callHost k args r =>
    obtain ⟨hk, hrest⟩ := List.forall_mem_cons.1 h
    obtain ⟨hargs, hr⟩ := List.forall_mem_append.1 hrest
    have hr' : r.map f = r.map g := Option.map_congr fun o ho => hr o (Option.mem_toList.2 ho)
    rw [map, map, hk, List.map_congr_left hargs, hr']

theorem Goal.map_congr {a : Goal α} (h : ∀ o ∈ a.operands, f o = g o) : a.map f = a.map g := by
  cases a with
  | stories ids | message ids | handlers ids =>
    have hids : ids.map f = ids.map g := List.map_congr_left h
    rw [map, map, hids]

theorem Timeout.map_congr {t : Timeout α} (h : ∀ o ∈ t.operands, f o = g o) :
    t.map f = t.map g := by
  obtain ⟨hl, ha⟩ := List.forall_mem_cons.1 h
  rw [map, map, hl, Assignment.map_congr ha]

theorem Outcomes.map_congr {o : Outcomes α} (h : ∀ x ∈ o.operands, f x = g x) :
    o.map f = o.map g := by
  obtain ⟨success, timeout⟩ := o
  obtain ⟨hs, ht⟩ := List.forall_mem_append.1 h
  have hs' : success.map (·.map f) = success.map (·.map g) :=
    Option.map_congr fun a ha => Assignment.map_congr (by cases ha; exact hs)
  have ht' : timeout.map (·.map f) = timeout.map (·.map g) :=
    Option.map_congr fun t hm => Timeout.map_congr (by cases hm; exact ht)
  rw [map, map, hs', ht']

theorem Await.map_congr {a : Await α} (h : ∀ o ∈ a.operands, f o = g o) : a.map f = a.map g := by
  obtain ⟨hg, ho⟩ := List.forall_mem_append.1 h
  rw [map, map, Goal.map_congr hg, Outcomes.map_congr ho]

theorem Range.map_congr {r : Range α} (h : ∀ o ∈ r.operands, f o = g o) : r.map f = r.map g := by
  cases r with
  | times n => rw [map, map, h n (by simp [operands])]
  | each vs =>
    have hvs : vs.map f = vs.map g := List.map_congr_left h
    rw [map, map, hvs]

end

/-- The operands of a command, but for those of the commands that it repeats. -/
def Command.operands : Command → List Operand
  | .act a => a.operands
  | .wait limit => [limit]
  | .await w => w.operands
  | .repeat range _ => range.operands

/-- The operands of a command read the same whatever the item of the round in which it stands. -/
def Command.IgnoresItem (c : Command) : Prop := ∀ o ∈ c.operands, Reference.iterator ∉ o.references

instance (c : Command) : Decidable c.IgnoresItem :=
  inferInstanceAs (Decidable (∀ o ∈ c.operands, Reference.iterator ∉ o.references))

theorem Operand.read_of_iterator_notMem {o : Operand} (h : Reference.iterator ∉ o.references)
    (vars : Table Value) (v w : Value) (args : List Value) :
    read (some ⟨vars, v, args⟩) o = read (some ⟨vars, w, args⟩) o := by
  apply read_congr
  intro r hr
  cases r with
  | «variable» name => rfl
  | argument i => rfl
  | iterator => exact absurd hr h

end StoryScript
