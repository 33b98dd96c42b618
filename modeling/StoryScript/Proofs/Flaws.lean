import StoryScript.Proofs.Literals
import StoryScript.Proofs.Locations
import StoryScript.Slot

/-! Which nodes a slot can be bound to. Binding goes through the calls that collect or apply their
parameters, and stops at the first node on its way that has a flaw of its own. -/
namespace StoryScript
open Numeral

/-! ### Indices -/

/-- The texts of indices: digits that spell less than `2 ^ 64`, possibly after a plus sign. -/
def IsIndex (cs : List Char) : Prop :=
  ∃ ds, (cs = ds ∨ cs = '+' :: ds) ∧ ds ≠ [] ∧ ds.all isDigit = true ∧ decimal ds < 2 ^ 64

theorem isSome_readNat?_below {ds : List Char} (bound : Nat) :
    ((readNat? ds).bind fun n => if n < bound then some n else none).isSome = true ↔
      ds ≠ [] ∧ ds.all isDigit = true ∧ decimal ds < bound := by
  by_cases h : ds ≠ [] ∧ ds.all isDigit = true
  · rw [readNat?_digits h.1 h.2, Option.bind_some, Option.isSome_ite, ← and_assoc, and_iff_right h]
  · rw [readNat?, if_neg h]
    exact iff_of_false Bool.false_ne_true fun hds => h ⟨hds.1, hds.2.1⟩

theorem isSome_readIndex? {cs : List Char} : (readIndex? cs).isSome = true ↔ IsIndex cs := by
  unfold readIndex?
  dsimp only
  split
  · next r =>
    refine (isSome_readNat?_below _).trans ?_
    constructor
    · exact fun h => ⟨r, .inr rfl, h⟩
    · rintro ⟨ds, rfl | hds, hne, hall, hlt⟩
      · cases hall
      · cases hds
        exact ⟨hne, hall, hlt⟩
  · next hplus =>
    refine (isSome_readNat?_below _).trans ?_
    constructor
    · exact fun h => ⟨cs, .inl rfl, h⟩
    · rintro ⟨ds, rfl | hds, h⟩
      · exact h
      · exact absurd hds (hplus ds)

/-- What an identifier is read as: a reference by its first character, or a text of its own. -/
theorem ofIdentifier_cases (text : String) :
    (text.toList.head? = some '@' ∧ Source.ofIdentifier text = .ok (.variable text)) ∨
    (text.toList = ['$', '$'] ∧ Source.ofIdentifier text = .ok .iterator) ∨
    (∃ index i, text.toList = '$' :: index ∧ readIndex? index = some i ∧
      Source.ofIdentifier text = .ok (.argument i)) ∨
    (∃ index, text.toList = '$' :: index ∧ index ≠ ['$'] ∧ readIndex? index = none ∧
      Source.ofIdentifier text = .error (.argumentInvalid text)) ∨
    (text.toList.head? ∉ [some '@', some '$'] ∧
      ∃ v, Source.ofIdentifier text = .ok (.literal v)) := by
  unfold Source.ofIdentifier
  split
  · next hl => exact .inl ⟨by rw [hl]; rfl, rfl⟩
  · next hl => exact .inr (.inl ⟨hl, rfl⟩)
  · next index hne hl =>
    cases hr : readIndex? index with
    | some i => exact .inr (.inr (.inl ⟨index, i, hl, hr, rfl⟩))
    | none => exact .inr (.inr (.inr (.inl ⟨index, hl, hne, hr, rfl⟩)))
  · next hvar _ harg =>
    refine .inr (.inr (.inr (.inr ⟨head?_notMem_sigils hvar harg, ?_⟩)))
    split_ifs <;> exact ⟨_, rfl⟩

namespace Node
variable (fs : Functions)

/-- Whether the parameters of a call of this name are bound along with it. -/
def descends (id : String) : Bool := id = "" || id = "list" || (id ≠ "expr" && (fs.find? id).isSome)

mutual
/-- The nodes that binding comes by: each before its parameters, and those from left to right. -/
def reached : Node → List Node
  | .value l => [.value l]
  | .call ⟨id, params, span⟩ =>
    .call ⟨id, params, span⟩ :: if descends fs id then reachedAll params else []
  | .function f => [.function f]
  | .statement gs span => [.statement gs span]

def reachedAll : List Node → List Node
  | [] => []
  | n :: r => reached n ++ reachedAll r
end

/-- What is wrong with a node, whatever its parameters are. -/
inductive Flaw : Node → Cause → Prop
  | function (f : Clause) : Flaw (.function f) (.notAValue "function")
  | statement (gs : List Clause) (span : Span) : Flaw (.statement gs span) (.notAValue "statement")
  | number {l : Literal} : l.token = .number → Source.readNumber? l.text = none →
    Flaw (.value l) (.numberInvalid l.text)
  | argument {l : Literal} {index : List Char} : l.token = .identifier →
    l.text.toList = '$' :: index → index ≠ ['$'] → ¬IsIndex index →
    Flaw (.value l) (.argumentInvalid l.text)
  | arity {c : Call} : c.id = "expr" → (∀ l, c.params ≠ [.value l]) → Flaw (.call c) .scriptArity
  | script {c : Call} {l : Literal} {f : Fault} : c.id = "expr" → c.params = [.value l] →
    Script.compile fs.engine l.text = .error f → Flaw (.call c) f.cause
  | unknown {c : Call} : c.id ∉ ["", "list", "expr"] → fs.find? c.id = none →
    Flaw (.call c) (.functionUnknown c.id)

def Sound (n : Node) : Prop := ∀ cause, ¬n.Flaw fs cause

/-- The first node of a list that has a flaw, and its flaw. -/
inductive FirstFlaw : List Node → Node → Cause → Prop
  | here {n : Node} {ns : List Node} {cause : Cause} : n.Flaw fs cause →
    FirstFlaw (n :: ns) n cause
  | later {n m : Node} {ns : List Node} {cause : Cause} : n.Sound fs → FirstFlaw ns m cause →
    FirstFlaw (n :: ns) m cause

/-- What the binding of some nodes comes to. -/
def Checked {β : Type} (ns : List Node) : Except Fault β → Prop
  | .ok _ => ∀ n ∈ ns, n.Sound fs
  | .error f => ∃ m cause, FirstFlaw fs ns m cause ∧ f = .located m.span cause

theorem reached_call (c : Call) : reached fs (.call c) =
    .call c :: if descends fs c.id then reachedAll fs c.params else [] := by
  cases c
  rw [reached]

variable {fs} {β γ : Type} {n m k : Node} {ns ms : List Node} {cause cause' : Cause}

/-! ### Flaws -/

theorem Flaw.unique (h : n.Flaw fs cause) (h' : n.Flaw fs cause') : cause = cause' := by
  cases h with
  | script hid hps hf =>
    cases h' with
    | script hid' hps' hf' =>
      cases hps.symm.trans hps'
      cases hf.symm.trans hf'
      rfl
    | arity _ hps' => exact absurd hps (hps' _)
    | unknown hid' => simp [hid] at hid'
  | _ => cases h' <;> simp_all

theorem FirstFlaw.append_right (h : FirstFlaw fs ns m cause) (ms : List Node) :
    FirstFlaw fs (ns ++ ms) m cause := by
  induction h with
  | here h => exact .here h
  | later hn _ ih => exact .later hn ih

theorem FirstFlaw.append_left (hs : ∀ n ∈ ns, n.Sound fs) (h : FirstFlaw fs ms m cause) :
    FirstFlaw fs (ns ++ ms) m cause := by
  induction ns with
  | nil => exact h
  | cons n ns ih =>
    obtain ⟨hn, hns⟩ := List.forall_mem_cons.1 hs
    exact .later hn (ih hns)

theorem FirstFlaw.unique (h : FirstFlaw fs ns m cause) (h' : FirstFlaw fs ns k cause') :
    m = k ∧ cause = cause' := by
  induction h with
  | here h =>
    cases h' with
    | here h' => exact ⟨rfl, h.unique h'⟩
    | later hn => exact absurd h (hn _)
  | later hn _ ih =>
    cases h' with
    | here h' => exact absurd h' (hn _)
    | later _ h' => exact ih h'

theorem FirstFlaw.not_sound (h : FirstFlaw fs ns m cause) : ¬∀ n ∈ ns, n.Sound fs := by
  induction h with
  | here h => exact fun hs => hs _ (.head _) _ h
  | later _ _ ih => exact fun hs => ih fun n hn => hs n (.tail _ hn)

/-- What binding comes to tells which flaw is the first, or that there is none. -/
theorem Checked.error_iff {r : Except Fault β} (h : Checked fs ns r) (f : Fault) :
    r = .error f ↔ ∃ m cause, FirstFlaw fs ns m cause ∧ f = .located m.span cause := by
  cases r with
  | ok b =>
    refine iff_of_false nofun ?_
    rintro ⟨m, cause, hfirst, -⟩
    exact hfirst.not_sound h
  | error g =>
    obtain ⟨m, cause, hfirst, rfl⟩ := h
    constructor
    · rintro ⟨⟩
      exact ⟨m, cause, hfirst, rfl⟩
    · rintro ⟨k, cause', hfirst', rfl⟩
      obtain ⟨rfl, rfl⟩ := hfirst.unique hfirst'
      rfl

theorem Checked.ok_iff {r : Except Fault β} (h : Checked fs ns r) :
    (∃ b, r = .ok b) ↔ ∀ n ∈ ns, n.Sound fs := by
  cases r with
  | ok b => exact iff_of_true ⟨b, rfl⟩ h
  | error g =>
    obtain ⟨m, cause, hfirst, -⟩ := h
    exact iff_of_false nofun hfirst.not_sound

/-! ### Binding -/

theorem Checked.map {r : Except Fault β} (h : Checked fs ns r) (g : β → γ) :
    Checked fs ns (r.map g) := by
  cases r <;> exact h

theorem Checked.flaw (h : n.Flaw fs cause) :
    Checked fs (n :: ns) (.error (.located n.span cause) : Except Fault β) :=
  ⟨n, cause, .here h, rfl⟩

theorem Checked.cons {r : Except Fault β} (hn : n.Sound fs) (h : Checked fs ns r) :
    Checked fs (n :: ns) r := by
  cases r with
  | ok b => exact List.forall_mem_cons.2 ⟨hn, h⟩
  | error f =>
    obtain ⟨m, cause, hfirst, hf⟩ := h
    exact ⟨m, cause, .later hn hfirst, hf⟩

theorem sound_value {l : Literal}
    (number : l.token = .number → (Source.readNumber? l.text).isSome = true)
    (argument : l.token = .identifier → ∀ index, l.text.toList = '$' :: index → index ≠ ['$'] →
      IsIndex index) : (Node.value l).Sound fs := by
  rintro cause hflaw
  cases hflaw with
  | number ht hr => simpa [hr] using number ht
  | argument ht hl hne hindex => exact hindex (argument ht _ hl hne)

theorem checked_ofIdentifier (fs : Functions) {l : Literal} (ht : l.token = .identifier) :
    Checked fs [.value l] ((Source.ofIdentifier l.text).mapError (.located l.span)) := by
  have sound (argument : ∀ index, l.text.toList = '$' :: index → index ≠ ['$'] → IsIndex index) :
      ∀ n ∈ [Node.value l], n.Sound fs := by
    rw [List.forall_mem_singleton]
    exact sound_value (fun hn => by simp [hn] at ht) fun _ => argument
  obtain ⟨hl, h⟩ | ⟨hl, h⟩ | ⟨index, i, hl, hi, h⟩ | ⟨index, hl, hne, hi, h⟩ | ⟨hl, v, h⟩ :=
    ofIdentifier_cases l.text <;> rw [h]
  · exact sound fun index hl' => by simp [hl'] at hl
  · refine sound fun index hl' hne => ?_
    cases hl.symm.trans hl'
    exact absurd rfl hne
  · refine sound fun index' hl' _ => ?_
    cases hl.symm.trans hl'
    rw [← isSome_readIndex?, hi]
    rfl
  · refine .flaw (n := .value l) (.argument ht hl hne ?_)
    rw [← isSome_readIndex?, hi]
    exact Bool.false_ne_true
  · exact sound fun index hl' => by simp [hl'] at hl

theorem checked_ofLiteral (fs : Functions) (l : Literal) :
    Checked fs [.value l] (Source.ofLiteral l) := by
  have sound (number : l.token = .number → (Source.readNumber? l.text).isSome = true)
      (ht : l.token ≠ .identifier) : ∀ n ∈ [Node.value l], n.Sound fs := by
    rw [List.forall_mem_singleton]
    exact sound_value number fun hi => absurd hi ht
  unfold Source.ofLiteral
  cases ht : l.token with
  | string => exact sound (fun hn => by simp [hn] at ht) (by simp [ht])
  | number =>
    cases hr : Source.readNumber? l.text with
    | some v => exact sound (fun _ => by rw [hr]; rfl) (by simp [ht])
    | none => exact .flaw (n := .value l) (.number ht hr)
  | identifier => exact checked_ofIdentifier fs ht

theorem checked_ofScript (fs : Functions) {c : Call} (hid : c.id = "expr") :
    Checked fs [.call c] (Source.ofScript fs.engine c.params c.span) := by
  unfold Source.ofScript
  split
  · next l hps =>
    cases hs : Script.compile fs.engine l.text with
    | ok s =>
      rintro n hn cause hflaw
      cases List.mem_singleton.1 hn
      cases hflaw with
      | arity _ hps' => exact hps' l hps
      | script _ hps' hf =>
        cases hps.symm.trans hps'
        cases hs.symm.trans hf
      | unknown hid' => simp [hid] at hid'
    | error f => exact .flaw (n := .call c) (.script hid hps hs)
  · next hps => exact .flaw (n := .call c) (.arity hid hps)

theorem checked_ofNodes {ps : List Node}
    (h : ∀ p ∈ ps, Checked fs (p.reached fs) (Source.ofNode fs p)) :
    Checked fs (reachedAll fs ps) (Source.ofNodes fs ps) := by
  induction ps with
  | nil => exact nofun
  | cons p r ih =>
    obtain ⟨hp, hr⟩ := List.forall_mem_cons.1 h
    have hr := ih hr
    rw [Source.ofNodes, reachedAll]
    cases hs : Source.ofNode fs p with
    | error f =>
      rw [hs] at hp
      obtain ⟨m, cause, hfirst, hf⟩ := hp
      exact ⟨m, cause, hfirst.append_right _, hf⟩
    | ok s =>
      -- All that this parameter reaches is sound, so a flaw further on is still the first.
      rw [hs] at hp
      cases hss : Source.ofNodes fs r with
      | error f =>
        rw [hss] at hr
        obtain ⟨m, cause, hfirst, hf⟩ := hr
        exact ⟨m, cause, .append_left hp hfirst, hf⟩
      | ok ss =>
        rw [hss] at hr
        exact List.forall_mem_append.2 ⟨hp, hr⟩

theorem sound_of_descends {c : Call} (h : descends fs c.id = true) : (Node.call c).Sound fs := by
  rintro cause hflaw
  cases hflaw with
  | arity hid | script hid => simp [descends, hid] at h
  | unknown hid hf => simp_all [descends]

theorem ofNode_of_descends {c : Call} (h : descends fs c.id = true) :
    ∃ g, (g = .collection ∨ ∃ f, g = .apply f) ∧
      Source.ofNode fs (.call c) = (Source.ofNodes fs c.params).map g := by
  obtain ⟨id, params, span⟩ := c
  simp only [descends, Bool.or_eq_true, Bool.and_eq_true, decide_eq_true_eq] at h
  rw [Source.ofNode]
  by_cases hcollection : id = "" ∨ id = "list"
  · exact ⟨.collection, .inl rfl, if_pos (by simpa using hcollection)⟩
  · obtain ⟨hexpr, hf⟩ := h.resolve_left hcollection
    obtain ⟨f, hf⟩ := Option.isSome_iff_exists.1 hf
    refine ⟨.apply f, .inr ⟨f, rfl⟩, ?_⟩
    rw [if_neg (by simpa using hcollection), if_neg hexpr, hf]

theorem ofNode_expr {c : Call} (h : c.id = "expr") :
    Source.ofNode fs (.call c) = Source.ofScript fs.engine c.params c.span := by
  obtain ⟨id, params, span⟩ := c
  cases h
  rfl

theorem ofNode_unknown {c : Call} (h : c.id ∉ ["", "list", "expr"])
    (hf : fs.find? c.id = none) :
    Source.ofNode fs (.call c) = .error (.located c.span (.functionUnknown c.id)) := by
  obtain ⟨id, params, span⟩ := c
  simp_all [Source.ofNode]

/-- A call goes on to its parameters, or is a script, or calls nothing that is known. -/
theorem call_cases (fs : Functions) (c : Call) : descends fs c.id = true ∨
    (c.id = "expr" ∧ descends fs c.id = false) ∨
    (c.id ∉ ["", "list", "expr"] ∧ fs.find? c.id = none ∧ descends fs c.id = false) := by
  by_cases hdown : descends fs c.id = true
  · exact .inl hdown
  · by_cases hid : c.id = "expr"
    · exact .inr (.inl ⟨hid, by simpa using hdown⟩)
    · simp_all [descends]

theorem checked_ofNode (fs : Functions) (n : Node) :
    Checked fs (n.reached fs) (Source.ofNode fs n) := by
  induction n using byParams with
  | value l => exact checked_ofLiteral fs l
  | function f =>
    obtain ⟨⟨id, params, span⟩, body, hasBody⟩ := f
    exact .flaw (n := .function ⟨⟨id, params, span⟩, body, hasBody⟩) (.function _)
  | statement gs span => exact .flaw (n := .statement gs span) (.statement gs span)
  | call c ih =>
    rw [reached_call]
    obtain hdown | ⟨hid, hdown⟩ | ⟨hid, hf, hdown⟩ := call_cases fs c
    · obtain ⟨g, -, hg⟩ := ofNode_of_descends hdown
      rw [hg, if_pos hdown]
      exact .cons (sound_of_descends hdown) ((checked_ofNodes ih).map g)
    · rw [ofNode_expr hid, hdown]
      exact checked_ofScript fs hid
    · rw [ofNode_unknown hid hf, hdown]
      exact .flaw (n := .call c) (.unknown hid hf)

end Node

/-- A slot can be bound to a node exactly if no node that binding comes by has a flaw. If not, the
fault is that of the first of them that has one, at its place. The slot is then left without an
operand, whatever it had, and has the value that its type has without one in every context. -/
theorem Slot.bind_reports {α : Type} [Inhabited α] [OfValue α] (fs : Functions) (n : Node)
    (s : Slot α) :
    ((s.bind fs n).2 = .ok () ↔ ∀ m ∈ n.reached fs, m.Sound fs) ∧
    (∀ f, (s.bind fs n).2 = .error f ↔
      ∃ m cause, Node.FirstFlaw fs (n.reached fs) m cause ∧ f = .located m.span cause) ∧
    ((s.bind fs n).2 ≠ .ok () → (s.bind fs n).1.operand = none ∧
      ∀ c, ((s.bind fs n).1.evaluate c).value = default) := by
  have checked := Node.checked_ofNode fs n
  cases h : Source.ofNode fs n with
  | ok source =>
    rw [h] at checked
    rw [bind_of_ok h]
    refine ⟨iff_of_true rfl checked, fun f => ?_, fun hne => absurd rfl hne⟩
    exact iff_of_false nofun fun hf => nomatch (checked.error_iff f).2 hf
  | error f =>
    rw [h] at checked
    rw [bind_of_error h]
    refine ⟨iff_of_false nofun fun hsound => ?_, fun g => ?_, fun _ => ⟨rfl, value_evaluate_none⟩⟩
    · obtain ⟨_, hok⟩ := checked.ok_iff.2 hsound
      cases hok
    · rw [← checked.error_iff g, Except.error.injEq, Except.error.injEq]

example : ((default : Slot Int64).bind .builtin (.call ⟨"list", [.call ⟨"none", [.statement [] default],
    default⟩, .value ⟨"$", .identifier, default⟩], default⟩)).2 =
    .error (.located default (.functionUnknown "none")) := by rfl

end StoryScript
