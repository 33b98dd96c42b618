import StoryScript.Proofs.Flaws
import StoryScript.Proofs.Reading
import StoryScript.Proofs.Scanning

/-! What a node names. The references of the operand that a node describes are those that stand in
its text, in tokens and in scripts, at any nesting; in two contexts that agree on them the operand
has the same value. -/
namespace StoryScript
namespace Node
open Script (Scans Spells Segment)

/-- The variables, items and arguments that stand in the text of a node. In a script an argument
whose index is too large is the first one; elsewhere it is none. -/
inductive Names : Node → Reference → Prop
  | variable {l : Literal} : l.token = .identifier → l.text.toList.head? = some '@' →
    Names (.value l) (.variable l.text)
  | iterator {l : Literal} : l.token = .identifier → l.text = "$$" → Names (.value l) .iterator
  | argument {l : Literal} {index : List Char} {i : Nat} : l.token = .identifier →
    l.text.toList = '$' :: index → Numeral.readIndex? index = some i →
    Names (.value l) (.argument i)
  | inside {c : Call} {p : Node} {r : Reference} : c.id ≠ "expr" → p ∈ c.params → Names p r →
    Names (.call c) r
  | script {c : Call} {l : Literal} {ss : List Segment} {s : Segment} {r : Reference} :
    c.id = "expr" → c.params = [.value l] → Scans l.text.toList ss → s ∈ ss →
    s.reference? = some r → Names (.call c) r

variable {fs : Functions} {n : Node} {c : Call} {l : Literal} {s : Source} {r : Reference}

/-! ### Tokens -/

theorem names_value : (Node.value l).Names r ↔ l.token = .identifier ∧
    ((l.text.toList.head? = some '@' ∧ r = .variable l.text) ∨ (l.text = "$$" ∧ r = .iterator) ∨
      ∃ index i, l.text.toList = '$' :: index ∧ Numeral.readIndex? index = some i ∧
        r = .argument i) := by
  constructor
  · intro h
    cases h with
    | «variable» ht hl => exact ⟨ht, .inl ⟨hl, rfl⟩⟩
    | iterator ht hl => exact ⟨ht, .inr (.inl ⟨hl, rfl⟩)⟩
    | argument ht hl hi => exact ⟨ht, .inr (.inr ⟨_, _, hl, hi, rfl⟩)⟩
  · rintro ⟨ht, ⟨hl, rfl⟩ | ⟨hl, rfl⟩ | ⟨index, i, hl, hi, rfl⟩⟩
    · exact .variable ht hl
    · exact .iterator ht hl
    · exact .argument ht hl hi

theorem references_ofIdentifier {text : String} (h : Source.ofIdentifier text = .ok s) :
    r ∈ s.references ↔ (text.toList.head? = some '@' ∧ r = .variable text) ∨
      (text = "$$" ∧ r = .iterator) ∨
      ∃ index i, text.toList = '$' :: index ∧ Numeral.readIndex? index = some i ∧
        r = .argument i := by
  have hiter : text = "$$" ↔ text.toList = ['$', '$'] := String.toList_inj.symm
  rw [hiter]
  obtain ⟨hl, hs⟩ | ⟨hl, hs⟩ | ⟨index, i, hl, hi, hs⟩ | ⟨index, hl, hne, hi, hs⟩ | ⟨hl, v, hs⟩ :=
    ofIdentifier_cases text <;> cases hs.symm.trans h
  · obtain ⟨w, hw⟩ := List.head?_eq_some_iff.1 hl
    simp [hw, Source.references]
  · have hread : Numeral.readIndex? ['$'] = none := rfl
    simp [hl, hread, Source.references]
  · have hdigits : index ≠ ['$'] := by
      rintro rfl
      cases hi
    simp [hl, hi, hdigits, Source.references]
  · refine iff_of_false (by simp [Source.references]) ?_
    rintro (⟨hl', -⟩ | ⟨hl', -⟩ | ⟨index, _, hl', -⟩) <;> simp [hl'] at hl

theorem names_ofLiteral (h : Source.ofLiteral l = .ok s) :
    r ∈ s.references ↔ (Node.value l).Names r := by
  rw [names_value]
  unfold Source.ofLiteral at h
  cases ht : l.token with
  | string =>
    rw [ht] at h
    cases h
    simp [Source.references]
  | number =>
    simp only [ht] at h
    split at h <;> cases h
    simp [Source.references]
  | identifier =>
    simp only [ht] at h
    cases hi : Source.ofIdentifier l.text with
    | error => rw [hi] at h; cases h
    | ok =>
      rw [hi] at h
      cases h
      simp [references_ofIdentifier hi]

/-! ### Calls -/

theorem names_call (h : c.id ≠ "expr") :
    (Node.call c).Names r ↔ ∃ p ∈ c.params, p.Names r := by
  constructor
  · intro hn
    cases hn with
    | inside _ hp hr => exact ⟨_, hp, hr⟩
    | script hid => exact absurd hid h
  · rintro ⟨p, hp, hr⟩
    exact .inside h hp hr

theorem names_ofScript (hid : c.id = "expr") (h : Source.ofScript fs.engine c.params c.span = .ok s) :
    r ∈ s.references ↔ (Node.call c).Names r := by
  unfold Source.ofScript at h
  split at h
  · next l hps =>
    unfold Script.compile at h
    dsimp only at h
    cases hp : fs.engine.read (Script.symbolText (Script.segmentsOf l.text.toList)) with
    | error => rw [hp] at h; cases h
    | ok body =>
      rw [hp] at h
      cases h
      rw [Source.references, Script.references, List.mem_filterMap]
      constructor
      · rintro ⟨x, hx, hr⟩
        exact .script hid hps (Script.scans_segmentsOf _) hx hr
      · intro hn
        cases hn with
        | inside hne => exact absurd hid hne
        | script _ hps' hscan hx hr =>
          cases hps.symm.trans hps'
          cases Script.scans_iff.1 hscan
          exact ⟨_, hx, hr⟩
  · cases h

theorem names_ofNodes {ps : List Node} {ss : List Source}
    (h : ∀ p ∈ ps, ∀ s, Source.ofNode fs p = .ok s → (r ∈ s.references ↔ p.Names r))
    (hs : Source.ofNodes fs ps = .ok ss) :
    r ∈ Source.allReferences ss ↔ ∃ p ∈ ps, p.Names r := by
  induction ps generalizing ss with
  | nil =>
    cases hs
    simp [Source.allReferences]
  | cons p ps ih =>
    obtain ⟨hp, hps⟩ := List.forall_mem_cons.1 h
    rw [Source.ofNodes] at hs
    split at hs
    · cases hs
    · next s hsource =>
      cases hrest : Source.ofNodes fs ps with
      | error => rw [hrest] at hs; cases hs
      | ok rest =>
        rw [hrest] at hs
        cases hs
        rw [Source.allReferences, List.mem_append, hp s hsource, ih hps hrest,
          List.exists_mem_cons_iff]

/-- The references of the operand that a node describes are those that stand in its text. -/
theorem names_iff (h : Source.ofNode fs n = .ok s) : r ∈ s.references ↔ n.Names r := by
  induction n using byParams generalizing s with
  | value l => exact names_ofLiteral h
  | function f =>
    obtain ⟨⟨id, params, span⟩, body, hasBody⟩ := f
    cases h
  | statement gs span => cases h
  | call c ih =>
    obtain hdown | ⟨hid, -⟩ | ⟨hid, hf, -⟩ := call_cases fs c
    · obtain ⟨g, hg, hcall⟩ := ofNode_of_descends hdown
      have hid : c.id ≠ "expr" := by
        intro hid
        simp [descends, hid] at hdown
      cases hps : Source.ofNodes fs c.params with
      | error => rw [hcall, hps] at h; cases h
      | ok ss =>
        rw [hcall, hps] at h
        cases h
        have hrefs : (g ss).references = Source.allReferences ss := by
          obtain rfl | ⟨f, rfl⟩ := hg <;> rfl
        rw [hrefs, names_call hid]
        exact names_ofNodes (fun p hp s hs => ih p hp hs) hps
    · rw [ofNode_expr hid] at h
      exact names_ofScript hid h
    · rw [ofNode_unknown hid hf] at h
      cases h

end Node

/-- A slot that is bound to a node has the same value in two contexts that agree on all that the
node names. If the node names nothing, the value is the same in all contexts. -/
theorem Slot.evaluate_names {α : Type} [Inhabited α] [OfValue α] (fs : Functions) (n : Node)
    (s : Slot α) :
    (∀ c d, (∀ r, n.Names r → c.value r = d.value r) →
      ((s.bind fs n).1.evaluate c).value = ((s.bind fs n).1.evaluate d).value) ∧
    ((∀ r, ¬n.Names r) → ∀ c d,
      ((s.bind fs n).1.evaluate c).value = ((s.bind fs n).1.evaluate d).value) := by
  have agree (c d : Context) (h : ∀ r, n.Names r → c.value r = d.value r) :
      ((s.bind fs n).1.evaluate c).value = ((s.bind fs n).1.evaluate d).value := by
    cases hs : Source.ofNode fs n with
    | error => rw [bind_of_error hs, value_evaluate_none, value_evaluate_none]
    | ok source =>
      have hvalue : source.resolve c = source.resolve d := by
        apply source.resolve_congr
        intro r hr
        exact h r ((Node.names_iff hs).1 hr)
      rw [bind_of_ok hs, value_evaluate_some, value_evaluate_some, hvalue]
  exact ⟨agree, fun hnone c d => agree c d fun r hr => absurd hr (hnone r)⟩

/-- A script in a call, which adds an argument to a variable. -/
def aim : Node :=
  .call ⟨"int", [.call ⟨"expr", [.value ⟨"@hp + $0", .string, .synthetic⟩], .synthetic⟩], .synthetic⟩

/-- Two contexts with the same first argument and the same variable `@hp`, which differ in another
variable, in the iterator and in the second argument. -/
theorem evaluate_names_aim :
    let c : Context := ⟨Table.ofList [("@hp", .int 7), ("@mp", .int 1)], .int 3, [.int 5]⟩
    let d : Context := ⟨Table.ofList [("@hp", .int 7), ("@mp", .int 2)], .absent, [.int 5, .int 9]⟩
    let slot : Slot Int64 := ((default : Slot Int64).bind .builtin aim).1
    (∀ r, aim.Names r → c.value r = d.value r) ∧
      (∀ r ∈ [.variable "@mp", .iterator, .argument 1], (c.value r).toInt ≠ (d.value r).toInt) ∧
      (slot.evaluate c).value = 12 ∧ (slot.evaluate c).value = (slot.evaluate d).value := by
  intro c d slot
  have hread : (Source.ofNode .builtin aim).toOption.map Source.references =
      some [.variable "@hp", .argument 0] := by decide +kernel
  obtain ⟨source, hsource, hrefs⟩ := Option.map_eq_some_iff.1 hread
  have hok : Source.ofNode .builtin aim = .ok source := by
    cases h : Source.ofNode .builtin aim with
    | error f => rw [h] at hsource; cases hsource
    | ok s => rw [h] at hsource; cases hsource; rfl
  have hagree (r : Reference) (hr : aim.Names r) : c.value r = d.value r := by
    have hr := (Node.names_iff hok).2 hr
    rw [hrefs] at hr
    obtain rfl | rfl : r = .variable "@hp" ∨ r = .argument 0 := by simpa using hr
    · rfl
    · rfl
  exact ⟨hagree, by decide +kernel, by decide +kernel,
    (Slot.evaluate_names .builtin aim default).1 c d hagree⟩

end StoryScript
