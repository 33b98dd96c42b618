import StoryScript.Node.Json
import StoryScript.Proofs.Captured
import StoryScript.Proofs.Locations

/-! Nodes that come back from their JSON. A node says what it is, so that no two nodes are written
alike: whatever is nested in it, it is read as the node that was written, with its tokens, parameters,
bodies, clauses and places. -/
namespace StoryScript

/-- A place whose numbers 64 bits can hold. -/
structure Span.InWords (s : Span) : Prop where
  startLine : s.startLine < 2 ^ 64
  startColumn : s.startColumn < 2 ^ 64
  endLine : s.endLine < 2 ^ 64
  endColumn : s.endColumn < 2 ^ 64

/-! ### Records -/

theorem mapM_map_eq_some {α β γ : Type} {f : α → β} {g : β → Option γ} {h : α → γ} {l : List α}
    (hl : ∀ x ∈ l, g (f x) = some (h x)) : (l.map f).mapM g = some (l.map h) := by
  induction l with
  | nil => rfl
  | cons x l ih =>
    obtain ⟨hx, hl⟩ := List.forall_mem_cons.1 hl
    rw [List.map_cons, List.mapM_cons, hx, ih hl]
    rfl

/-- Of fields whose names are all different, one has the name of each. -/
theorem filter_name {α : Type} {fields : List (String × α)} (h : (fields.map (·.1)).Nodup)
    {f : String × α} (hf : f ∈ fields) : fields.filter (·.1 = f.1) = [f] := by
  induction fields with
  | nil => cases hf
  | cons g r ih =>
    obtain ⟨hg, hr⟩ := List.nodup_cons.1 h
    rcases List.mem_cons.1 hf with rfl | hf
    · have others : r.filter (·.1 = f.1) = [] := by
        apply List.filter_eq_nil_iff.2
        intro e he heq
        exact hg (List.mem_map.2 ⟨e, he, of_decide_eq_true heq⟩)
      simp [others]
    · have hne : g.1 ≠ f.1 := fun heq => hg (List.mem_map.2 ⟨f, hf, heq.symm⟩)
      simp [hne, ih hr hf]

namespace Json

variable {fields : List (String × Json)}

/-- An object is the record of its own fields. -/
theorem record?_fields (h : (fields.map (·.1)).Nodup) :
    (object fields).record? (fields.map (·.1)) = some (fields.map (·.2)) := by
  rw [record?]
  apply mapM_map_eq_some
  intro f hf
  rw [filter_name h hf]

theorem le_depthItems {items : List Json} {j : Json} (h : j ∈ items) :
    j.depth ≤ depthItems items := by
  induction items with
  | nil => cases h
  | cons k r ih =>
    rw [depthItems]
    rcases List.mem_cons.1 h with rfl | h
    · exact le_max_left _ _
    · exact le_max_of_le_right (ih h)

theorem le_depthFields {f : String × Json} (h : f ∈ fields) : f.2.depth ≤ depthFields fields := by
  induction fields with
  | nil => cases h
  | cons g r ih =>
    rw [depthFields]
    rcases List.mem_cons.1 h with rfl | h
    · exact le_max_left _ _
    · exact le_max_of_le_right (ih h)

end Json

/-! ### Places and tokens -/

theorem exists_word {n : Nat} (h : n < 2 ^ 64) : ∃ w : UInt64, w.toNat = n :=
  ⟨.ofNat n, UInt64.toNat_ofNat_of_lt' h⟩

namespace Span

variable {j j' j'' : Json}

theorem placeOfJson?_eq {line column : UInt64} (hj : j.record? ["line", "column"] = some [j', j''])
    (hline : j'.word? = some line) (hcolumn : j''.word? = some column) :
    placeOfJson? j = some (line.toNat, column.toNat) := by
  simp [placeOfJson?, hj, hline, hcolumn]

theorem placeOfJson?_place {line column : Nat} (hline : line < 2 ^ 64)
    (hcolumn : column < 2 ^ 64) :
    placeOfJson? (toJson.place line column) = some (line, column) := by
  obtain ⟨l, rfl⟩ := exists_word hline
  obtain ⟨c, rfl⟩ := exists_word hcolumn
  have fields : (toJson.place l.toNat c.toNat).record? ["line", "column"] =
      some [.ofNat l.toNat, .ofNat c.toNat] :=
    Json.record?_fields (List.nodup_iff_pairwise_ne.2 (by simp))
  exact placeOfJson?_eq fields (Value.word?_toNat l) (Value.word?_toNat c)

theorem ofJson?_eq {s : Span} (hj : j.record? ["start", "end"] = some [j', j''])
    (hstart : placeOfJson? j' = some (s.startLine, s.startColumn))
    (hend : placeOfJson? j'' = some (s.endLine, s.endColumn)) : Span.ofJson? j = some s := by
  simp [Span.ofJson?, hj, hstart, hend]

theorem InWords.ofJson?_toJson {s : Span} (h : s.InWords) : Span.ofJson? s.toJson = some s := by
  have fields : s.toJson.record? ["start", "end"] = some
      [toJson.place s.startLine s.startColumn, toJson.place s.endLine s.endColumn] :=
    Json.record?_fields (List.nodup_iff_pairwise_ne.2 (by simp))
  exact ofJson?_eq fields (placeOfJson?_place h.startLine h.startColumn)
    (placeOfJson?_place h.endLine h.endColumn)

end Span

theorem Token.ofJson?_name (t : Token) : Token.ofJson? (.text t.name) = some t := by
  cases t <;> rfl

/-! ### Nodes -/

theorem Literal.ofJson?_fields {v : Literal} (h : v.span.InWords) :
    Literal.ofJson? (.object v.fields) = some v := by
  have fields : (Json.object v.fields).record? ["text", "token", "location"] =
      some [.text v.text, .text v.token.name, v.span.toJson] :=
    Json.record?_fields (List.nodup_iff_pairwise_ne.2 (by simp [Literal.fields]))
  simp [Literal.ofJson?, fields, Json.text?, Token.ofJson?_name, h.ofJson?_toJson]

theorem nodesJson_eq_map (ns : List Node) : nodesJson ns = ns.map Node.toJson := by
  induction ns with
  | nil => rfl
  | cons n r ih => rw [nodesJson, ih, List.map_cons]

theorem clausesJson_eq_map (fs : List Clause) :
    clausesJson fs = fs.map fun f => .object f.fields := by
  induction fs with
  | nil => rfl
  | cons f r ih => rw [clausesJson, ih, List.map_cons]

theorem Call.fields_eq (c : Call) : c.fields =
    [("id", .text c.id), ("params", .array (c.params.map Node.toJson)),
      ("location", c.span.toJson)] := by
  obtain ⟨id, params, span⟩ := c
  rw [Call.fields, nodesJson_eq_map]

theorem Clause.fields_eq (f : Clause) : f.fields =
    [("call", .object f.call.fields), ("body", .array (f.body.map Node.toJson)),
      ("has_body", .bool f.hasBody)] := by
  obtain ⟨call, body, hasBody⟩ := f
  rw [Clause.fields, nodesJson_eq_map]

section
variable {node : Json → Option Node}

/-- Nodes come back as soon as each of them does. -/
theorem mapM_toJson {ns : List Node} (h : ∀ n ∈ ns, node n.toJson = some n) :
    (ns.map Node.toJson).mapM node = some ns := by
  rw [mapM_map_eq_some h, List.map_id']

theorem Call.ofJson?_fields {c : Call} (hspan : c.span.InWords)
    (hparams : ∀ p ∈ c.params, node p.toJson = some p) :
    Call.ofJson? node (.object c.fields) = some c := by
  have fields : (Json.object c.fields).record? ["id", "params", "location"] =
      some [.text c.id, .array (c.params.map Node.toJson), c.span.toJson] := by
    rw [fields_eq]
    exact Json.record?_fields (List.nodup_iff_pairwise_ne.2 (by simp))
  have read := mapM_toJson hparams
  obtain ⟨id, params, span⟩ := c
  simp [Call.ofJson?, fields, Json.text?, Json.items?, read, hspan.ofJson?_toJson]

theorem Clause.ofJson?_fields {f : Clause} (hspan : f.call.span.InWords)
    (hinner : ∀ n ∈ f.call.params ++ f.body, node n.toJson = some n) :
    Clause.ofJson? node (.object f.fields) = some f := by
  obtain ⟨hparams, hbody⟩ := List.forall_mem_append.1 hinner
  have fields : (Json.object f.fields).record? ["call", "body", "has_body"] =
      some [.object f.call.fields, .array (f.body.map Node.toJson), .bool f.hasBody] := by
    rw [fields_eq]
    exact Json.record?_fields (List.nodup_iff_pairwise_ne.2 (by simp))
  have readCall := Call.ofJson?_fields hspan hparams
  have readBody := mapM_toJson hbody
  obtain ⟨call, body, hasBody⟩ := f
  simp [Clause.ofJson?, fields, Json.items?, Json.bool?, readCall, readBody]

theorem statementOfJson?_fields {fs : List Clause} {s : Span} (hspan : s.InWords)
    (hclauses : ∀ f ∈ fs, Clause.ofJson? node (.object f.fields) = some f) :
    statementOfJson? node
      (.object [("functions", .array (clausesJson fs)), ("location", s.toJson)]) =
        some (.statement fs s) := by
  have fields : (Json.object [("functions", .array (clausesJson fs)),
      ("location", s.toJson)]).record? ["functions", "location"] =
        some [.array (clausesJson fs), s.toJson] :=
    Json.record?_fields (List.nodup_iff_pairwise_ne.2 (by simp))
  have clauses : (clausesJson fs).mapM (Clause.ofJson? node) = some fs := by
    rw [clausesJson_eq_map, mapM_map_eq_some hclauses, List.map_id']
  simp [statementOfJson?, fields, Json.items?, clauses, hspan.ofJson?_toJson]

end

/-- The kind of an object and its other fields. -/
theorem kinded?_object (inner : Bool) {name : String} {kind : NodeKind}
    (hname : NodeKind.ofName? name = some kind) (fields : List (String × Json))
    (hfields : ∀ f ∈ fields, f.1 ≠ "kind") :
    kinded? inner (.object (("kind", .text name) :: fields)) = some (kind, .object fields) := by
  have kinds : fields.filter (·.1 = "kind") = [] :=
    List.filter_eq_nil_iff.2 fun f hf h => hfields f hf (of_decide_eq_true h)
  have others : fields.filter (·.1 ≠ "kind") = fields :=
    List.filter_eq_self.2 fun f hf => decide_eq_true (hfields f hf)
  simp only [ne_eq, decide_not] at others
  simp [kinded?, kinds, others, NodeKind.ofJson?, hname]

/-! ### Nesting -/

section
variable {m : Node}

theorem Call.depth_lt {c : Call} (h : m ∈ c.params) : m.toJson.depth < Json.depthFields c.fields := by
  have hitem : m.toJson.depth ≤ Json.depthItems (c.params.map Node.toJson) :=
    Json.le_depthItems (List.mem_map_of_mem h)
  have hfield : (Json.array (c.params.map Node.toJson)).depth ≤ Json.depthFields c.fields :=
    Json.le_depthFields (f := ("params", .array (c.params.map Node.toJson))) (by simp [Call.fields_eq])
  rw [Json.depth] at hfield
  omega

theorem Clause.depth_lt {f : Clause} (h : m ∈ f.call.params ++ f.body) :
    m.toJson.depth < Json.depthFields f.fields := by
  rcases List.mem_append.1 h with h | h
  · have hcall := Call.depth_lt h
    have hfield : (Json.object f.call.fields).depth ≤ Json.depthFields f.fields :=
      Json.le_depthFields (f := ("call", .object f.call.fields)) (by simp [Clause.fields_eq])
    rw [Json.depth] at hfield
    omega
  · have hitem : m.toJson.depth ≤ Json.depthItems (f.body.map Node.toJson) :=
      Json.le_depthItems (List.mem_map_of_mem h)
    have hfield : (Json.array (f.body.map Node.toJson)).depth ≤ Json.depthFields f.fields :=
      Json.le_depthFields (f := ("body", .array (f.body.map Node.toJson))) (by simp [Clause.fields_eq])
    rw [Json.depth] at hfield
    omega

/-- A node inside another is written with fewer levels. -/
theorem Node.depth_lt {n : Node} {g : Clause} (hg : g ∈ n.clauses)
    (hm : m ∈ g.call.params ++ g.body) : m.toJson.depth < n.toJson.depth := by
  cases n with
  | value => cases hg
  | call c =>
    obtain rfl := List.mem_singleton.1 hg
    have hlt : m.toJson.depth < Json.depthFields c.fields :=
      Call.depth_lt (by simpa [Clause.ofCall] using hm)
    rw [toJson, Json.depth, Json.depthFields]
    omega
  | function f =>
    obtain rfl := List.mem_singleton.1 hg
    have hlt := Clause.depth_lt hm
    rw [toJson, Json.depth, Json.depthFields]
    omega
  | statement fs s =>
    have hlt := Clause.depth_lt hm
    have hitem : (Json.object g.fields).depth ≤ Json.depthItems (clausesJson fs) := by
      rw [clausesJson_eq_map]
      exact Json.le_depthItems (List.mem_map.2 ⟨g, hg, rfl⟩)
    simp only [toJson, Json.depth, Json.depthFields] at hitem ⊢
    omega

end

/-! ### Integers -/

theorem integral_word {n : Nat} (h : n < 2 ^ 64) : (Json.ofNat n).Integral :=
  .number (by omega) (by omega)

theorem Span.InWords.integral {s : Span} (h : s.InWords) : s.toJson.Integral := by
  have place {line column : Nat} (hline : line < 2 ^ 64) (hcolumn : column < 2 ^ 64) :
      (toJson.place line column).Integral := by
    refine .object ?_
    simpa using ⟨integral_word hline, integral_word hcolumn⟩
  refine .object ?_
  simpa using ⟨place h.startLine h.startColumn, place h.endLine h.endColumn⟩

/-- The numbers of a node are those of its places. -/
theorem Node.integral {n : Node} (h : ∀ s, n.At s → s.InWords) : n.toJson.Integral := by
  have call {c : Call} (hspan : c.span.InWords) (hparams : ∀ p ∈ c.params, p.toJson.Integral) :
      ∀ f ∈ c.fields, f.2.Integral := by
    have hitems : (Json.array (c.params.map Node.toJson)).Integral := .array (by simpa using hparams)
    simpa [Call.fields_eq] using ⟨.text c.id, hitems, hspan.integral⟩
  have clause {g : Clause} (hspan : g.call.span.InWords)
      (hinner : ∀ m ∈ g.call.params ++ g.body, m.toJson.Integral) :
      ∀ f ∈ g.fields, f.2.Integral := by
    obtain ⟨hparams, hbody⟩ := List.forall_mem_append.1 hinner
    have hitems : (Json.array (g.body.map Node.toJson)).Integral := .array (by simpa using hbody)
    simpa [Clause.fields_eq] using ⟨.object (call hspan hparams), hitems, .bool g.hasBody⟩
  induction n using byClauses with
  | step n ih =>
    have inner (g : Clause) (hg : g ∈ n.clauses) :
        ∀ m ∈ g.call.params ++ g.body, m.toJson.Integral :=
      fun m hm => ih g hg m hm fun s hs => h s (at_of_mem hg hm hs)
    have spans (g : Clause) (hg : g ∈ n.clauses) : g.call.span.InWords := h _ (.call hg)
    cases n with
    | value v =>
      refine .object ?_
      simpa [Literal.fields] using ⟨.text _, .text _, .text _, (h _ (.value v)).integral⟩
    | call c =>
      have hc := call (spans _ (.head _)) (by simpa [Clause.ofCall] using inner _ (.head _))
      refine .object (List.forall_mem_cons.2 ⟨.text _, hc⟩)
    | function f =>
      have hf := clause (spans f (.head _)) (inner f (.head _))
      refine .object (List.forall_mem_cons.2 ⟨.text _, hf⟩)
    | statement fs s =>
      have hfs : (Json.array (clausesJson fs)).Integral := by
        rw [clausesJson_eq_map]
        refine .array fun j hj => ?_
        obtain ⟨g, hg, rfl⟩ := List.mem_map.1 hj
        exact .object (clause (spans g hg) (inner g hg))
      refine .object ?_
      simpa using ⟨.text _, hfs, (h _ (.statement fs s)).integral⟩

/-! ### Nodes that come back -/

namespace Node

/-- A node is read from its JSON as itself, within as many levels as it is written with. -/
theorem ofJsonWithin?_toJson {n : Node} {levels : Nat} (inner : Bool)
    (hdepth : n.toJson.depth ≤ levels) (h : ∀ s, n.At s → s.InWords) :
    ofJsonWithin? levels inner n.toJson = some n := by
  induction n using byClauses generalizing levels inner with
  | step n ih =>
    cases levels with
    | zero => cases n <;> simp [toJson, Json.depth] at hdepth
    | succ levels =>
      have inside (g : Clause) (hg : g ∈ n.clauses) : ∀ m ∈ g.call.params ++ g.body,
          ofJsonWithin? levels true m.toJson = some m := by
        intro m hm
        have hlt := depth_lt hg hm
        exact ih g hg m hm true (by omega) fun s hs => h s (at_of_mem hg hm hs)
      have spans (g : Clause) (hg : g ∈ n.clauses) : g.call.span.InWords := h _ (.call hg)
      cases n with
      | value v =>
        have hkind := kinded?_object inner (rfl : NodeKind.ofName? "value" = some .value) v.fields
          (by simp [Literal.fields])
        have hv := Literal.ofJson?_fields (h _ (.value v))
        simp [ofJsonWithin?, toJson, hkind, hv]
      | call c =>
        have hkind := kinded?_object inner (rfl : NodeKind.ofName? "call" = some .call) c.fields
          (by simp [Call.fields_eq])
        have hc := Call.ofJson?_fields (c := c) (spans _ (.head _))
          (by simpa [Clause.ofCall] using inside _ (.head _))
        simp [ofJsonWithin?, toJson, hkind, hc]
      | function f =>
        have hkind := kinded?_object inner (rfl : NodeKind.ofName? "function" = some .function) f.fields
          (by simp [Clause.fields_eq])
        have hf := Clause.ofJson?_fields (spans f (.head _)) (inside f (.head _))
        simp [ofJsonWithin?, toJson, hkind, hf]
      | statement fs s =>
        have hkind := kinded?_object inner (rfl : NodeKind.ofName? "statement" = some .statement)
          [("functions", .array (clausesJson fs)), ("location", s.toJson)] (by simp)
        have hclauses : ∀ g ∈ fs, Clause.ofJson? (ofJsonWithin? levels true) (.object g.fields) =
            some g := fun g hg => Clause.ofJson?_fields (spans g hg) (inside g hg)
        have hfs := statementOfJson?_fields (h _ (.statement fs s)) hclauses
        simp [ofJsonWithin?, toJson, hkind, hfs]

/-- A node of such places whose JSON is nested at most 127 levels comes back from its text. -/
theorem ofJsonText?_toJsonText_of_depth_le {n : Node} (h : ∀ s, n.At s → s.InWords)
    (hdepth : n.toJson.depth ≤ 127) : ofJsonText? n.toJsonText = some n := by
  rw [ofJsonText?, toJsonText, (integral h).parse?_toText hdepth]
  exact ofJsonWithin?_toJson false le_rfl h

def lastLine : Span := ⟨2 ^ 64 - 1, 1, 2 ^ 64 - 1, 70⟩

/-- A wait in the last line of a long source, with a clause that has a body. -/
def lastWait : Node :=
  .statement
    [⟨⟨"waitstory", [.value ⟨"\"a\"\n", .string, lastLine⟩], lastLine⟩, [], false⟩,
     ⟨⟨"set", [.value ⟨"@r", .identifier, lastLine⟩,
         .call ⟨"list", [.value ⟨"1", .number, lastLine⟩], lastLine⟩], lastLine⟩,
       [.function ⟨⟨"loop", [], lastLine⟩, [], true⟩], true⟩]
    lastLine

theorem ofJsonText?_toJsonText_lastWait : (∀ s, lastWait.At s → s.InWords) ∧
    lastWait.toJson.depth ≤ 127 ∧ ofJsonText? lastWait.toJsonText = some lastWait := by
  have words : lastLine.InWords := by constructor <;> decide
  have places : ∀ s, lastWait.At s → s.InWords := by
    simp [lastWait, forall_at (n := .value _), forall_at (n := .call _),
      forall_at (n := .function _), forall_at (n := .statement _ _), clauses, Clause.ofCall, span,
      words, or_imp, forall_and]
  have depth : lastWait.toJson.depth ≤ 127 := by decide
  exact ⟨places, depth, ofJsonText?_toJsonText_of_depth_le places depth⟩

end Node
end StoryScript
