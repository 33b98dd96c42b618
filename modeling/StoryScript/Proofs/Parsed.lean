import StoryScript.Proofs.Grammar

/-! What is known of a document because it has been read from a tree: every parameter is a token of
its form or a call of such parameters, and a clause that has no body has no commands in it. -/
namespace StoryScript
open Markup Grammar

/-- A node that may be a parameter. -/
inductive Node.Parameter : Node → Prop
  | value {l : Literal} : l.token.accepts l.text = true → Node.Parameter (.value l)
  | call {c : Call} : (∀ p ∈ c.params, Node.Parameter p) → Node.Parameter (.call c)

structure Clause.Formed (f : Clause) : Prop where
  params : ∀ p ∈ f.call.params, p.Parameter
  body : f.hasBody = false → f.body = []

/-- The clauses of a command. The first is the command itself. -/
def Node.clauses : Node → List Clause
  | .value _ => []
  | .call c => [.ofCall c]
  | .function f => [f]
  | .statement fs _ => fs

/-- What holds of a node when it holds of every parameter and every command in its clauses. -/
theorem Node.byClauses {P : Node → Prop}
    (step : ∀ n : Node, (∀ g ∈ n.clauses, ∀ m ∈ g.call.params ++ g.body, P m) → P n) (n : Node) :
    P n := one n
where
  one : ∀ n, P n
    | .value l => step (.value l) fun _ h => nomatch h
    | .call ⟨id, params, span⟩ => step (.call ⟨id, params, span⟩)
      (List.forall_mem_singleton.2 (List.forall_mem_append.2 ⟨all params, fun _ h => nomatch h⟩))
    | .function ⟨⟨id, params, span⟩, body, b⟩ => step (.function ⟨⟨id, params, span⟩, body, b⟩)
      (List.forall_mem_singleton.2 (List.forall_mem_append.2 ⟨all params, all body⟩))
    | .statement fs s => step (.statement fs s) (clauses fs)
  all : ∀ ns : List Node, ∀ n ∈ ns, P n
    | [] => fun _ h => nomatch h
    | n :: r => List.forall_mem_cons.2 ⟨one n, all r⟩
  clauses : ∀ fs : List Clause, ∀ f ∈ fs, ∀ n ∈ f.call.params ++ f.body, P n
    | [] => fun _ h => nomatch h
    | ⟨⟨_, params, _⟩, body, _⟩ :: r =>
      List.forall_mem_cons.2 ⟨List.forall_mem_append.2 ⟨all params, all body⟩, clauses r⟩

/-- A node that may be a command. -/
inductive Node.Parsed : Node → Prop
  | intro {n : Node} : n.clauses ≠ [] → (∀ f ∈ n.clauses, f.Formed) →
    (∀ f ∈ n.clauses, ∀ m ∈ f.body, Node.Parsed m) → Node.Parsed n

def Document.Parsed (d : Document) : Prop := ∀ h ∈ d.handlers, ∀ n ∈ h.body, n.Parsed

namespace Grammar

/-- An element of the second list stands for one of the first. -/
theorem exists_of_mem {α β : Type} {R : α → β → Prop} {l : List α} {m : List β}
    (h : List.Forall₂ R l m) {b : β} (hb : b ∈ m) : ∃ a ∈ l, R a b := by
  induction h with
  | nil => cases hb
  | cons hab _ ih =>
    rcases List.mem_cons.1 hb with rfl | hb
    · exact ⟨_, .head _, hab⟩
    · obtain ⟨a, ha, hr⟩ := ih hb
      exact ⟨a, .tail _ ha, hr⟩

variable {e : Element} {c : Call} {f : Clause} {n : Node}

theorem Ruled.rule (h : Ruled e) : Rule e := h e (.self e)

theorem Ruled.child {x : Element} (h : Ruled e) (hv : e.name ∉ values) (hx : x ∈ e.children) :
    Ruled x := fun y hy => h y (.inside hv hx hy)

theorem parameter_of_paramOf (h : ParamOf e n) (hr : Ruled e) : n.Parameter := by
  induction e using byChildren generalizing n with
  | step e ih =>
    cases h with
    | number h =>
      have rule := hr.rule
      simp only [Rule, h] at rule
      exact .value (Pattern.isNumeral_iff.2 rule)
    | identifier h =>
      have rule := hr.rule
      simp only [Rule, h] at rule
      exact .value (Pattern.isIdentifier_iff.2 rule)
    | string h => exact .value rfl
    | call h hps =>
      refine .call fun p hp => ?_
      obtain ⟨x, hx, hparam⟩ := exists_of_mem hps hp
      exact ih x hx hparam (hr.child (by simp [h, values]) hx)

theorem CallOf.params_parameter (h : CallOf e c) (hname : e.name = "call") (hr : Ruled e) :
    ∀ p ∈ c.params, p.Parameter := by
  intro p hp
  obtain ⟨x, hx, hparam⟩ := exists_of_mem h.params hp
  exact parameter_of_paramOf hparam (hr.child (by simp [hname, values]) hx)

/-- A clause of its form, with commands of their form in it. -/
def Fine (f : Clause) : Prop := f.Formed ∧ ∀ n ∈ f.body, n.Parsed

theorem fine_ofCall (h : ∀ p ∈ c.params, p.Parameter) : Fine (.ofCall c) :=
  ⟨⟨h, fun _ => rfl⟩, fun _ hn => nomatch hn⟩

theorem parsed_of_fine (hne : n.clauses ≠ []) (h : ∀ f ∈ n.clauses, Fine f) : n.Parsed :=
  .intro hne (fun f hf => (h f hf).1) fun f hf => (h f hf).2

/-- What the element of a command, of a clause and of a body tell of what was read from it. -/
structure Tells (e : Element) : Prop where
  command : ∀ n, CommandOf e n → n.Parsed
  clause : ∀ f, ClauseOf e f → Fine f
  block : e.name ∉ values → ∀ ns, List.Forall₂ CommandOf e.children ns → ∀ n ∈ ns, n.Parsed

theorem fine_of_functionOf (ih : ∀ x ∈ e.children, Ruled x → Tells x) (hname : e.name = "function")
    (hr : Ruled e) (h : FunctionOf e f) : Fine f := by
  have hv : e.name ∉ values := by simp [hname, values]
  cases h with
  | bare hx hcall hc hnone => exact fine_ofCall (hc.params_parameter hcall (hr.child hv hx))
  | block hx hcall hc hb hbody hns =>
    refine ⟨⟨hc.params_parameter hcall (hr.child hv hx), fun h => absurd h (by simp)⟩, ?_⟩
    exact (ih _ hb (hr.child hv hb)).block (by simp [hbody, values]) _ hns

theorem tells (hr : Ruled e) : Tells e := by
  induction e using byChildren with
  | step e ih =>
    refine ⟨?_, ?_, ?_⟩
    · intro n h
      cases h with
      | call hname hc =>
        refine parsed_of_fine (List.cons_ne_nil _ _) fun f hf => ?_
        exact List.mem_singleton.1 hf ▸ fine_ofCall (hc.params_parameter hname hr)
      | function hname h =>
        refine parsed_of_fine (List.cons_ne_nil _ _) fun f hf => ?_
        exact List.mem_singleton.1 hf ▸ fine_of_functionOf ih hname hr h
      | @statement _ fs hname hfs =>
        refine parsed_of_fine ?_ fun f hf => ?_
        · rintro (rfl : fs = [])
          have rule := hr.rule
          simp only [Rule, hname] at rule
          exact rule.1 (List.forall₂_nil_right_iff.1 hfs)
        · obtain ⟨x, hx, h⟩ := exists_of_mem hfs hf
          exact (ih x hx (hr.child (by simp [hname, values]) hx)).clause f h
    · intro f h
      cases h with
      | call hname hc => exact fine_ofCall (hc.params_parameter hname hr)
      | function hname h => exact fine_of_functionOf ih hname hr h
    · intro hv ns hns n hn
      obtain ⟨x, hx, h⟩ := exists_of_mem hns hn
      exact (ih x hx (hr.child hv hx)).command n h

end Grammar

/-- Every document that is read is well formed. -/
theorem Document.parsed_of_ofRoot {root : Element} {ds : List Document} {d : Document}
    (h : Document.ofRoot root = .ok ds) (hd : d ∈ ds) : d.Parsed := by
  obtain ⟨accepts, hds⟩ := (ofRoot_settles root).of_ok h
  obtain ⟨e, he, hdoc⟩ := exists_of_mem hds hd
  have story : e.name = "story" ∧ Ruled e := by
    unfold stories at he
    split at he
    · next hname =>
      cases List.mem_singleton.1 he
      exact ⟨hname, accepts.rules⟩
    · next hname =>
      have hstories := accepts.outermost.resolve_left hname
      have rule := accepts.rules.rule
      simp only [Rule, hstories] at rule
      exact ⟨by simpa using rule e he, accepts.rules.child (by simp [hstories, values]) he⟩
  intro k hk n hn
  obtain ⟨x, hx, hhandler⟩ := exists_of_mem hdoc.handlers hk
  have rule := story.2.rule
  simp only [Rule, story.1] at rule
  have hname : x.name = "onmessage" := by simpa using rule.2.2 x hx
  have hx := story.2.child (by simp [story.1, values]) hx
  exact (tells hx).block (by simp [hname, values]) _ hhandler.body n hn

end StoryScript
