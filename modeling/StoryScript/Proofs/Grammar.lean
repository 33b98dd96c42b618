import StoryScript.Document
import StoryScript.Proofs.Pattern

/-! The grammar of story files. A tree of elements is a story file when its root is one of the two
that may be and every element that is read keeps the rule for its name. What the reader makes of
such a tree mirrors it, and it refuses every other tree. -/
namespace StoryScript
open Markup

namespace Grammar

def values : List String := ["num", "str", "ident"]
def parameters : List String := "call" :: values
def clauses : List String := ["call", "function"]
def commands : List String := "statement" :: clauses
def parts : List String := ["call", "body"]

/-- The elements directly inside `e` have names of a list. -/
def Only (names : List String) (e : Element) : Prop := ∀ c ∈ e.children, c.name ∈ names

def count (name : String) (es : List Element) : Nat := es.countP fun c => c.name = name

/-- The id of an element, without the blanks around it. -/
def trimmedId (e : Element) : String := trim ((e.attribute? "id").getD "")

/-- The rule for an element, by its name. -/
def Rule (e : Element) : Prop :=
  match e.name with
  | "stories" => Only ["story"] e
  | "story" =>
    trimmedId e ≠ "" ∧ e.attribute? "persistent" ∈ [none, some "true", some "false"] ∧
      Only ["onmessage"] e
  | "onmessage" => trimmedId e ≠ "" ∧ Only commands e
  | "body" => Only commands e
  | "call" => Only parameters e
  | "function" => count "call" e.children = 1 ∧ count "body" e.children ≤ 1 ∧ Only parts e
  | "statement" => e.children ≠ [] ∧ Only clauses e
  | "num" => (trim e.text).toList ∈ Pattern.number
  | "ident" => (trim e.text).toList ∈ Pattern.identifier
  | "str" => True
  | _ => False

/-- The elements that are read with an element. Of a value only the text is read. -/
inductive Reaches : Element → Element → Prop
  | self (e : Element) : Reaches e e
  | inside {e c x : Element} : e.name ∉ values → c ∈ e.children → Reaches c x → Reaches e x

/-- Every element that is read with `e` keeps its rule. -/
def Ruled (e : Element) : Prop := ∀ x, Reaches e x → Rule x

/-- The stories of a root. -/
def stories (root : Element) : List Element :=
  if root.name = "story" then [root] else root.children

/-- A tree is a story file. -/
structure Accepts (root : Element) : Prop where
  outermost : root.name = "story" ∨ root.name = "stories"
  rules : Ruled root
  distinct : ((stories root).map trimmedId).Nodup

/-! ### What a tree stands for -/

inductive ParamOf : Element → Node → Prop
  | number {e : Element} : e.name = "num" → ParamOf e (.value ⟨trim e.text, .number, e.span⟩)
  | identifier {e : Element} :
    e.name = "ident" → ParamOf e (.value ⟨trim e.text, .identifier, e.span⟩)
  | string {e : Element} : e.name = "str" → ParamOf e (.value ⟨e.text, .string, e.span⟩)
  | call {e : Element} {ps : List Node} : e.name = "call" → List.Forall₂ ParamOf e.children ps →
    ParamOf e (.call ⟨(e.attribute? "id").getD "", ps, e.span⟩)

/-- A call has the id of its element as it is written and the parameters inside it. -/
structure CallOf (e : Element) (c : Call) : Prop where
  id : c.id = (e.attribute? "id").getD ""
  params : List.Forall₂ ParamOf e.children c.params
  span : c.span = e.span

mutual
inductive CommandOf : Element → Node → Prop
  | call {e : Element} {c : Call} : e.name = "call" → CallOf e c → CommandOf e (.call c)
  | function {e : Element} {f : Clause} :
    e.name = "function" → FunctionOf e f → CommandOf e (.function f)
  | statement {e : Element} {fs : List Clause} : e.name = "statement" →
    List.Forall₂ ClauseOf e.children fs → CommandOf e (.statement fs e.span)

inductive ClauseOf : Element → Clause → Prop
  | call {e : Element} {c : Call} : e.name = "call" → CallOf e c → ClauseOf e ⟨c, [], false⟩
  | function {e : Element} {f : Clause} : e.name = "function" → FunctionOf e f → ClauseOf e f

inductive FunctionOf : Element → Clause → Prop
  | bare {e x : Element} {c : Call} : x ∈ e.children → x.name = "call" → CallOf x c →
    (∀ b ∈ e.children, b.name ≠ "body") → FunctionOf e ⟨c, [], false⟩
  | block {e x b : Element} {c : Call} {ns : List Node} :
    x ∈ e.children → x.name = "call" → CallOf x c →
    b ∈ e.children → b.name = "body" → List.Forall₂ CommandOf b.children ns →
    FunctionOf e ⟨c, ns, true⟩
end

structure HandlerOf (e : Element) (h : HandlerDecl) : Prop where
  messageId : h.messageId = trimmedId e
  body : List.Forall₂ CommandOf e.children h.body
  span : h.span = e.span

structure DocumentOf (e : Element) (d : Document) : Prop where
  storyId : d.storyId = trimmedId e
  persistent : d.persistent = true ↔ e.attribute? "persistent" = some "true"
  handlers : List.Forall₂ HandlerOf e.children d.handlers
  span : d.span = e.span

/-! ### Readers that decide -/

/-- A reading succeeds exactly when `p` holds, and then with a result of which `R` holds. -/
def Settles {α : Type} (x : Except Fault α) (p : Prop) (R : α → Prop) : Prop :=
  match x with
  | .ok a => p ∧ R a
  | .error _ => ¬p

section
variable {α β : Type} {x : Except Fault α} {p q : Prop} {R S : α → Prop}

theorem Settles.of_ok {a : α} (h : Settles x p R) (hx : x = .ok a) : p ∧ R a := by
  subst hx
  exact h

theorem Settles.exists_ok (h : Settles x p R) (hp : p) : ∃ a, x = .ok a := by
  cases x with
  | ok a => exact ⟨a, rfl⟩
  | error f => exact absurd hp h

theorem Settles.imp (h : Settles x p R) (hpq : p ↔ q) (hRS : ∀ a, R a → S a) : Settles x q S := by
  cases x with
  | ok a => exact ⟨hpq.1 h.1, hRS a h.2⟩
  | error f => exact fun hq => h (hpq.2 hq)

theorem Settles.bind {k : α → Except Fault β} {T : β → Prop} (h : Settles x p R)
    (hk : ∀ a, R a → Settles (k a) q T) : Settles (x >>= k) (p ∧ q) T := by
  cases x with
  | ok a => exact (hk a h.2).imp ⟨fun hq => ⟨h.1, hq⟩, fun hpq => hpq.2⟩ fun _ => id
  | error f => exact fun hpq => h hpq.1

theorem Settles.ok {a : α} (h : R a) : Settles (.ok a) True R := ⟨trivial, h⟩

theorem Settles.map {k : α → β} {T : β → Prop} (h : Settles x p R) (hk : ∀ a, R a → T (k a)) :
    Settles (x >>= fun a => .ok (k a)) p T :=
  (h.bind fun a ha => .ok (hk a ha)).imp (and_iff_left trivial) fun _ => id

theorem Settles.mapM {es : List Element} {f : Element → Except Fault α} {p : Element → Prop}
    {R : Element → α → Prop} (h : ∀ e ∈ es, Settles (f e) (p e) (R e)) :
    Settles (es.mapM f) (∀ e ∈ es, p e) (List.Forall₂ R es) := by
  induction es with
  | nil => exact ⟨by simp, .nil⟩
  | cons e r ih =>
    rw [List.mapM_cons]
    have hr := ih fun c hc => h c (.tail _ hc)
    have h := (h e (.head _)).bind fun n hn =>
      hr.map (k := (n :: ·)) (T := List.Forall₂ R (e :: r)) fun _ => .cons hn
    exact h.imp (List.forall_mem_cons).symm fun _ => id
end

/-! ### Parameters and calls -/

/-- What holds of an element when it holds of every element whose children it holds of. -/
theorem byChildren {P : Element → Prop} (step : ∀ e, (∀ c ∈ e.children, P c) → P e) (e : Element) :
    P e := one e
where
  one : ∀ e, P e
    | ⟨name, attributes, children, text, span⟩ => step ⟨name, attributes, children, text, span⟩
      (all children)
  all : ∀ es : List Element, ∀ c ∈ es, P c
    | [] => fun _ h => nomatch h
    | e :: r => List.forall_mem_cons.2 ⟨one e, all r⟩

variable {e : Element}

theorem ruled_iff : Ruled e ↔ Rule e ∧ (e.name ∉ values → ∀ c ∈ e.children, Ruled c) := by
  constructor
  · exact fun h => ⟨h e (.self e), fun hv c hc x hx => h x (.inside hv hc hx)⟩
  · rintro ⟨h, hc⟩ x hx
    cases hx with
    | self => exact h
    | inside hv hmem hx => exact hc hv _ hmem x hx

/-- An element that is not a value keeps its rules when it keeps its own and all inside it do. -/
theorem ruled_of_not_value (hv : e.name ∉ values) :
    Ruled e ↔ Rule e ∧ ∀ c ∈ e.children, Ruled c := by
  rw [ruled_iff]
  simp [hv]

theorem ruled_of_value (hv : e.name ∈ values) : Ruled e ↔ Rule e := by
  rw [ruled_iff]
  simp [hv]

theorem only_and_ruled {names : List String} :
    (Only names e ∧ ∀ c ∈ e.children, Ruled c) ↔ ∀ c ∈ e.children, c.name ∈ names ∧ Ruled c := by
  simp only [Only, forall_and]

theorem readParams_eq (es : List Element) : readParams es = es.mapM readParam := by
  induction es with
  | nil => rfl
  | cons e r ih => rw [readParams, List.mapM_cons, ih]

theorem readLiteral_settles (t : Token) :
    Settles (readLiteral e t) (t.accepts (t.content e.text) = true)
      (· = ⟨t.content e.text, t, e.span⟩) := by
  simp only [readLiteral]
  split
  · exact ⟨‹_›, rfl⟩
  · exact ‹_›

theorem rule_call (h : e.name = "call") :
    Ruled e ↔ ∀ c ∈ e.children, c.name ∈ parameters ∧ Ruled c := by
  rw [ruled_of_not_value (by simp [h, values]), ← only_and_ruled]
  simp [Rule, h]

theorem readParam_value {t : Token} (h : tokenOf? e.name = some t) :
    readParam e = readLiteral e t >>= fun l => .ok (.value l) := by
  obtain ⟨name, attributes, children, text, span⟩ := e
  rw [readParam, h]
  rfl

theorem readParam_call (h : e.name = "call") :
    readParam e = readParams e.children >>= fun ps => .ok (.call ⟨callId e, ps, e.span⟩) := by
  obtain ⟨name, attributes, children, text, span⟩ := e
  subst h
  rfl

theorem readParam_other (h : e.name ∉ parameters) :
    readParam e = .error (unexpected e .parameters) := by
  obtain ⟨name, attributes, children, text, span⟩ := e
  simp only [parameters, values, List.mem_cons, List.not_mem_nil, or_false, not_or] at h
  have token : tokenOf? name = none := by
    unfold tokenOf?
    split <;> simp_all
  rw [readParam, token]
  exact if_neg h.1

theorem readParam_settles (e : Element) :
    Settles (readParam e) (e.name ∈ parameters ∧ Ruled e) (ParamOf e) := by
  induction e using byChildren with
  | step e ih =>
    by_cases hp : e.name ∈ parameters
    · have hp' := hp
      simp only [parameters, values, List.mem_cons, List.not_mem_nil, or_false] at hp'
      rcases hp' with h | h | h | h
      · rw [readParam_call h, readParams_eq]
        refine ((Settles.mapM ih).map fun ps hps => .call h hps).imp ?_ fun _ => id
        simp [hp, rule_call h]
      · rw [readParam_value (t := .number) (by rw [h]; rfl)]
        refine ((readLiteral_settles _).map fun l hl => hl ▸ .number h).imp ?_ fun _ => id
        rw [and_iff_right hp, ruled_of_value (by simp [h, values])]
        simp [h, Rule, Token.accepts, Token.content, Pattern.isNumeral_iff]
      · rw [readParam_value (t := .string) (by rw [h]; rfl)]
        refine ((readLiteral_settles _).map fun l hl => hl ▸ .string h).imp ?_ fun _ => id
        rw [and_iff_right hp, ruled_of_value (by simp [h, values])]
        simp [h, Rule, Token.accepts]
      · rw [readParam_value (t := .identifier) (by rw [h]; rfl)]
        refine ((readLiteral_settles _).map fun l hl => hl ▸ .identifier h).imp ?_ fun _ => id
        rw [and_iff_right hp, ruled_of_value (by simp [h, values])]
        simp [h, Rule, Token.accepts, Token.content, Pattern.isIdentifier_iff]
    · rw [readParam_other hp]
      exact fun h => hp h.1

theorem readCall_settles (h : e.name = "call") :
    Settles (readCall e) (Ruled e) (CallOf e) := by
  rw [rule_call h]
  unfold readCall
  rw [readParams_eq]
  exact (Settles.mapM fun c _ => readParam_settles c).map fun ps hps => ⟨rfl, hps, rfl⟩

/-! ### Commands -/

theorem readBlock_eq (es : List Element) : readBlock es = es.mapM readCommand := by
  induction es with
  | nil => rfl
  | cons e r ih => rw [readBlock, List.mapM_cons, ih]

/-- The reading of one clause of a statement. -/
def readClause (e : Element) : Except Fault Clause :=
  if e.name = "call" then do return Clause.ofCall (← readCall e)
  else if e.name = "function" then readFunction e.span none none e.children
  else .error (unexpected e .statement)

theorem readClauses_eq (es : List Element) : readClauses es = es.mapM readClause := by
  induction es with
  | nil => rfl
  | cons e r ih =>
    obtain ⟨name, attributes, children, text, span⟩ := e
    rw [readClauses, List.mapM_cons, ih]
    unfold readClause
    dsimp only
    split
    · simp only [bind_assoc, pure_bind]
    · split <;> rfl

/-- The call of a function: the one that has been read, or the one that is to come. -/
def HeadOf (call : Option Call) (es : List Element) (c : Call) : Prop :=
  call = some c ∨ call = none ∧ ∃ x ∈ es, x.name = "call" ∧ CallOf x c

/-- The body of a function: the one that has been read, the one that is to come, or none. -/
def BodyOf (body : Option (List Node)) (es : List Element) (f : Clause) : Prop :=
  body = some f.body ∧ f.hasBody = true ∨
  body = none ∧ (∃ b ∈ es, b.name = "body" ∧ List.Forall₂ CommandOf b.children f.body ∧
    f.hasBody = true) ∨
  body = none ∧ (∀ b ∈ es, b.name ≠ "body") ∧ f.body = [] ∧ f.hasBody = false

/-- Parts of a function that go together with calls and bodies read before: one call, and at most
one body. -/
def Fits (calls bodies : Nat) (es : List Element) : Prop :=
  (∀ c ∈ es, c.name ∈ parts ∧ Ruled c) ∧ calls + count "call" es = 1 ∧ bodies + count "body" es ≤ 1

variable {call : Option Call} {body : Option (List Node)} {es : List Element}
variable {c : Call} {f : Clause}

theorem count_cons (name : String) (e : Element) (es : List Element) :
    count name (e :: es) = (if e.name = name then 1 else 0) + count name es := by
  simp [count, List.countP_cons, Nat.add_comm]

theorem fits_call {n : Nat} (h : e.name = "call") : Ruled e ∧ Fits 1 n es ↔ Fits 0 n (e :: es) := by
  have hname : "call" ∈ parts := .head _
  simp [Fits, count_cons, h, hname, and_assoc]

theorem fits_body {n : Nat} (h : e.name = "body") : Ruled e ∧ Fits n 1 es ↔ Fits n 0 (e :: es) := by
  have hname : "body" ∈ parts := .tail _ (.head _)
  simp [Fits, count_cons, h, hname, and_assoc]

theorem HeadOf.cons (h : HeadOf call es c) : HeadOf call (e :: es) c := by
  rcases h with h | ⟨h, x, hx, hc⟩
  · exact .inl h
  · exact .inr ⟨h, x, .tail _ hx, hc⟩

theorem BodyOf.cons (h : BodyOf body es f) (he : e.name ≠ "body") : BodyOf body (e :: es) f := by
  rcases h with h | ⟨h, b, hb, hf⟩ | ⟨h, hb, hf⟩
  · exact .inl h
  · exact .inr (.inl ⟨h, b, .tail _ hb, hf⟩)
  · exact .inr (.inr ⟨h, List.forall_mem_cons.2 ⟨he, hb⟩, hf⟩)

theorem readFunction_call (span : Span) (h : e.name = "call") :
    readFunction span none body (e :: es) =
      readCall e >>= fun c => readFunction span (some c) body es := by
  obtain ⟨name, attributes, children, text, place⟩ := e
  subst h
  rfl

theorem readFunction_body (span : Span) (h : e.name = "body") :
    readFunction span call none (e :: es) =
      readBlock e.children >>= fun b => readFunction span call (some b) es := by
  obtain ⟨name, attributes, children, text, place⟩ := e
  subst h
  rfl

theorem readFunction_other (span : Span) (hcall : e.name = "call" → call ≠ none)
    (hbody : e.name = "body" → body ≠ none) :
    readFunction span call body (e :: es) = .error (unexpected e .function) := by
  obtain ⟨name, attributes, children, text, place⟩ := e
  rw [readFunction, if_neg (by simpa using hcall), if_neg (by simpa using hbody)]

theorem readFunction_settles (span : Span) (es : List Element) (call : Option Call)
    (body : Option (List Node))
    (blocks : ∀ b ∈ es, b.name = "body" →
      Settles (readBlock b.children) (Ruled b) (List.Forall₂ CommandOf b.children)) :
    Settles (readFunction span call body es) (Fits call.isSome.toNat body.isSome.toNat es)
      fun f => HeadOf call es f.call ∧ BodyOf body es f := by
  induction es generalizing call body with
  | nil =>
    cases call with
    | none => simp [Settles, readFunction, clauseOf, Fits, count]
    | some c => cases body <;> simp [Settles, readFunction, clauseOf, Fits, count, HeadOf, BodyOf]
  | cons e r ih =>
    have ih := fun call body => ih call body fun b hb => blocks b (.tail _ hb)
    have block := blocks e (.head _)
    by_cases hcall : e.name = "call" ∧ call = none
    · obtain ⟨h, rfl⟩ := hcall
      rw [readFunction_call span h]
      have later : ∀ c, CallOf e c → Settles (readFunction span (some c) body r)
          (Fits 1 body.isSome.toNat r)
          fun f => HeadOf none (e :: r) f.call ∧ BodyOf body (e :: r) f := by
        intro c hc
        refine (ih (some c) body).imp Iff.rfl fun f ⟨hf, hb⟩ => ⟨?_, hb.cons (by simp [h])⟩
        rcases hf with hf | hf
        · exact .inr ⟨rfl, e, .head _, h, Option.some.inj hf ▸ hc⟩
        · exact nomatch hf.1
      exact ((readCall_settles h).bind later).imp (fits_call h) fun _ => id
    · by_cases hbody : e.name = "body" ∧ body = none
      · obtain ⟨h, rfl⟩ := hbody
        rw [readFunction_body span h]
        have later : ∀ b, List.Forall₂ CommandOf e.children b →
            Settles (readFunction span call (some b) r) (Fits call.isSome.toNat 1 r)
            fun f => HeadOf call (e :: r) f.call ∧ BodyOf none (e :: r) f := by
          refine fun b hb => (ih call (some b)).imp Iff.rfl fun f ⟨hf, hbody⟩ => ⟨hf.cons, ?_⟩
          rcases hbody with ⟨hf, hflag⟩ | hf | hf
          · exact .inr (.inl ⟨rfl, e, .head _, h, Option.some.inj hf ▸ hb, hflag⟩)
          · exact nomatch hf.1
          · exact nomatch hf.1
        exact ((block h).bind later).imp (fits_body h) fun _ => id
      · rw [readFunction_other span (by simpa using hcall) (by simpa using hbody)]
        rintro ⟨hall, hcalls, hbodies⟩
        rw [count_cons] at hcalls hbodies
        have hname := (hall e (.head _)).1
        simp only [parts, List.mem_cons, List.not_mem_nil, or_false] at hname
        rcases hname with h | h
        · cases call with
          | none => exact hcall ⟨h, rfl⟩
          | some c => simp [h] at hcalls
        · cases body with
          | none => exact hbody ⟨h, rfl⟩
          | some b =>
            rw [Option.isSome_some, Bool.toNat_true, if_pos h] at hbodies
            omega

theorem rule_function (h : e.name = "function") : Ruled e ↔ Fits 0 0 e.children := by
  rw [ruled_of_not_value (by simp [h, values])]
  simp only [Rule, h, Fits, ← only_and_ruled, Nat.zero_add]
  tauto

theorem functionOf (hhead : HeadOf none e.children f.call) (hbody : BodyOf none e.children f) :
    FunctionOf e f := by
  obtain ⟨c, ns, flag⟩ := f
  obtain h | ⟨-, x, hx, hname, hc⟩ := hhead
  · cases h
  rcases hbody with ⟨h, -⟩ | ⟨-, b, hb, hbname, hns, hflag⟩ | ⟨-, hnone, hns, hflag⟩
  · cases h
  · cases hflag
    exact .block hx hname hc hb hbname hns
  · cases hns
    cases hflag
    exact .bare hx hname hc hnone

/-- How the commands that begin with an element are read: the element as a command, as a clause,
and as the block of the commands inside it. -/
structure Read (e : Element) : Prop where
  command : Settles (readCommand e) (e.name ∈ commands ∧ Ruled e) (CommandOf e)
  clause : Settles (readClause e) (e.name ∈ clauses ∧ Ruled e) (ClauseOf e)
  block : Settles (readBlock e.children) (∀ c ∈ e.children, c.name ∈ commands ∧ Ruled c)
    (List.Forall₂ CommandOf e.children)

theorem rule_body (h : e.name = "body") :
    (∀ c ∈ e.children, c.name ∈ commands ∧ Ruled c) ↔ Ruled e := by
  rw [ruled_of_not_value (by simp [h, values]), ← only_and_ruled]
  simp [Rule, h]

theorem function_settles (ih : ∀ c ∈ e.children, Read c) (h : e.name = "function") :
    Settles (readFunction e.span none none e.children) (Ruled e) (FunctionOf e) := by
  rw [rule_function h]
  exact (readFunction_settles _ _ _ _ fun b hb hname => (ih b hb).block.imp (rule_body hname)
    fun _ => id).imp Iff.rfl fun f hf => functionOf hf.1 hf.2

theorem readClause_settles (ih : ∀ c ∈ e.children, Read c) :
    Settles (readClause e) (e.name ∈ clauses ∧ Ruled e) (ClauseOf e) := by
  unfold readClause
  split
  · next h =>
    refine ((readCall_settles h).map (T := ClauseOf e) fun c hc => .call h hc).imp ?_ fun _ => id
    exact iff_and_self.2 fun _ => h ▸ .head _
  · split
    · next h =>
      refine (function_settles ih h).imp ?_ fun f hf => .function h hf
      exact iff_and_self.2 fun _ => h ▸ .tail _ (.head _)
    · next hcall hfunction => exact fun h => by simp [clauses, hcall, hfunction] at h

theorem rule_statement (h : e.name = "statement") :
    Ruled e ↔ e.children ≠ [] ∧ ∀ c ∈ e.children, c.name ∈ clauses ∧ Ruled c := by
  rw [ruled_of_not_value (by simp [h, values]), ← only_and_ruled]
  simp [Rule, h, and_assoc]

theorem readCommand_call (h : e.name = "call") :
    readCommand e = readCall e >>= fun c => .ok (.call c) := by
  obtain ⟨name, attributes, children, text, span⟩ := e
  subst h
  rfl

theorem readCommand_function (h : e.name = "function") :
    readCommand e = readFunction e.span none none e.children >>= fun f => .ok (.function f) := by
  obtain ⟨name, attributes, children, text, span⟩ := e
  subst h
  rfl

theorem readCommand_statement (h : e.name = "statement") :
    readCommand e = readClauses e.children >>= fun fs =>
      if fs = [] then .error (.located e.span .statementEmpty) else .ok (.statement fs e.span) := by
  obtain ⟨name, attributes, children, text, span⟩ := e
  subst h
  cases hfs : readClauses children with
  | error fault => simp [readCommand, hfs, bind, Except.bind]
  | ok fs => cases fs <;> simp [readCommand, hfs, bind, Except.bind, pure, Except.pure]

theorem readCommand_other (h : e.name ∉ commands) :
    readCommand e = .error (unexpected e .block) := by
  obtain ⟨name, attributes, children, text, span⟩ := e
  simp only [commands, clauses, List.mem_cons, List.not_mem_nil, or_false, not_or] at h
  rw [readCommand, if_neg h.2.1, if_neg h.2.2, if_neg h.1]

theorem readCommand_settles (ih : ∀ c ∈ e.children, Read c) :
    Settles (readCommand e) (e.name ∈ commands ∧ Ruled e) (CommandOf e) := by
  by_cases hname : e.name ∈ commands
  · rw [and_iff_right hname]
    simp only [commands, clauses, List.mem_cons, List.not_mem_nil, or_false] at hname
    rcases hname with h | h | h
    · rw [readCommand_statement h, readClauses_eq, rule_statement h]
      refine ((Settles.mapM fun c hc => (ih c hc).clause).bind (q := e.children ≠ []) fun fs hfs =>
        ?_).imp and_comm fun _ => id
      split
      · next hnil =>
        subst hnil
        simpa [Settles] using hfs
      · next hnil =>
        refine ⟨fun hchildren => hnil ?_, .statement h hfs⟩
        rw [hchildren] at hfs
        cases hfs
        rfl
    · rw [readCommand_call h]
      exact (readCall_settles h).map fun c hc => .call h hc
    · rw [readCommand_function h]
      exact (function_settles ih h).map fun f hf => .function h hf
  · rw [readCommand_other hname]
    exact fun h => hname h.1

theorem read (e : Element) : Read e := by
  induction e using byChildren with
  | step e ih =>
    refine ⟨readCommand_settles ih, readClause_settles ih, ?_⟩
    rw [readBlock_eq]
    exact Settles.mapM fun c hc => (ih c hc).command

/-! ### Stories -/

theorem trim_empty : trim "" = "" := by decide

theorem requiredId_settles (e : Element) :
    Settles (requiredId e) (trimmedId e ≠ "") (· = trimmedId e) := by
  unfold requiredId trimmedId
  split
  · next v hv =>
    rw [hv]
    split
    · next h => exact fun hne => hne h
    · next h => exact ⟨h, rfl⟩
  · next hv =>
    rw [hv]
    exact fun h => h trim_empty

theorem readHandler_settles (e : Element) :
    Settles (readHandler e) (e.name = "onmessage" ∧ Ruled e) (HandlerOf e) := by
  unfold readHandler
  split
  · next h =>
    refine ((requiredId_settles e).bind fun i hi =>
      (read e).block.map (T := HandlerOf e) fun b hb => ⟨hi, hb, rfl⟩).imp ?_ fun _ => id
    rw [and_iff_right h, ruled_of_not_value (by simp [h, values]), ← only_and_ruled]
    simp [Rule, h, and_assoc]
  · next h => exact fun hr => h hr.1

theorem readPersistence_settles (e : Element) :
    Settles (readPersistence e) (e.attribute? "persistent" ∈ [none, some "true", some "false"])
      fun b => b = true ↔ e.attribute? "persistent" = some "true" := by
  unfold readPersistence
  split
  · next h => simp [Settles, h]
  · next h => simp [Settles, h]
  · next h => simp [Settles, h]
  · next v h hfalse htrue => simp_all [Settles]

theorem readStory_settles (h : e.name = "story") :
    Settles (readStory e) (Ruled e) (DocumentOf e) := by
  unfold readStory
  refine ((requiredId_settles e).bind fun i hi => (readPersistence_settles e).bind fun b hb =>
    (Settles.mapM fun c _ => readHandler_settles c).map (T := DocumentOf e) fun hs hhs =>
      ⟨hi, hb, hhs, rfl⟩).imp ?_ fun _ => id
  rw [ruled_of_not_value (by simp [h, values])]
  simp [Rule, h, Only, and_assoc, forall_and]

theorem repeatedStory?_eq_none_iff {seen : List String} {ds : List Document} :
    repeatedStory? seen ds = none ↔ (∀ d ∈ ds, d.storyId ∉ seen) ∧ (ds.map (·.storyId)).Nodup := by
  induction ds generalizing seen with
  | nil => simp [repeatedStory?]
  | cons d r ih =>
    rw [repeatedStory?]
    split
    · next h => simp_all
    · next h =>
      rw [ih]
      simp only [List.contains_iff_mem] at h
      simp only [List.forall_mem_cons, List.map_cons, List.nodup_cons, List.mem_map]
      grind

theorem storyIds_of_forall₂ {es : List Element} {ds : List Document}
    (h : List.Forall₂ DocumentOf es ds) : ds.map (·.storyId) = es.map trimmedId := by
  induction h with
  | nil => rfl
  | cons h _ ih => rw [List.map_cons, List.map_cons, ih, h.storyId]

/-- The stories inside a root, before their ids are compared. -/
def readStories (root : Element) : Except Fault (List Document) :=
  if root.name = "story" then do return [← readStory root]
  else if root.name = "stories" then root.children.mapM fun e =>
    if e.name = "story" then readStory e else .error (unexpected e .stories)
  else .error (.located root.span (.rootInvalid root.name))

theorem readStories_settles (root : Element) :
    Settles (readStories root) ((root.name = "story" ∨ root.name = "stories") ∧ Ruled root)
      (List.Forall₂ DocumentOf (stories root)) := by
  unfold readStories stories
  split
  · next h =>
    refine ((readStory_settles h).map (T := List.Forall₂ DocumentOf [root]) fun d hd =>
      .cons hd .nil).imp ?_ fun _ => id
    simp [h]
  · split
    · next h =>
      have each : ∀ e ∈ root.children,
          Settles (if e.name = "story" then readStory e else .error (unexpected e .stories))
            (e.name = "story" ∧ Ruled e) (DocumentOf e) := by
        intro e _
        split
        · next he => exact (readStory_settles he).imp (and_iff_right he).symm fun _ => id
        · next he => exact fun h => he h.1
      refine (Settles.mapM each).imp ?_ fun _ => id
      rw [ruled_of_not_value (by simp [h, values])]
      simp [Rule, h, Only, forall_and]
    · next h h' => exact fun hr => hr.1.elim h h'

theorem ofRoot_eq (root : Element) :
    Document.ofRoot root = readStories root >>= fun ds =>
      match repeatedStory? [] ds with
      | some fault => .error fault
      | none => .ok ds := by
  unfold Document.ofRoot readStories
  split
  · rw [bind_assoc]
    rfl
  · split <;> rfl

theorem ofRoot_settles (root : Element) :
    Settles (Document.ofRoot root) (Accepts root) (List.Forall₂ DocumentOf (stories root)) := by
  have distinct : ∀ ds, List.Forall₂ DocumentOf (stories root) ds →
      Settles (match repeatedStory? [] ds with
        | some fault => .error fault
        | none => .ok ds) (((stories root).map trimmedId).Nodup)
        (List.Forall₂ DocumentOf (stories root)) := by
    intro ds hds
    have hnone : repeatedStory? [] ds = none ↔ _ := repeatedStory?_eq_none_iff
    rw [storyIds_of_forall₂ hds] at hnone
    split
    · next fault h => simpa [Settles, h] using hnone
    · next h => exact ⟨(hnone.1 h).2, hds⟩
  rw [ofRoot_eq]
  refine ((readStories_settles root).bind distinct).imp ?_ fun _ => id
  exact ⟨fun h => ⟨h.1.1, h.1.2, h.2⟩, fun h => ⟨⟨h.outermost, h.rules⟩, h.distinct⟩⟩

end Grammar

/-- The reader accepts exactly the story files, and its documents mirror them. -/
theorem Document.ofRoot_grammar (root : Markup.Element) :
    ((∃ ds, Document.ofRoot root = .ok ds) ↔ Grammar.Accepts root) ∧
      (∀ ds, Document.ofRoot root = .ok ds →
        List.Forall₂ Grammar.DocumentOf (Grammar.stories root) ds) ∧
      ∀ source, readRoot source = .ok root →
        Document.parseAll source = Document.ofRoot root := by
  have h := Grammar.ofRoot_settles root
  refine ⟨⟨fun ⟨ds, hds⟩ => (h.of_ok hds).1, h.exists_ok⟩, fun ds hds => (h.of_ok hds).2, ?_⟩
  intro source hsource
  rw [Document.parseAll, hsource]
  rfl

end StoryScript
