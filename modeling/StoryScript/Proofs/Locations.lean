import StoryScript.Library
import StoryScript.Proofs.Loading

/-! Where the faults of loading lie. Every one of them is located, and its place is that of a handler
of the document or of a statement, a call or a token in it. A library that is built of files says of
each which file it concerns, and keeps the place. -/
namespace StoryScript

/-! ### Places -/

/-- Where a node, its calls, and what is in their parameters and bodies stand. -/
inductive Node.At : Node → Span → Prop
  | value (l : Literal) : Node.At (.value l) l.span
  | statement (fs : List Clause) (s : Span) : Node.At (.statement fs s) s
  | call {n : Node} {g : Clause} : g ∈ n.clauses → Node.At n g.call.span
  | param {n p : Node} {g : Clause} {s : Span} : g ∈ n.clauses → p ∈ g.call.params →
    Node.At p s → Node.At n s
  | body {n m : Node} {g : Clause} {s : Span} : g ∈ n.clauses → m ∈ g.body → Node.At m s →
    Node.At n s

/-- Where the handlers of a document and what is in them stand. -/
inductive Document.At (d : Document) : Span → Prop
  | handler {k : HandlerDecl} : k ∈ d.handlers → Document.At d k.span
  | body {k : HandlerDecl} {n : Node} {s : Span} : k ∈ d.handlers → n ∈ k.body → n.At s →
    Document.At d s

namespace Node

theorem at_span (n : Node) : n.At n.span := by
  cases n with
  | value l => exact .value l
  | call c => exact .call (g := .ofCall c) (.head _)
  | function f => exact .call (g := f) (.head _)
  | statement fs s => exact .statement fs s

theorem at_of_mem_calls {n : Node} {c : Call} (h : c ∈ n.calls) : n.At c.span := by
  unfold calls at h
  split at h
  · next l => exact List.mem_singleton.1 h ▸ .value l
  · obtain ⟨g, hg, rfl⟩ := List.mem_map.1 h
    exact .call hg

theorem at_of_mem_params {n p : Node} {c : Call} {s : Span} (h : c ∈ n.calls) (hp : p ∈ c.params)
    (hs : p.At s) : n.At s := by
  unfold calls at h
  split at h
  · cases List.mem_singleton.1 h
    cases hp
  · obtain ⟨g, hg, rfl⟩ := List.mem_map.1 h
    exact .param hg hp hs

theorem at_of_mem {n m : Node} {g : Clause} {s : Span} (hg : g ∈ n.clauses)
    (hm : m ∈ g.call.params ++ g.body) (h : m.At s) : n.At s := by
  rcases List.mem_append.1 hm with hm | hm
  · exact .param hg hm h
  · exact .body hg hm h

/-- What is so of all places in a node is so of its own, of those of its clauses and of all inside. -/
theorem forall_at {n : Node} {P : Span → Prop} : (∀ s, n.At s → P s) ↔
    P n.span ∧ ∀ g ∈ n.clauses, P g.call.span ∧ ∀ m ∈ g.call.params ++ g.body, ∀ s, m.At s → P s := by
  constructor
  · intro h
    exact ⟨h _ n.at_span, fun g hg =>
      ⟨h _ (.call hg), fun m hm s hs => h s (at_of_mem hg hm hs)⟩⟩
  · rintro ⟨hself, hinner⟩ s hs
    cases hs with
    | value | statement => exact hself
    | call hg => exact (hinner _ hg).1
    | param hg hp hs => exact (hinner _ hg).2 _ (List.mem_append_left _ hp) s hs
    | body hg hm hs => exact (hinner _ hg).2 _ (List.mem_append_right _ hm) s hs

/-- What holds of a node when it holds of every parameter of its call. -/
theorem byParams {P : Node → Prop} (value : ∀ l, P (.value l))
    (call : ∀ c : Call, (∀ p ∈ c.params, P p) → P (.call c)) (function : ∀ f, P (.function f))
    (statement : ∀ fs s, P (.statement fs s)) (n : Node) : P n := by
  induction n using byClauses with
  | step n ih =>
    cases n with
    | value l => exact value l
    | call c => exact call c fun p hp => ih (.ofCall c) (.head _) p (List.mem_append_left _ hp)
    | function f => exact function f
    | statement fs s => exact statement fs s

end Node

/-! ### Parameters -/

/-- The causes for which a parameter cannot be bound. -/
def Cause.OfBinding : Cause → Prop
  | numberInvalid _ | argumentInvalid _ | notAValue _ | functionUnknown _ | scriptArity
  | scriptUnreadable _ _ => True
  | _ => False

/-- A fault that keeps a parameter from being bound, at a place in it. -/
def Node.Unbound (n : Node) (f : Fault) : Prop :=
  f.cause.OfBinding ∧ ∃ s, n.At s ∧ f = .located s f.cause

section
variable {fs : Functions} {n : Node} {f : Fault}

theorem Node.Unbound.located {cause : Cause} (h : cause.OfBinding) :
    n.Unbound (.located n.span cause) := ⟨h, _, n.at_span, rfl⟩

theorem unbound_ofLiteral {l : Literal} (h : Source.ofLiteral l = .error f) :
    (Node.value l).Unbound f := by
  have identifier {text : String} {cause : Cause} (h : Source.ofIdentifier text = .error cause) :
      cause.OfBinding := by
    unfold Source.ofIdentifier at h
    split at h
    · cases h
    · cases h
    · split at h <;> cases h
      trivial
    · split_ifs at h
  unfold Source.ofLiteral at h
  split at h
  · cases h
  · split at h <;> cases h
    exact .located trivial
  · cases hi : Source.ofIdentifier l.text with
    | ok s => rw [hi] at h; cases h
    | error cause =>
      rw [hi] at h
      cases h
      exact .located (identifier hi)

theorem ofBinding_of_compile {engine : Script.Engine} {source : String}
    (h : Script.compile engine source = .error f) : f.cause.OfBinding := by
  unfold Script.compile at h
  dsimp only at h
  split at h <;> cases h
  trivial

theorem unbound_ofScript {engine : Script.Engine} {c : Call}
    (h : Source.ofScript engine c.params c.span = .error f) : (Node.call c).Unbound f := by
  unfold Source.ofScript at h
  split at h
  · split at h <;> cases h
    next hc => exact .located (n := .call c) (ofBinding_of_compile hc)
  · cases h
    exact .located (n := .call c) trivial

theorem error_ofNodes {ps : List Node} (h : Source.ofNodes fs ps = .error f) :
    ∃ p ∈ ps, Source.ofNode fs p = .error f := by
  induction ps with
  | nil => cases h
  | cons p r ih =>
    rw [Source.ofNodes] at h
    split at h
    · next hp =>
      cases h
      exact ⟨p, .head _, hp⟩
    · cases hr : Source.ofNodes fs r with
      | ok => rw [hr] at h; cases h
      | error =>
        rw [hr] at h
        cases h
        obtain ⟨q, hq, hf⟩ := ih hr
        exact ⟨q, .tail _ hq, hf⟩

/-- A parameter is kept from being bound by something in it. -/
theorem unbound_ofNode (h : Source.ofNode fs n = .error f) : n.Unbound f := by
  induction n using Node.byParams generalizing f with
  | value l => exact unbound_ofLiteral h
  | function g =>
    obtain ⟨⟨id, params, span⟩, body, hasBody⟩ := g
    cases h
    exact .located (n := .function ⟨⟨id, params, span⟩, body, hasBody⟩) trivial
  | statement gs s =>
    cases h
    exact .located (n := .statement gs s) trivial
  | call c ih =>
    have args {g : List Source → Source} (h : (Source.ofNodes fs c.params).map g = .error f) :
        (Node.call c).Unbound f := by
      cases hp : Source.ofNodes fs c.params with
      | ok => rw [hp] at h; cases h
      | error =>
        rw [hp] at h
        cases h
        obtain ⟨p, hmem, hp⟩ := error_ofNodes hp
        obtain ⟨hcause, s, hs, hf⟩ := ih p hmem hp
        exact ⟨hcause, s, .param (g := .ofCall c) (.head _) hmem hs, hf⟩
    obtain ⟨id, params, span⟩ := c
    rw [Source.ofNode] at h
    split at h
    · exact args h
    · split at h
      · exact unbound_ofScript (c := ⟨id, params, span⟩) h
      · split at h
        · exact args h
        · cases h
          exact .located (n := .call ⟨id, params, span⟩) trivial

end

/-! ### Documents -/

section
variable {voc : Vocabulary} {d : Document} {n : Node} {c : Call} {f : Fault}

theorem Call.Faulty.at (h : c.Faulty voc.functions f) (hc : c ∈ n.calls) :
    ∃ s, n.At s ∧ f = .located s f.cause := by
  cases h with
  | call => exact ⟨c.span, Node.at_of_mem_calls hc, rfl⟩
  | param hp h =>
    obtain ⟨-, s, hs, hf⟩ := unbound_ofNode h
    exact ⟨s, Node.at_of_mem_params hc hp hs, hf⟩

theorem Node.Faulty.at (h : n.Faulty voc f) : ∃ s, n.At s ∧ f = .located s f.cause := by
  induction h with
  | unknown n => exact ⟨n.span, n.at_span, rfl⟩
  | call hc h => exact h.at hc
  | body hg hm _ ih =>
    obtain ⟨s, hs, hf⟩ := ih
    exact ⟨s, .body hg hm hs, hf⟩

theorem Document.Faulty.at (h : d.Faulty voc f) : ∃ s, d.At s ∧ f = .located s f.cause := by
  cases h with
  | repeated hk => exact ⟨_, .handler hk, rfl⟩
  | body hk hn h =>
    obtain ⟨s, hs, hf⟩ := h.at
    exact ⟨s, .body hk hn hs, hf⟩

end

/-! ### Files -/

section
variable {ε ε' α β : Type}

theorem exists_of_bind {x : Except ε α} {g : α → Except ε β} {b : β} (h : x >>= g = .ok b) :
    ∃ a, x = .ok a ∧ g a = .ok b := by
  cases x with
  | error => cases h
  | ok a => exact ⟨a, rfl, h⟩

theorem ok_of_mapError {x : Except ε α} {g : ε → ε'} {a : α} (h : x.mapError g = .ok a) :
    x = .ok a := by
  cases x with
  | error => cases h
  | ok => cases h; rfl

end

namespace Library

/-- The stories of a file, with its path. -/
def documentsIn (path source : String) : List (String × Document) :=
  match Document.parseAll source with
  | .ok ds => ds.map fun d => (path, d)
  | .error _ => []

/-- The stories of some files, with the paths of their files. -/
def documents (files : Table String) : List (String × Document) :=
  files.entries.flatMap fun e => documentsIn e.1 e.2

/-- The faults of some stories, each said of the file of its story. -/
def faultsOf (voc : Vocabulary) (xs : List (String × Document)) : List Fault :=
  xs.flatMap fun x => (x.2.load voc).faults.map (.inFile x.1)

variable {voc : Vocabulary} {l : Library} {r : Reported Library}

theorem faults_addDocuments {ds : List Document} (h : l.addDocuments voc ds = .ok r) :
    r.faults = ds.flatMap fun d => (d.load voc).faults := by
  induction ds generalizing l r with
  | nil => cases h; rfl
  | cons d ds ih =>
    obtain ⟨l', -, h⟩ := exists_of_bind h
    obtain ⟨rest, hrest, h⟩ := exists_of_bind h
    cases h
    rw [List.flatMap_cons, ih hrest]

theorem faults_addFile {path source : String} (h : l.addFile voc source = .ok r) :
    r.faults.map (.inFile path) = faultsOf voc (documentsIn path source) := by
  obtain ⟨ds, hds, h⟩ := exists_of_bind h
  rw [documentsIn, hds, faults_addDocuments h, List.map_flatMap, faultsOf, List.flatMap_map]

theorem faults_addFiles {files : List (String × String)} (h : l.addFiles voc files = .ok r) :
    r.faults = faultsOf voc (files.flatMap fun e => documentsIn e.1 e.2) := by
  induction files generalizing l r with
  | nil => cases h; rfl
  | cons e files ih =>
    obtain ⟨added, hadded, h⟩ := exists_of_bind h
    obtain ⟨rest, hrest, h⟩ := exists_of_bind h
    cases h
    rw [List.flatMap_cons, faultsOf, List.flatMap_append, ih hrest,
      faults_addFile (ok_of_mapError hadded)]
    rfl

/-- Every fault of loading a document lies at a place in it. A library that is built of files has the
faults of its documents and no others, each at the same place and under the same code, and worded
after the path of its file. -/
theorem faults_located (voc : Vocabulary) :
    (∀ d : Document, ∀ f ∈ (d.load voc).faults, ∃ s, d.At s ∧ f.span = some s) ∧
    ∀ files r, ofFiles voc files = .ok r → r.faults = faultsOf voc (documents files) ∧
      ∀ x ∈ documents files, ∀ f ∈ (x.2.load voc).faults, (f.inFile x.1).span = f.span ∧
        (f.inFile x.1).code = f.code ∧ (f.inFile x.1).message = x.1 ++ ": " ++ f.message := by
  have located {d : Document} {f : Fault} (hf : f ∈ (d.load voc).faults) :
      ∃ s, d.At s ∧ f = .located s f.cause := (Document.faulty_load hf).at
  refine ⟨fun d f hf => ?_, fun files r h => ⟨faults_addFiles h, fun x _ f hf => ?_⟩⟩
  · obtain ⟨s, hs, hf⟩ := located hf
    exact ⟨s, hs, congrArg Fault.span hf⟩
  · obtain ⟨s, -, hf⟩ := located hf
    rw [hf]
    exact ⟨rfl, rfl, rfl⟩

/-- A file with a story that has a command of an unknown name. -/
def misnamed : Table String :=
  .ofList [("a.xml",
    "<story id=\"a\"><onmessage id=\"m\"><call id=\"nothing\"/></onmessage></story>")]

theorem faults_located_misnamed : ∃ r, ofFiles .builtin misnamed = .ok r ∧
    r.faults.map Fault.message = ["a.xml: Unknown story command \"nothing\"; it is skipped."] ∧
    ∃ x ∈ documents misnamed, ∃ f ∈ (x.2.load .builtin).faults, ∃ s, x.2.At s ∧
      f.span = some s ∧ (f.inFile x.1).span = some s := by
  obtain ⟨r, hr⟩ : ∃ r, ofFiles .builtin misnamed = .ok r := by
    cases h : ofFiles .builtin misnamed with
    | ok r => exact ⟨r, rfl⟩
    | error =>
      have hok : (ofFiles .builtin misnamed).isOk = true := by decide +kernel
      rw [h] at hok
      cases hok
  obtain ⟨located, inFiles⟩ := faults_located .builtin
  obtain ⟨hf, hsame⟩ := inFiles misnamed r hr
  have messages : r.faults.map Fault.message =
      ["a.xml: Unknown story command \"nothing\"; it is skipped."] := by
    rw [hf]
    decide +kernel
  obtain ⟨x, hx, f, hmem⟩ : ∃ x ∈ documents misnamed, ∃ f, f ∈ (x.2.load .builtin).faults := by
    cases hr : r.faults with
    | nil =>
      rw [hr] at messages
      cases messages
    | cons g gs =>
      have hg : g ∈ faultsOf .builtin (documents misnamed) := by rw [← hf, hr]; exact .head _
      obtain ⟨x, hx, hg⟩ := List.mem_flatMap.1 hg
      obtain ⟨f, hmem, -⟩ := List.mem_map.1 hg
      exact ⟨x, hx, f, hmem⟩
  obtain ⟨s, hs, hspan⟩ := located x.2 f hmem
  exact ⟨r, hr, messages, x, hx, f, hmem, s, hs, hspan, (hsame x hx f hmem).1.trans hspan⟩

end Library
end StoryScript
