import StoryScript.Proofs.Literals
import StoryScript.Proofs.Loading

/-! Where the operands of a loaded story come from. Every command of a template has been loaded from
a call of the document, and its operands are those of the parameters of that call: bound to what
they stand for, or unbound because something in them is at fault. What the reader of documents takes
for a number or an identifier can be bound, unless it is out of range. -/
namespace StoryScript

/-- A token in an operand of a call of a document. -/
def Document.Token (d : Document) (l : Literal) : Prop :=
  ∃ c, d.Holds c ∧ ∃ p ∈ c.params, p.Token l

/-- A template has a command in the handler of some message, at any depth. -/
def Template.Contains (t : Template) (command : Command) : Prop :=
  ∃ message commands, t.handler? message = some commands ∧ command ∈ Command.preorderOf commands

/-- What becomes of a parameter that is read as an operand: it is bound to what it stands for, or to
the name of the variable written there, or it stays unbound because it fails. -/
inductive Node.Becomes (fs : Functions) (n : Node) : Operand → Prop
  | bound {s : Source} : n.Means fs s → Node.Becomes fs n (some s)
  | named {name : String} : Call.variableName? n = some name →
    Node.Becomes fs n (Operand.literal (.text name))
  | unbound {f : Fault} : n.Fails fs f → Node.Becomes fs n none

/-- A command has been loaded from a call, and its clauses from others. -/
structure Command.From (voc : Vocabulary) (held : Call → Prop) (command : Command) : Prop where
  head : ∃ v c, held c ∧ voc.verbs.find? c.id = some v ∧ command.name = v.name ∧
    (v.least ≤ c.params.length →
      List.Forall₂ (Node.Becomes voc.functions) (v.reads c) command.headOperands)
  clauses : ∀ id os, command.clause? id = some os → ∃ c, held c ∧ c.id = id ∧
    List.Forall₂ (Node.Becomes voc.functions) (c.params.take (clauseLeast id)) os

theorem Command.From.mono {voc : Vocabulary} {p q : Call → Prop} {command : Command}
    (h : command.From voc p) (hpq : ∀ c, p c → q c) : command.From voc q := by
  obtain ⟨⟨v, c, hc, hv⟩, hclauses⟩ := h
  refine ⟨⟨v, c, hpq c hc, hv⟩, fun id os hos => ?_⟩
  obtain ⟨c, hc, h⟩ := hclauses id os hos
  exact ⟨c, hpq c hc, h⟩

section
variable {fs : Functions} {voc : Vocabulary} {c : Call} {n : Node}

theorem Binding.becomes {b : Reported Operand} (h : Binding fs n b) (hn : n.Parameter) :
    n.Becomes fs b.result := by
  have settled := Node.settled_ofNode fs hn
  cases h with
  | bound h => rw [h] at settled; exact .bound settled
  | named h => exact .named h
  | unbound h => rw [h] at settled; exact .unbound settled

theorem Gathers.becomes {ns : List Node} {faults : List Fault} {os : List Operand}
    (h : Gathers fs ns faults os) (hns : ∀ n ∈ ns, n.Parameter) :
    List.Forall₂ (Node.Becomes fs) ns os := by
  induction h with
  | nil => exact .nil
  | cons hb _ ih => exact .cons (hb.becomes (hns _ (.head _))) (ih fun n hn => hns n (.tail _ hn))

/-- The command of a call, with its clauses. -/
theorem from_loadClauses {v : Verb} {hasBody : Bool} {body : Reported (List Command)}
    {gs : List Clause} {held : Call → Prop} (hv : voc.verbs.find? c.id = some v) (hc : held c)
    (hparams : ∀ p ∈ c.params, p.Parameter)
    (hgs : ∀ g ∈ gs, held g.call ∧ ∀ p ∈ g.call.params, p.Parameter) :
    ((v.load voc.functions c hasBody body).result.loadClauses voc.functions gs).result.From voc
      held := by
  have h := clausesLoaded voc.functions (v.load voc.functions c hasBody body).result gs
  rw [Verb.result_load] at h ⊢
  refine ⟨⟨v, c, hc, hv, h.name.trans Verb.name_loadCall, fun hlen => ?_⟩, fun id os hos => ?_⟩
  · rw [h.operands]
    exact (Verb.loadCall_gathers hlen).becomes fun n hn => hparams n (mem_params_of_reads hn)
  · obtain hos | ⟨g, hg, hid, faults, hos⟩ := h.clauses id os hos
    · rw [Verb.clause?_loadCall] at hos
      cases hos
    · obtain ⟨hheld, hparams⟩ := hgs g hg
      exact ⟨g.call, hheld, hid, hos.becomes fun n hn => hparams n (List.mem_of_mem_take hn)⟩

theorem from_ofNode (hn : n.Parsed) {command : Command}
    (h : command ∈ Command.preorderOf (Command.ofNode voc n).result.toList) :
    command.From voc n.Holds := by
  induction hn with
  | @intro n hne formed _ ih =>
    obtain ⟨f, gs, hcs⟩ := List.exists_cons_of_ne_nil hne
    rw [hcs] at formed ih
    have held : ∀ g ∈ f :: gs, n.Holds g.call := fun g hg => .clause (hcs ▸ hg)
    rw [ofNode_eq voc hcs] at h
    unfold Command.ofName at h
    split at h
    · next v hv =>
      obtain ⟨c, hc, h⟩ := Command.mem_preorderOf.1 h
      cases List.mem_singleton.1 hc
      rw [Command.preorder_eq] at h
      rcases List.mem_cons.1 h with rfl | h
      · exact from_loadClauses hv (held f (.head _)) (formed f (.head _)).params fun g hg =>
          ⟨held g (.tail _ hg), (formed g (.tail _ hg)).params⟩
      · rw [Reported.result_bind, (clausesLoaded _ _ _).body, Verb.body_load] at h
        split at h
        · obtain ⟨m, hm, h⟩ := mem_preorderOf_ofBlock.1 h
          exact (ih f (.head _) m hm h).mono fun c hc => .body (hcs ▸ .head _) hm hc
        · cases h
    · cases h

/-- A handler of a template is one that was there, or the block of a handler of the document. -/
theorem exists_of_loadHandlers {story message : String} {hs : List HandlerDecl}
    {t : Table (List Command)} {commands : List Command}
    (h : (Document.loadHandlers voc story hs t).result.find? message = some commands) :
    t.find? message = some commands ∨
      ∃ k ∈ hs, k.messageId = message ∧ commands = (Command.ofBlock voc k.body).result := by
  induction hs generalizing t with
  | nil => exact .inl h
  | cons k r ih =>
    rw [Document.loadHandlers] at h
    split at h
    · obtain h | ⟨m, hm, h⟩ := ih h
      · exact .inl h
      · exact .inr ⟨m, .tail _ hm, h⟩
    · obtain h | ⟨m, hm, h⟩ := ih h
      · rw [Table.find?_insert] at h
        split at h
        · next hid => exact .inr ⟨k, .head _, hid.symm, (Option.some.inj h).symm⟩
        · exact .inl h
      · exact .inr ⟨m, .tail _ hm, h⟩

theorem code_of_ofLoading {f : Fault} (h : f.cause.OfLoading) :
    f.code ≠ "STORY_PARSE_SHAPE" ∧ f.code ≠ "STORY_PARSE_VALUE" := by
  obtain ⟨cause, span, file⟩ := f
  cases cause <;> first | exact h.elim | simp [Fault.code, Cause.code]

end

theorem Node.Parsed.params {n : Node} {c : Call} (h : n.Parsed) (hc : n.Holds c) :
    ∀ p ∈ c.params, p.Parameter := by
  induction hc with
  | value => cases h with | intro hne => exact absurd rfl hne
  | clause hf => cases h with | intro _ formed => exact (formed _ hf).params
  | body hf hm _ ih => cases h with | intro _ _ hbody => exact ih (hbody _ hf _ hm)

namespace Document
variable {d : Document}

theorem Parsed.params (h : d.Parsed) {c : Call} (hc : d.Holds c) : ∀ p ∈ c.params, p.Parameter := by
  obtain ⟨k, hk, n, hn, hc⟩ := hc
  exact (h k hk n hn).params hc

theorem from_of_contains (voc : Vocabulary) (hd : d.Parsed) {command : Command}
    (h : (d.load voc).result.Contains command) : command.From voc d.Holds := by
  obtain ⟨message, commands, hcs, h⟩ := h
  obtain hcs | ⟨k, hk, -, rfl⟩ := exists_of_loadHandlers hcs
  · cases hcs
  · obtain ⟨n, hn, h⟩ := mem_preorderOf_ofBlock.1 h
    exact (from_ofNode (hd k hk n hn) h).mono fun c hc => ⟨k, hk, n, hn, hc⟩

/-- Loading a document that has been read never finds a node where a value should be, and where it
finds the value of a token at fault, the token is out of range. Every other token in an operand is
bound to what it stands for. -/
theorem load_operands {root : Markup.Element} {ds : List Document} (voc : Vocabulary)
    (hroot : Document.ofRoot root = .ok ds) (hd : d ∈ ds) :
    (∀ f ∈ (d.load voc).faults, f.code ≠ "STORY_PARSE_SHAPE" ∧ (f.code = "STORY_PARSE_VALUE" →
      ∃ l, d.Token l ∧ l.OutOfRange ∧ f = .located l.span l.blame)) ∧
    (∀ l, d.Token l → ¬l.OutOfRange → ∃ s, Source.ofLiteral l = .ok s ∧ l.Denotes s) ∧
    ∀ command, (d.load voc).result.Contains command → command.From voc d.Holds := by
  have parsed := Document.parsed_of_ofRoot hroot hd
  refine ⟨fun f hf => ?_, fun l hl hrange => ?_, fun command => from_of_contains voc parsed⟩
  · obtain h | ⟨c, hc, p, hp, h⟩ := Document.mem_faults_load hf
    · obtain ⟨hshape, hvalue⟩ := code_of_ofLoading h
      exact ⟨hshape, fun h => absurd h hvalue⟩
    · have fails := Node.settled_ofNode voc.functions (parsed.params hc p hp)
      rw [h] at fails
      refine ⟨fails.code_ne, fun hcode => ?_⟩
      obtain ⟨l, hl, h⟩ := fails.exists_token hcode
      exact ⟨l, ⟨c, hc, p, hp, hl⟩, h⟩
  · obtain ⟨c, hc, p, hp, hl⟩ := hl
    have settled := ofLiteral_settled ((parsed.params hc p hp).accepts hl)
    cases hs : Source.ofLiteral l with
    | ok s =>
      rw [hs] at settled
      exact ⟨s, rfl, settled.2⟩
    | error f =>
      rw [hs] at settled
      exact absurd settled.1 hrange

/-- A story that waits for longer than an integer can say. -/
def longWait : Markup.Element :=
  let call : Markup.Element := ⟨"call", .ofList [("id", "wait")],
    [⟨"num", ∅, [], " 9223372036854775808 ", ⟨3, 5, 3, 37⟩⟩], "", ⟨2, 5, 4, 12⟩⟩
  ⟨"story", .ofList [("id", "a")], [⟨"onmessage", .ofList [("id", "start")], [call], "", default⟩],
    "", default⟩

theorem load_operands_longWait : ∃ d, Document.ofRoot longWait = .ok [d] ∧
    (d.load .builtin).faults.map Fault.code = ["STORY_PARSE_VALUE"] ∧
    ∃ l, d.Token l ∧ l.OutOfRange ∧ l.text = "9223372036854775808" := by
  refine ⟨_, rfl, by decide +kernel, ?_⟩
  have hroot : Document.ofRoot longWait = .ok [_] := rfl
  obtain ⟨l, hl, hrange, hf⟩ := ((load_operands .builtin hroot (.head _)).1
    (.located ⟨3, 5, 3, 37⟩ (.numberInvalid "9223372036854775808")) (by decide +kernel)).2 rfl
  refine ⟨l, hl, hrange, ?_⟩
  unfold Literal.blame at hf
  split at hf
  · exact (Cause.numberInvalid.inj (congrArg Fault.cause hf)).symm
  · exact nomatch congrArg Fault.cause hf

end Document
end StoryScript
