import StoryScript.Proofs.Loading

/-! What is left of a document that is loaded without a fault. Every command is there, in the order
of the document, with its clauses and its operands, except those in the bodies of trailing clauses:
such a body is passed over, and nothing is reported. -/
namespace StoryScript

/-! ### The commands of a document -/

theorem append_eq_append_iff_of_sublist {α : Type} {a a' b b' : List α} (ha : a.Sublist a')
    (hb : b.Sublist b') : a ++ b = a' ++ b' ↔ a = a' ∧ b = b' := by
  constructor
  · intro h
    have hlen := congrArg List.length h
    rw [List.length_append, List.length_append] at hlen
    have hla := ha.length_le
    have hlb := hb.length_le
    exact ⟨ha.eq_of_length (by omega), hb.eq_of_length (by omega)⟩
  · rintro ⟨rfl, rfl⟩
    rfl

namespace Node

mutual
/-- A command and the commands inside it, each before those inside of it. -/
def preorder : Node → List Node
  | .function ⟨c, body, b⟩ => .function ⟨c, body, b⟩ :: preorderOf body
  | .statement fs s => .statement fs s :: preorderIn fs
  | n => [n]

def preorderOf : List Node → List Node
  | [] => []
  | n :: r => preorder n ++ preorderOf r

def preorderIn : List Clause → List Node
  | [] => []
  | ⟨_, body, _⟩ :: r => preorderOf body ++ preorderIn r
end

mutual
/-- The commands that loading does not pass over: those that are in no trailing clause. -/
def kept : Node → List Node
  | .function ⟨c, body, b⟩ => .function ⟨c, body, b⟩ :: keptOf body
  | .statement (⟨c, body, b⟩ :: gs) s => .statement (⟨c, body, b⟩ :: gs) s :: keptOf body
  | n => [n]

def keptOf : List Node → List Node
  | [] => []
  | n :: r => kept n ++ keptOf r
end

/-- No trailing clause of a command has commands in it. -/
def Bare (n : Node) : Prop := ∀ g ∈ n.clauses.tail, g.body = []

variable {n : Node} {ns : List Node} {f : Clause} {gs : List Clause}

theorem preorder_eq (h : n.clauses = f :: gs) :
    n.preorder = n :: (preorderOf f.body ++ preorderIn gs) := by
  obtain ⟨c, body, b⟩ := f
  cases n with
  | value => cases h
  | call c => cases h; rfl
  | function g => cases h; exact congrArg (_ :: ·) (List.append_nil _).symm
  | statement fs s => cases h; rfl

theorem kept_eq (h : n.clauses = f :: gs) : n.kept = n :: keptOf f.body := by
  obtain ⟨c, body, b⟩ := f
  cases n with
  | value => cases h
  | call c => cases h; rfl
  | function g => cases h; rfl
  | statement fs s => cases h; rfl

theorem preorder_nil (h : n.clauses = []) : n.preorder = [n] ∧ n.kept = [n] := by
  cases n with
  | value => exact ⟨rfl, rfl⟩
  | call | function => cases h
  | statement fs s => cases h; exact ⟨rfl, rfl⟩

theorem keptOf_sublist (h : ∀ n ∈ ns, n.kept.Sublist n.preorder) :
    (keptOf ns).Sublist (preorderOf ns) := by
  induction ns with
  | nil => exact .slnil
  | cons n r ih => exact (h n (.head _)).append (ih fun m hm => h m (.tail _ hm))

theorem kept_sublist (n : Node) : n.kept.Sublist n.preorder := by
  induction n using byBodies with
  | step n ih =>
    cases hn : n.clauses with
    | nil => rw [(preorder_nil hn).1, (preorder_nil hn).2]
    | cons f gs =>
      rw [kept_eq hn, preorder_eq hn]
      have hbody := keptOf_sublist (ih f (hn ▸ .head _))
      exact .cons_cons n (hbody.trans (List.sublist_append_left _ _))

theorem preorderOf_eq_nil (h : preorderOf ns = []) : ns = [] := by
  cases ns with
  | nil => rfl
  | cons n r =>
    cases hn : n.clauses with
    | nil => simp [preorderOf, (preorder_nil hn).1] at h
    | cons f gs => simp [preorderOf, preorder_eq hn] at h

theorem preorderIn_eq_nil (h : preorderIn gs = []) : ∀ g ∈ gs, g.body = [] := by
  induction gs with
  | nil => exact fun g hg => nomatch hg
  | cons g r ih =>
    obtain ⟨c, body, b⟩ := g
    obtain ⟨hbody, hr⟩ := List.append_eq_nil_iff.1 h
    exact List.forall_mem_cons.2 ⟨preorderOf_eq_nil hbody, ih hr⟩

theorem preorderIn_of_bare (h : ∀ g ∈ gs, g.body = []) : preorderIn gs = [] := by
  induction gs with
  | nil => rfl
  | cons g r ih =>
    obtain ⟨c, body, b⟩ := g
    obtain rfl : body = [] := h _ (.head _)
    exact ih fun g hg => h g (.tail _ hg)

theorem keptOf_eq_iff (h : ∀ n ∈ ns, n.kept = n.preorder ↔ ∀ m ∈ n.preorder, m.Bare) :
    keptOf ns = preorderOf ns ↔ ∀ m ∈ preorderOf ns, m.Bare := by
  induction ns with
  | nil => simp [keptOf, preorderOf]
  | cons n r ih =>
    have hr := keptOf_sublist fun m (_ : m ∈ r) => kept_sublist m
    rw [keptOf, preorderOf, append_eq_append_iff_of_sublist (kept_sublist n) hr, h n (.head _),
      ih fun m hm => h m (.tail _ hm), List.forall_mem_append]

theorem kept_eq_iff (n : Node) : n.kept = n.preorder ↔ ∀ m ∈ n.preorder, m.Bare := by
  induction n using byBodies with
  | step n ih =>
    cases hn : n.clauses with
    | nil => simp [preorder_nil hn, Bare, hn]
    | cons f gs =>
      have bare : n.Bare ↔ ∀ g ∈ gs, g.body = [] := by rw [Bare, hn, List.tail_cons]
      have hsub := keptOf_sublist fun m (_ : m ∈ f.body) => kept_sublist m
      have hbody := keptOf_eq_iff (ih f (hn ▸ .head _))
      have hlists : keptOf f.body = preorderOf f.body ++ preorderIn gs ↔
          keptOf f.body = preorderOf f.body ∧ preorderIn gs = [] := by
        have h := append_eq_append_iff_of_sublist hsub (List.nil_sublist (preorderIn gs))
        rwa [List.append_nil, eq_comm (a := [])] at h
      rw [kept_eq hn, preorder_eq hn, List.cons_eq_cons, and_iff_right rfl, hlists, hbody,
        List.forall_mem_cons, List.forall_mem_append, bare]
      constructor
      · rintro ⟨h, hnil⟩
        exact ⟨preorderIn_eq_nil hnil, h, by simp [hnil]⟩
      · rintro ⟨hgs, h, -⟩
        exact ⟨h, preorderIn_of_bare hgs⟩

/-- The commands that are kept are all of them exactly if there are none in trailing clauses. -/
theorem keptOf_eq_preorderOf_iff (ns : List Node) :
    keptOf ns = preorderOf ns ↔ ∀ m ∈ preorderOf ns, m.Bare :=
  keptOf_eq_iff fun n _ => kept_eq_iff n

end Node

/-! ### Loading without a fault -/

/-- An operand that has a source, that of the parameter or the name of the variable there. -/
def Bound (fs : Functions) (n : Node) (o : Operand) : Prop :=
  ∃ s, o = some s ∧ (Source.ofNode fs n = .ok s ∨
    ∃ name, Call.variableName? n = some name ∧ s = .literal (.text name))

/-- The last of some clauses that has a name. -/
def lastOf (gs : List Clause) (id : String) : Option Clause :=
  gs.reverse.find? fun g => g.call.id = id

/-- A command of a document is there as a command of a template: under its verb, with a source for
every operand, and with every clause. Of several clauses of one name the last is there. -/
structure Node.Represented (voc : Vocabulary) (n : Node) (command : Command) : Prop where
  head : ∃ f v, n.clauses.head? = some f ∧ voc.verbs.find? f.call.id = some v ∧
    command.name = v.name ∧ v.least ≤ f.call.params.length ∧
    List.Forall₂ (Bound voc.functions) (v.reads f.call) command.headOperands
  clauses : ∀ id g, lastOf n.clauses.tail id = some g → ∃ os, command.clause? id = some os ∧
    clauseLeast id ≤ g.call.params.length ∧
    List.Forall₂ (Bound voc.functions) (g.call.params.take (clauseLeast id)) os

section
variable {fs : Functions} {voc : Vocabulary} {c : Call} {n : Node} {ns : List Node}
variable {gs : List Clause} {command : Command} {id : String}

theorem Gathers.bound {os : List Operand} (h : Gathers fs ns [] os) :
    List.Forall₂ (Bound fs) ns os := by
  refine h.forall₂.imp ?_
  rintro n _ ⟨b, hb, rfl, hfaults⟩
  cases hb with
  | bound h => exact ⟨_, rfl, .inl h⟩
  | named h => exact ⟨_, rfl, .inr ⟨_, h, rfl⟩⟩
  | unbound => exact nomatch hfaults _ (.head _)

theorem loadCall_faultless {v : Verb} {body : List Command}
    (h : (v.loadCall fs c body).faults = []) : v.least ≤ c.params.length ∧
      List.Forall₂ (Bound fs) (v.reads c) (v.loadCall fs c body).result.headOperands := by
  have hlen : v.least ≤ c.params.length := by
    refine Nat.le_of_not_lt fun hlt => ?_
    rw [Verb.loadCall_few hlt] at h
    cases h
  have hgathers : Gathers fs _ (v.loadCall fs c body).faults _ := Verb.loadCall_gathers hlen
  rw [h] at hgathers
  exact ⟨hlen, hgathers.bound⟩

/-- A verb loads without a fault only if it has a body exactly when it takes one. -/
theorem load_faultless {v : Verb} {hasBody : Bool} {block : Reported (List Command)}
    (h : (v.load fs c hasBody block).faults = []) : v.least ≤ c.params.length ∧
      List.Forall₂ (Bound fs) (v.reads c) (v.load fs c hasBody block).result.headOperands ∧
      hasBody = v.takesBody ∧ (v.takesBody = true → block.faults = []) := by
  rw [Verb.result_load]
  unfold Verb.load at h
  split at h
  · next htakes =>
    simp only [List.append_eq_nil_iff] at h
    obtain ⟨⟨hhead, hmissing⟩, hblock⟩ := h
    rw [if_pos htakes]
    obtain ⟨hlen, hbound⟩ := loadCall_faultless hhead
    refine ⟨hlen, hbound, ?_, fun _ => hblock⟩
    cases hasBody
    · cases hmissing
    · exact htakes.symm
  · next htakes =>
    simp only [List.append_eq_nil_iff] at h
    obtain ⟨hsurplus, hhead⟩ := h
    rw [if_neg htakes]
    obtain ⟨hlen, hbound⟩ := loadCall_faultless hhead
    refine ⟨hlen, hbound, ?_, fun h => absurd h htakes⟩
    cases hasBody
    · simpa using htakes
    · cases hsurplus

theorem clause?_loadClauses (h : ∀ g ∈ gs, g.call.id ≠ id) :
    (command.loadClauses fs gs).result.clause? id = command.clause? id := by
  induction gs generalizing command with
  | nil => rfl
  | cons g r ih =>
    have hr : ∀ g ∈ r, g.call.id ≠ id := fun g hg => h g (.tail _ hg)
    rw [Command.loadClauses]
    split
    · next loaded hl => exact (ih hr).trans ((clauseLoaded hl).others id (h g (.head _)).symm)
    · exact ih hr

theorem lastOf_cons (g : Clause) : lastOf (g :: gs) id =
    (lastOf gs id).or (if g.call.id = id then some g else none) := by
  unfold lastOf
  rw [List.reverse_cons, List.find?_append]
  by_cases h : g.call.id = id <;> simp [h]

theorem ClauseLoaded.faultless {r : Reported Command} (h : ClauseLoaded fs command c r)
    (hr : r.faults = []) : ∃ os, r.result.clause? c.id = some os ∧
      clauseLeast c.id ≤ c.params.length ∧
      List.Forall₂ (Bound fs) (c.params.take (clauseLeast c.id)) os := by
  have hlen : clauseLeast c.id ≤ c.params.length := by
    refine Nat.le_of_not_lt fun hlt => ?_
    rw [h.few hlt] at hr
    cases hr
  obtain ⟨os, hos, hgathers⟩ := h.enough hlen
  rw [hr] at hgathers
  exact ⟨os, hos, hlen, hgathers.bound⟩

/-- Clauses that load without a fault are there afterwards, the last of each name. -/
theorem loadClauses_faultless (h : (command.loadClauses fs gs).faults = []) {g : Clause}
    (hg : lastOf gs id = some g) : ∃ os, (command.loadClauses fs gs).result.clause? id = some os ∧
      clauseLeast id ≤ g.call.params.length ∧
      List.Forall₂ (Bound fs) (g.call.params.take (clauseLeast id)) os := by
  induction gs generalizing command with
  | nil => cases hg
  | cons g' r ih =>
    rw [Command.loadClauses] at h ⊢
    split at h
    · next loaded hl =>
      obtain ⟨hloaded, hr⟩ := List.append_eq_nil_iff.1 h
      rw [lastOf_cons] at hg
      cases hlast : lastOf r id with
      | some g'' =>
        rw [hlast] at hg
        cases hg
        exact ih hr hlast
      | none =>
        rw [hlast, Option.none_or] at hg
        split at hg
        · next hid =>
          cases hg
          subst hid
          have hnone : ∀ x ∈ r, x.call.id ≠ g.call.id := by simpa [lastOf] using hlast
          rw [Reported.result_bind, clause?_loadClauses hnone]
          exact (clauseLoaded hl).faultless hloaded
        · cases hg
    · cases h

/-- What a command that is loaded without a fault is. -/
theorem represented_loadClauses {v : Verb} {f : Clause} {block : Reported (List Command)}
    (hn : n.clauses = f :: gs) (hv : voc.verbs.find? f.call.id = some v)
    (hhead : (v.load voc.functions f.call f.hasBody block).faults = [])
    (hgs : ((v.load voc.functions f.call f.hasBody block).result.loadClauses voc.functions
      gs).faults = []) :
    n.Represented voc ((v.load voc.functions f.call f.hasBody block).result.loadClauses
      voc.functions gs).result := by
  have kept := clausesLoaded voc.functions (v.load voc.functions f.call f.hasBody block).result gs
  obtain ⟨hlen, hbound, -, -⟩ := load_faultless hhead
  refine ⟨⟨f, v, by rw [hn]; rfl, hv, ?_, hlen, kept.operands ▸ hbound⟩, fun id g hg => ?_⟩
  · rw [kept.name, Verb.result_load, Verb.name_loadCall]
  · rw [hn] at hg
    exact loadClauses_faultless hgs hg

/-- A block that is loaded without a fault has its commands in the order of the document. -/
theorem represented_ofBlock (hns : (Command.ofBlock voc ns).faults = [])
    (h : ∀ n ∈ ns, (Command.ofNode voc n).faults = [] →
      List.Forall₂ (Node.Represented voc) n.kept
        (Command.preorderOf (Command.ofNode voc n).result.toList)) :
    List.Forall₂ (Node.Represented voc) (Node.keptOf ns)
      (Command.preorderOf (Command.ofBlock voc ns).result) := by
  induction ns with
  | nil => exact .nil
  | cons n r ih =>
    rw [Command.ofBlock, Reported.faults_bind, Reported.faults_bind, Reported.faults_pure,
      List.append_nil] at hns
    obtain ⟨hn, hr⟩ := List.append_eq_nil_iff.1 hns
    rw [Node.keptOf, Command.ofBlock, Reported.result_bind, Reported.result_bind,
      Reported.result_pure, Command.preorderOf_append]
    exact List.rel_append (h n (.head _) hn) (ih hr fun m hm => h m (.tail _ hm))

theorem represented_ofNode (hp : n.Parsed) (h : (Command.ofNode voc n).faults = []) :
    List.Forall₂ (Node.Represented voc) n.kept
      (Command.preorderOf (Command.ofNode voc n).result.toList) := by
  induction hp with
  | @intro n hne formed _ ih =>
    obtain ⟨f, gs, hcs⟩ := List.exists_cons_of_ne_nil hne
    rw [hcs] at formed ih
    rw [ofNode_eq voc hcs] at h ⊢
    cases hv : voc.verbs.find? f.call.id with
    | none =>
      simp only [Command.ofName, hv] at h
      cases h
    | some v =>
      simp only [Command.ofName, hv, Reported.faults_bind, Reported.faults_pure, List.append_nil,
        List.append_eq_nil_iff] at h
      obtain ⟨hhead, hgs⟩ := h
      have here := represented_loadClauses hcs hv hhead hgs
      obtain ⟨-, -, hasBody, hblock⟩ := load_faultless hhead
      have inside : List.Forall₂ (Node.Represented voc) (Node.keptOf f.body)
          (Command.preorderOf
            (if v.takesBody then (Command.ofBlock voc f.body).result else [])) := by
        split
        · next htakes => exact represented_ofBlock (hblock htakes) (ih f (.head _))
        · next htakes =>
          rw [(formed f (.head _)).body (by simpa [hasBody] using htakes)]
          exact .nil
      rw [Node.kept_eq hcs]
      simp only [Command.ofName, hv, Reported.result_bind, Reported.result_pure, Option.toList_some,
        Command.preorderOf, List.append_nil]
      rw [Command.preorder_eq, (clausesLoaded _ _ _).body, Verb.body_load]
      exact .cons here inside

end

/-! ### Documents -/

section
variable {voc : Vocabulary} {story : String} {hs : List HandlerDecl} {t : Table (List Command)}
variable {message : String} {commands : List Command}

/-- A handler that is there stays. -/
theorem find?_loadHandlers (h : t.find? message = some commands) :
    (Document.loadHandlers voc story hs t).result.find? message = some commands := by
  induction hs generalizing t with
  | nil => exact h
  | cons k r ih =>
    rw [Document.loadHandlers]
    split
    · exact ih h
    · next hnew =>
      refine ih ?_
      rw [Table.find?_insert, if_neg, h]
      rintro rfl
      simp [Table.contains, h] at hnew

theorem loadHandlers_faultless (h : (Document.loadHandlers voc story hs t).faults = []) :
    ∀ k ∈ hs, (Command.ofBlock voc k.body).faults = [] ∧
      (Document.loadHandlers voc story hs t).result.find? k.messageId =
        some (Command.ofBlock voc k.body).result := by
  induction hs generalizing t with
  | nil => exact fun k hk => nomatch hk
  | cons k r ih =>
    rw [Document.loadHandlers] at h ⊢
    split at h
    · cases h
    · next hnew =>
      obtain ⟨hk, hr⟩ := List.append_eq_nil_iff.1 h
      rw [if_neg hnew]
      refine List.forall_mem_cons.2 ⟨⟨hk, ?_⟩, ih hr⟩
      exact find?_loadHandlers (Table.find?_insert_self _ _ _)

end

namespace Document
variable (voc : Vocabulary) (d : Document)

/-- Every handler of a document is in a template, with its commands in their order: those that
`order` lists, each represented by one command. -/
def Carried (order : List Node → List Node) (t : Template) : Prop :=
  ∀ k ∈ d.handlers, ∃ commands, t.handler? k.messageId = some commands ∧
    List.Forall₂ (Node.Represented voc) (order k.body) (Command.preorderOf commands)

/-- No trailing clause of a document has commands in it. -/
def Bare : Prop := ∀ k ∈ d.handlers, ∀ n ∈ Node.preorderOf k.body, n.Bare

variable {voc d} {root : Markup.Element} {ds : List Document}

theorem carried_keptOf (hp : d.Parsed) (h : (d.load voc).faults = []) :
    d.Carried voc Node.keptOf (d.load voc).result := by
  rw [load, Reported.faults_bind, Reported.faults_pure, List.append_nil] at h
  intro k hk
  obtain ⟨hblock, hfound⟩ := loadHandlers_faultless h k hk
  exact ⟨_, hfound, represented_ofBlock hblock fun n hn => represented_ofNode (hp k hk n hn)⟩

/-- A document that is loaded without a fault is carried over but for what is in trailing clauses,
and so it is carried over whole exactly if there are no commands in them. -/
theorem load_carried_iff (voc : Vocabulary) (hroot : Document.ofRoot root = .ok ds) (hd : d ∈ ds)
    (hf : (d.load voc).faults = []) :
    d.Carried voc Node.keptOf (d.load voc).result ∧
      (d.Carried voc Node.preorderOf (d.load voc).result ↔ d.Bare) := by
  have kept := carried_keptOf (parsed_of_ofRoot hroot hd) hf
  refine ⟨kept, fun h k hk => ?_, fun h k hk => ?_⟩
  · obtain ⟨commands, hfound, hkept⟩ := kept k hk
    obtain ⟨commands', hfound', hall⟩ := h k hk
    cases hfound.symm.trans hfound'
    have sub := Node.keptOf_sublist fun n (_ : n ∈ k.body) => Node.kept_sublist n
    refine (Node.keptOf_eq_preorderOf_iff k.body).1 (sub.eq_of_length ?_)
    rw [hkept.length_eq, hall.length_eq]
  · rw [← (Node.keptOf_eq_preorderOf_iff k.body).2 (h k hk)]
    exact kept k hk

/-- A story that waits for another one, with a clause that says what is then to be set. Some more
parts of the clause can be given. -/
def waiting (more : List Markup.Element) : Markup.Element :=
  let param (name text : String) : Markup.Element := ⟨name, ∅, [], text, default⟩
  let call (id : String) (params : List Markup.Element) : Markup.Element :=
    ⟨"call", .ofList [("id", id)], params, "", default⟩
  let clause : Markup.Element :=
    ⟨"function", ∅, call "set" [param "ident" "@r", param "num" "1"] :: more, "", default⟩
  let statement : Markup.Element :=
    ⟨"statement", ∅, [call "waitstory" [param "str" "b"], clause], "", default⟩
  ⟨"story", .ofList [("id", "a")],
    [⟨"onmessage", .ofList [("id", "start")], [statement], "", default⟩], "", default⟩

/-- A body with one command in it, that writes a text. -/
def writing : Markup.Element :=
  ⟨"body", ∅, [⟨"call", .ofList [("id", "log")], [⟨"str", ∅, [], "x", default⟩], "", default⟩], "",
    default⟩

theorem load_carried_waiting : ∃ d, Document.ofRoot (waiting []) = .ok [d] ∧
    (d.load .builtin).faults = [] ∧
      d.Carried .builtin Node.preorderOf (d.load .builtin).result := by
  have hroot : Document.ofRoot (waiting []) = .ok [_] := rfl
  refine ⟨_, hroot, by decide +kernel, ?_⟩
  refine (load_carried_iff .builtin hroot (.head _) (by decide +kernel)).2.2 ?_
  intro k hk n hn g hg
  obtain rfl := List.mem_singleton.1 hk
  obtain rfl := List.mem_singleton.1 hn
  obtain rfl := List.mem_singleton.1 hg
  rfl

/-- A command in a trailing clause is lost, and no fault is reported. -/
theorem not_load_carried_writing : ¬∀ root ds d, Document.ofRoot root = .ok ds → d ∈ ds →
    (d.load .builtin).faults = [] →
      d.Carried .builtin Node.preorderOf (d.load .builtin).result := by
  intro carried
  -- The document has two commands, and the template that comes of it only one.
  obtain ⟨d, hroot, hf, k, hk, two, one⟩ : ∃ d, Document.ofRoot (waiting [writing]) = .ok [d] ∧
      (d.load .builtin).faults = [] ∧ ∃ k ∈ d.handlers, (Node.preorderOf k.body).length = 2 ∧
        ((d.load .builtin).result.handler? k.messageId).map
          (fun cs => (Command.preorderOf cs).length) = some 1 :=
    ⟨_, rfl, by decide +kernel, _, .head _, rfl, by decide +kernel⟩
  obtain ⟨commands, hfound, hall⟩ := carried _ _ d hroot (.head _) hf k hk
  rw [hfound, Option.map_some, Option.some_inj] at one
  have hlen := hall.length_eq
  rw [two, one] at hlen
  cases hlen

end Document
end StoryScript
