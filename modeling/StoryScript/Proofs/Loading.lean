import StoryScript.Proofs.Parsed
import StoryScript.Proofs.Reading
import StoryScript.Template

/-! What loading makes of a call. A command keeps the parameters that its verb reads as operands, in
their order; a parameter that cannot be bound leaves its operand unbound and is reported. A clause
gives a command some more operands and leaves the others as they are. -/
namespace StoryScript
open Reported

namespace Reported
variable {α β : Type}

@[simp] theorem result_map (f : α → β) (x : Reported α) : (f <$> x).result = f x.result := rfl
@[simp] theorem faults_map (f : α → β) (x : Reported α) : (f <$> x).faults = x.faults :=
  List.append_nil x.faults

instance : LawfulMonad Reported :=
  .mk' Reported (fun x => by simp [Functor.map]) (fun _ _ => rfl)
    fun x f g => by simp [bind, List.append_assoc]

end Reported

/-! ### Parameters -/

/-- How a parameter is bound: to its source, to the name of the variable written there, or not at
all, and then the reason is reported. -/
inductive Binding (fs : Functions) (n : Node) : Reported Operand → Prop
  | bound {s : Source} : Source.ofNode fs n = .ok s → Binding fs n ⟨some s, []⟩
  | named {name : String} :
    Call.variableName? n = some name → Binding fs n ⟨Operand.literal (.text name), []⟩
  | unbound {f : Fault} : Source.ofNode fs n = .error f → Binding fs n ⟨none, [f]⟩

/-- The faults and the operands that come of binding some parameters in their order. -/
inductive Gathers (fs : Functions) : List Node → List Fault → List Operand → Prop
  | nil : Gathers fs [] [] []
  | cons {n : Node} {b : Reported Operand} {ns : List Node} {faults : List Fault}
      {os : List Operand} : Binding fs n b → Gathers fs ns faults os →
      Gathers fs (n :: ns) (b.faults ++ faults) (b.result :: os)

section
variable {fs : Functions} {n : Node} {ns : List Node} {faults : List Fault} {os : List Operand}

theorem Gathers.exists_of_mem (h : Gathers fs ns faults os) {f : Fault} (hf : f ∈ faults) :
    ∃ n ∈ ns, Source.ofNode fs n = .error f := by
  induction h with
  | nil => cases hf
  | @cons n b ns faults os hb _ ih =>
    rcases List.mem_append.1 hf with hf | hf
    · cases hb with
      | bound => cases hf
      | named => cases hf
      | unbound h => exact ⟨n, .head _, List.mem_singleton.1 hf ▸ h⟩
    · obtain ⟨m, hm, h⟩ := ih hf
      exact ⟨m, .tail _ hm, h⟩

theorem Gathers.forall₂ (h : Gathers fs ns faults os) :
    List.Forall₂ (fun n o => ∃ b, Binding fs n b ∧ b.result = o ∧ ∀ f ∈ b.faults, f ∈ faults)
      ns os := by
  induction h with
  | nil => exact .nil
  | cons hb _ ih =>
    refine .cons ⟨_, hb, rfl, fun f hf => List.mem_append_left _ hf⟩ (ih.imp ?_)
    rintro n o ⟨b, hb, ho, hf⟩
    exact ⟨b, hb, ho, fun f hmem => List.mem_append_right _ (hf f hmem)⟩

theorem binding_bindNode (fs : Functions) (n : Node) : Binding fs n (Call.bindNode fs n) := by
  unfold Call.bindNode
  split
  · exact .bound ‹_›
  · exact .unbound ‹_›

theorem gathers_mapM (fs : Functions) (ns : List Node) :
    Gathers fs ns (ns.mapM (Call.bindNode fs)).faults (ns.mapM (Call.bindNode fs)).result := by
  induction ns with
  | nil => exact .nil
  | cons n ns ih =>
    rw [List.mapM_cons]
    simpa using Gathers.cons (binding_bindNode fs n) ih
end

namespace Call
variable (fs : Functions) {c : Call} {i : Nat} {n : Node}

theorem operand_eq (h : c.params[i]? = some n) : c.operand fs i = bindNode fs n := by
  rw [operand, h]

theorem binding_operand (h : c.params[i]? = some n) : Binding fs n (c.operand fs i) :=
  operand_eq fs h ▸ binding_bindNode fs n

theorem binding_target (h : c.params[i]? = some n) : Binding fs n (c.target fs i) := by
  unfold target
  rw [h, Option.bind_some]
  split
  · exact .named ‹_›
  · exact binding_operand fs h

theorem gathers_from (c : Call) (i : Nat) : Gathers fs (c.params.drop i)
    (c.operandsFrom fs i).faults (c.operandsFrom fs i).result := gathers_mapM fs _

/-- An operand, and what comes of the parameters after it. -/
theorem gathers_operand (h : i < c.params.length) {k : Nat} {faults : List Fault}
    {os : List Operand} (hr : Gathers fs ((c.params.drop (i + 1)).take k) faults os) :
    Gathers fs ((c.params.drop i).take (k + 1)) ((c.operand fs i).faults ++ faults)
      ((c.operand fs i).result :: os) := by
  rw [List.drop_eq_getElem_cons h, List.take_succ_cons]
  exact .cons (binding_operand fs (List.getElem?_eq_getElem h)) hr

theorem gathers_assignment (h : i + 2 ≤ c.params.length) :
    Gathers fs ((c.params.drop i).take 2) (c.assignment fs i).faults
      [(c.assignment fs i).result.target, (c.assignment fs i).result.value] := by
  have hi : i < c.params.length := by omega
  rw [List.drop_eq_getElem_cons hi, List.take_succ_cons]
  refine .cons (binding_target fs (List.getElem?_eq_getElem hi)) ?_
  exact gathers_operand fs (by omega) (k := 0) .nil

theorem gathers_target (h : 1 ≤ c.params.length) :
    Gathers fs (c.params.take 1) (c.target fs 0).faults [(c.target fs 0).result] := by
  rw [← List.drop_zero (l := c.params), List.drop_eq_getElem_cons h, List.take_succ_cons]
  simpa using Gathers.cons (binding_target fs (List.getElem?_eq_getElem h)) .nil

theorem requiring_of_le {α : Type} {k : Nat} {d : α} {r : Reported α} (h : k ≤ c.params.length) :
    c.requiring k d r = r := if_pos h

theorem requiring_of_lt {α : Type} {k : Nat} {d : α} {r : Reported α} (h : c.params.length < k) :
    c.requiring k d r = ⟨d, [.located c.span (.tooFewParameters c.id k c.params.length)]⟩ :=
  if_neg (Nat.not_le_of_lt h)

theorem map_requiring {α β : Type} (g : α → β) {k : Nat} {d : α} {r : Reported α} :
    (do return g (← c.requiring k d r)) = c.requiring k (g d) (do return g (← r)) := by
  unfold requiring
  split <;> rfl

end Call

/-! ### Operands of commands -/

/-- The operands of an action without the variable for the answer of the host. -/
def Action.headOperands : Action Operand → List Operand
  | callHost f args _ => f :: args
  | a => a.operands

/-- The operands of a command itself, without those of its clauses. -/
def Command.headOperands : Command → List Operand
  | .act a => a.headOperands
  | .wait o => [o]
  | .await a => a.goal.operands
  | .repeat r _ => r.operands

/-- The operands that a wait has from its clause of a name, if it has one. -/
def Outcomes.clause? (o : Outcomes Operand) (id : String) : Option (List Operand) :=
  if id = "set" then o.success.map Assignment.operands
  else if id = "timeoutset" then o.timeout.map Timeout.operands
  else none

/-- The operands that a command has from its clause of a name, if it has one. -/
def Command.clause? (command : Command) (id : String) : Option (List Operand) :=
  match command with
  | .await a => a.outcomes.clause? id
  | .act (.callHost _ _ r) => if id = "result" then r.map fun o => [o] else none
  | _ => none

/-- The commands inside a command. -/
def Command.body : Command → List Command
  | .repeat _ b => b
  | _ => []

namespace Verb

/-- The least number of parameters that a verb needs. -/
def least : Verb → Nat
  | assign => 2
  | wait | loop | localMessage | startStory | stopStory | waitStory | fireMessage _ | waitMessage
  | waitHandlers | hostCall => 1
  | foreach | terminate | log | pauseStory _ | pauseHandlers _ => 0

/-- The parameters that become operands: the first few, or all. -/
def reads (v : Verb) (c : Call) : List Node :=
  match v with
  | terminate => []
  | wait | loop | startStory | stopStory => c.params.take 1
  | assign => c.params.take 2
  | _ => c.params

variable {fs : Functions} {v : Verb} {c : Call} {body : List Command}

theorem loadCall_few (h : c.params.length < v.least) : (v.loadCall fs c body).faults =
    [.located c.span (.tooFewParameters c.id v.least c.params.length)] := by
  cases v <;> simp only [least, Nat.not_lt_zero] at h <;>
    simp [loadCall, Call.requiring_of_lt h, least]

theorem loadCall_gathers (h : v.least ≤ c.params.length) :
    Gathers fs (v.reads c) (v.loadCall fs c body).faults
      (v.loadCall fs c body).result.headOperands := by
  have all := Call.gathers_from fs c 0
  have one (h : 1 ≤ c.params.length) := Call.gathers_operand fs h (k := 0) .nil
  have head (h : 1 ≤ c.params.length) :
      Gathers fs c.params ((c.operand fs 0).faults ++ (c.operandsFrom fs 1).faults)
        ((c.operand fs 0).result :: (c.operandsFrom fs 1).result) := by
    have rest := Call.gathers_from fs c 1
    rw [← List.take_of_length_le (i := c.params.length) (l := c.params.drop 1) (by simp)] at rest
    have hk := Call.gathers_operand fs (i := 0) h rest
    rwa [List.take_of_length_le (by simp)] at hk
  cases v with
  | terminate => exact .nil
  | assign =>
    have h : 2 ≤ c.params.length := h
    rw [loadCall, Call.requiring_of_le h]
    simpa [reads, Command.headOperands, Action.headOperands, Action.operands,
      Assignment.operands] using Call.gathers_assignment fs (i := 0) h
  | wait | loop | startStory | stopStory =>
    have h : 1 ≤ c.params.length := h
    rw [loadCall, Call.requiring_of_le h]
    simpa [reads, Command.headOperands, Action.headOperands, Action.operands,
      Range.operands] using one h
  | foreach | log | pauseStory | pauseHandlers =>
    rw [loadCall]
    simpa [reads, Command.headOperands, Action.headOperands, Action.operands,
      Range.operands] using all
  | waitStory | waitMessage | waitHandlers =>
    have h : 1 ≤ c.params.length := h
    rw [loadCall, Call.requiring_of_le h]
    simpa [reads, Command.headOperands, Goal.operands] using all
  | localMessage | fireMessage | hostCall =>
    have h : 1 ≤ c.params.length := h
    rw [loadCall, Call.requiring_of_le h]
    simpa [reads, Command.headOperands, Action.headOperands, Action.operands] using head h

theorem result_load {hasBody : Bool} {block : Reported (List Command)} :
    (v.load fs c hasBody block).result =
      (v.loadCall fs c (if v.takesBody then block.result else [])).result := by
  unfold load
  split <;> rfl

theorem name_loadCall : (v.loadCall fs c body).result.name = v.name := by
  cases v with
  | loop | foreach | terminate | log | pauseStory | pauseHandlers => rfl
  | _ => simp only [loadCall, Call.requiring]; split <;> rfl

theorem body_loadCall : (v.loadCall fs c body).result.body = if v.takesBody then body else [] := by
  cases v with
  | loop | foreach | terminate | log | pauseStory | pauseHandlers => rfl
  | _ => simp only [loadCall, Call.requiring]; split <;> rfl

theorem body_load {hasBody : Bool} {block : Reported (List Command)} :
    (v.load fs c hasBody block).result.body = if v.takesBody then block.result else [] := by
  rw [result_load, body_loadCall]
  split <;> rfl

theorem clause?_loadCall (id : String) : (v.loadCall fs c body).result.clause? id = none := by
  have none : Outcomes.clause? {} id = none := by unfold Outcomes.clause?; split_ifs <;> rfl
  cases v with
  | loop | foreach | terminate | log | pauseStory | pauseHandlers => rfl
  | waitStory | waitMessage | waitHandlers =>
    simp only [loadCall, Call.requiring]
    split <;> exact none
  | hostCall =>
    simp only [loadCall, Call.requiring]
    split <;> exact ite_self _
  | _ => simp only [loadCall, Call.requiring]; split <;> rfl

end Verb

/-! ### Clauses -/

/-- The least number of parameters that a clause needs. It reads no others. -/
def clauseLeast (id : String) : Nat :=
  if id = "set" then 2 else if id = "timeoutset" then 3 else 1

/-- What a clause makes of a command that accepts it: the clause is there afterwards if it has
enough parameters, and all else is as before. -/
structure ClauseLoaded (fs : Functions) (command : Command) (c : Call) (r : Reported Command) :
    Prop where
  name : r.result.name = command.name
  operands : r.result.headOperands = command.headOperands
  body : r.result.body = command.body
  others : ∀ id, id ≠ c.id → r.result.clause? id = command.clause? id
  enough : clauseLeast c.id ≤ c.params.length → ∃ os, r.result.clause? c.id = some os ∧
    Gathers fs (c.params.take (clauseLeast c.id)) r.faults os
  few : c.params.length < clauseLeast c.id → r =
    ⟨command, [.located c.span (.tooFewParameters c.id (clauseLeast c.id) c.params.length)]⟩

section
variable {fs : Functions} {c : Call} {command : Command} {r : Reported Command}

/-- A clause that is loaded when there are enough parameters, and has then its operands. -/
theorem clauseLoaded_requiring {k : Nat} {load : Reported Command} (os : List Operand)
    (hleast : clauseLeast c.id = k) (name : load.result.name = command.name)
    (operands : load.result.headOperands = command.headOperands)
    (body : load.result.body = command.body)
    (others : ∀ id, id ≠ c.id → load.result.clause? id = command.clause? id)
    (here : load.result.clause? c.id = some os)
    (gathers : k ≤ c.params.length → Gathers fs (c.params.take k) load.faults os) :
    ClauseLoaded fs command c (c.requiring k command load) := by
  subst hleast
  by_cases hlen : clauseLeast c.id ≤ c.params.length
  · rw [Call.requiring_of_le hlen]
    exact ⟨name, operands, body, others, fun _ => ⟨os, here, gathers hlen⟩, fun h => by omega⟩
  · rw [Call.requiring_of_lt (by omega)]
    exact ⟨rfl, rfl, rfl, fun _ _ => rfl, fun h => by omega, fun _ => rfl⟩

theorem clauseLoaded_callHost {f : Operand} {args : List Operand} {o : Option Operand}
    (h : (Command.act (.callHost f args o)).loadClause? fs c = some r) :
    ClauseLoaded fs (.act (.callHost f args o)) c r := by
  simp only [Command.loadClause?] at h
  split at h
  · next hid =>
    cases h
    refine clauseLoaded_requiring [(c.target fs 0).result] (by rw [hid]; rfl) rfl rfl rfl ?_ ?_
      fun hlen => by simpa using Call.gathers_target fs hlen
    · exact fun id h => by simp [Command.clause?, hid ▸ h]
    · simp [Command.clause?, hid]
  · cases h

theorem clauseLoaded_await {a : Await Operand} (h : (Command.await a).loadClause? fs c = some r) :
    ClauseLoaded fs (.await a) c r := by
  simp only [Command.loadClause?, Outcomes.loadClause?] at h
  split at h
  · next hid =>
    cases h
    refine Eq.subst (Call.map_requiring fun o => Command.await ⟨a.goal, o⟩).symm ?_
    refine clauseLoaded_requiring (c.assignment fs 0).result.operands (by rw [hid]; rfl) rfl rfl rfl
      ?_ ?_ fun hlen => by simpa [Assignment.operands] using Call.gathers_assignment fs (i := 0) hlen
    · exact fun id h => by simp [Command.clause?, Outcomes.clause?, hid ▸ h]
    · simp [Command.clause?, Outcomes.clause?, hid]
  · next hid =>
    cases h
    refine Eq.subst (Call.map_requiring fun o => Command.await ⟨a.goal, o⟩).symm ?_
    refine clauseLoaded_requiring
      (Timeout.operands ⟨(c.operand fs 0).result, (c.assignment fs 1).result⟩)
      (by rw [hid]; rfl) rfl rfl rfl ?_ ?_ fun hlen => ?_
    · exact fun id h => by simp [Command.clause?, Outcomes.clause?, hid ▸ h]
    · simp [Command.clause?, Outcomes.clause?, hid]
    · have h := Call.gathers_operand fs (i := 0) (by omega) (Call.gathers_assignment fs hlen)
      simpa [Timeout.operands, Assignment.operands] using h
  · cases h

theorem clauseLoaded (h : command.loadClause? fs c = some r) : ClauseLoaded fs command c r := by
  unfold Command.loadClause? at h
  split at h
  · exact clauseLoaded_await h
  · exact clauseLoaded_callHost h
  · cases h

end

mutual
/-- A command and the commands inside it, each before those inside of it. -/
def Command.preorder : Command → List Command
  | .repeat r b => .repeat r b :: Command.preorderOf b
  | c => [c]

def Command.preorderOf : List Command → List Command
  | [] => []
  | c :: r => Command.preorder c ++ Command.preorderOf r
end

theorem Command.preorder_eq (command : Command) :
    command.preorder = command :: preorderOf command.body := by
  cases command <;> rfl

theorem Command.preorderOf_append (cs ds : List Command) :
    preorderOf (cs ++ ds) = preorderOf cs ++ preorderOf ds := by
  induction cs with
  | nil => rfl
  | cons c r ih => rw [List.cons_append, preorderOf, preorderOf, ih, List.append_assoc]

/-- What clauses make of a command: all but its clauses is as before, and what a clause of a name
has afterwards comes of the clauses of that name. -/
structure ClausesLoaded (fs : Functions) (command : Command) (gs : List Clause)
    (command' : Command) : Prop where
  name : command'.name = command.name
  operands : command'.headOperands = command.headOperands
  body : command'.body = command.body
  clauses : ∀ id os, command'.clause? id = some os → command.clause? id = some os ∨
    ∃ g ∈ gs, g.call.id = id ∧ ∃ faults, Gathers fs (g.call.params.take (clauseLeast id)) faults os

theorem clausesLoaded (fs : Functions) (command : Command) (gs : List Clause) :
    ClausesLoaded fs command gs (command.loadClauses fs gs).result := by
  induction gs generalizing command with
  | nil => exact ⟨rfl, rfl, rfl, fun _ _ => .inl⟩
  | cons g r ih =>
    rw [Command.loadClauses]
    split
    · next loaded hl =>
      have h := clauseLoaded hl
      have hr := ih loaded.result
      refine ⟨hr.name.trans h.name, hr.operands.trans h.operands, hr.body.trans h.body, ?_⟩
      intro id os hos
      obtain hos | ⟨g', hg', hid, hgathers⟩ := hr.clauses id os hos
      · by_cases hid : id = g.call.id
        · subst hid
          by_cases hlen : clauseLeast g.call.id ≤ g.call.params.length
          · obtain ⟨os', hos', hgathers⟩ := h.enough hlen
            rw [hos'] at hos
            cases hos
            exact .inr ⟨g, .head _, rfl, _, hgathers⟩
          · rw [h.few (Nat.lt_of_not_le hlen)] at hos
            exact .inl hos
        · exact .inl ((h.others id hid).symm.trans hos)
      · exact .inr ⟨g', .tail _ hg', hid, hgathers⟩
    · have hr := ih command
      refine ⟨hr.name, hr.operands, hr.body, fun id os hos => (hr.clauses id os hos).imp_right ?_⟩
      rintro ⟨g', hg', h⟩
      exact ⟨g', .tail _ hg', h⟩

/-! ### Blocks -/

/-- What holds of a node when it holds of every node in the bodies of its clauses. -/
theorem Node.byBodies {P : Node → Prop}
    (step : ∀ n : Node, (∀ f ∈ n.clauses, ∀ m ∈ f.body, P m) → P n) (n : Node) : P n := by
  induction n using byClauses with
  | step n ih => exact step n fun f hf m hm => ih f hf m (List.mem_append_right _ hm)

/-- The calls in front of the commands and clauses of a node, at any depth. A value token that
stands for a command is a call without parameters. -/
inductive Node.Holds : Node → Call → Prop
  | value (l : Literal) : Node.Holds (.value l) ⟨l.text, [], l.span⟩
  | clause {n : Node} {f : Clause} : f ∈ n.clauses → Node.Holds n f.call
  | body {n m : Node} {f : Clause} {c : Call} : f ∈ n.clauses → m ∈ f.body → Node.Holds m c →
    Node.Holds n c

def Document.Holds (d : Document) (c : Call) : Prop := ∃ h ∈ d.handlers, ∃ n ∈ h.body, n.Holds c

/-- How a command is loaded: by its first clause, and then the others. -/
theorem ofNode_eq (voc : Vocabulary) {n : Node} {f : Clause} {gs : List Clause}
    (h : n.clauses = f :: gs) : Command.ofNode voc n =
      Command.ofName voc f.call.id n.span fun v =>
        v.load voc.functions f.call f.hasBody (Command.ofBlock voc f.body) >>= fun command =>
          command.loadClauses voc.functions gs := by
  have alone (r : Reported Command) :
      (r >>= fun command => command.loadClauses voc.functions []) = r := bind_pure r
  cases n with
  | value => cases h
  | call c =>
    cases h
    simp only [alone]
    rfl
  | function g =>
    cases h
    obtain ⟨c, body, hasBody⟩ := f
    simp only [alone]
    rfl
  | statement fs s =>
    cases h
    obtain ⟨c, body, hasBody⟩ := f
    rfl

/-- The name of a node is that of its first clause. -/
theorem Node.id_eq {n : Node} {f : Clause} {gs : List Clause} (h : n.clauses = f :: gs) :
    n.id = f.call.id := by
  cases n with
  | value => cases h
  | call | function | statement => cases h; rfl

/-- The commands in the body of the first clause of a node. -/
def Node.inner (n : Node) : List Node :=
  match n.clauses with
  | f :: _ => f.body
  | [] => []

theorem Node.inner_eq {n : Node} {f : Clause} {gs : List Clause} (h : n.clauses = f :: gs) :
    n.inner = f.body := by
  rw [inner, h]

theorem Node.inner_nil {n : Node} (h : n.clauses = []) : n.inner = [] := by
  rw [inner, h]

theorem Node.mem_inner {n m : Node} (h : m ∈ n.inner) : ∃ g ∈ n.clauses, m ∈ g.body := by
  cases hn : n.clauses with
  | nil => simp [inner_nil hn] at h
  | cons g gs => exact ⟨g, .head _, inner_eq hn ▸ h⟩

/-- The calls of a node itself: that of each of its clauses. A value token stands for a call without
parameters. -/
def Node.calls : Node → List Call
  | .value l => [⟨l.text, [], l.span⟩]
  | n => n.clauses.map Clause.call

theorem Node.mem_calls {n : Node} {f : Clause} (h : f ∈ n.clauses) : f.call ∈ n.calls := by
  cases n with
  | value => cases h
  | call | function | statement => exact List.mem_map_of_mem h

theorem Node.holds_of_mem_calls {n : Node} {c : Call} (h : c ∈ n.calls) : n.Holds c := by
  unfold calls at h
  split at h
  · next l => exact List.mem_singleton.1 h ▸ .value l
  · obtain ⟨f, hf, rfl⟩ := List.mem_map.1 h
    exact .clause hf

/-! ### Faults -/

/-- The causes of a fault that lies with a call. -/
def Cause.OfCall : Cause → Prop
  | tooFewParameters _ _ _ | bodyUnexpected _ | bodyMissing _ | clauseUnknown _ _ => True
  | _ => False

/-- The causes that loading itself reports, and not the binding of a parameter. -/
def Cause.OfLoading : Cause → Prop
  | commandUnknown _ | handlerRepeated _ _ => True
  | c => c.OfCall

theorem Cause.OfCall.ofLoading {c : Cause} (h : c.OfCall) : c.OfLoading := by
  cases c <;> first | exact h | trivial

/-- A fault that lies with a call, or with a parameter of it that cannot be bound. -/
inductive Call.Faulty (fs : Functions) (c : Call) : Fault → Prop
  | call {cause : Cause} : cause.OfCall → Call.Faulty fs c (.located c.span cause)
  | param {p : Node} {f : Fault} : p ∈ c.params → Source.ofNode fs p = .error f →
    Call.Faulty fs c f

/-- A fault that lies with the name of a command or with a call of it, or with a command inside. -/
inductive Node.Faulty (voc : Vocabulary) : Node → Fault → Prop
  | unknown (n : Node) : Node.Faulty voc n (.located n.span (.commandUnknown n.id))
  | call {n : Node} {c : Call} {f : Fault} : c ∈ n.calls → c.Faulty voc.functions f →
    Node.Faulty voc n f
  | body {n m : Node} {g : Clause} {f : Fault} : g ∈ n.clauses → m ∈ g.body →
    Node.Faulty voc m f → Node.Faulty voc n f

/-- A fault that lies with the message of a handler or with a command in it. -/
inductive Document.Faulty (voc : Vocabulary) (d : Document) : Fault → Prop
  | repeated {k : HandlerDecl} : k ∈ d.handlers →
    Document.Faulty voc d (.located k.span (.handlerRepeated d.storyId k.messageId))
  | body {k : HandlerDecl} {n : Node} {f : Fault} : k ∈ d.handlers → n ∈ k.body →
    n.Faulty voc f → Document.Faulty voc d f

section
variable {fs : Functions} {voc : Vocabulary} {c : Call} {n : Node} {f : Fault}

theorem mem_params_of_reads {v : Verb} (h : n ∈ v.reads c) : n ∈ c.params := by
  unfold Verb.reads at h
  split at h
  · cases h
  all_goals first | exact List.mem_of_mem_take h | exact h

theorem faulty_loadCall {v : Verb} {body : List Command}
    (h : f ∈ (v.loadCall fs c body).faults) : c.Faulty fs f := by
  by_cases hlen : v.least ≤ c.params.length
  · obtain ⟨p, hp, hf⟩ := (Verb.loadCall_gathers hlen).exists_of_mem h
    exact .param (mem_params_of_reads hp) hf
  · rw [Verb.loadCall_few (Nat.lt_of_not_le hlen)] at h
    exact List.mem_singleton.1 h ▸ .call trivial

/-- The faults of a command without its clauses are those of its call and those of its body, if it
takes one. -/
theorem faults_load (fs : Functions) (v : Verb) (c : Call) (hasBody : Bool)
    (block : Reported (List Command)) : ∃ own, (∀ f ∈ own, c.Faulty fs f) ∧
      (v.load fs c hasBody block).faults = own ++ if v.takesBody then block.faults else [] := by
  unfold Verb.load
  split
  · refine ⟨_, fun f hf => ?_, rfl⟩
    rcases List.mem_append.1 hf with hf | hf
    · exact faulty_loadCall hf
    · split at hf
      · cases hf
      · exact List.mem_singleton.1 hf ▸ .call trivial
  · refine ⟨_, fun f hf => ?_, (List.append_nil _).symm⟩
    rcases List.mem_append.1 hf with hf | hf
    · split at hf
      · exact List.mem_singleton.1 hf ▸ .call trivial
      · cases hf
    · exact faulty_loadCall hf

theorem ClauseLoaded.faulty {command : Command} {r : Reported Command}
    (h : ClauseLoaded fs command c r) (hf : f ∈ r.faults) : c.Faulty fs f := by
  by_cases hlen : clauseLeast c.id ≤ c.params.length
  · obtain ⟨os, -, hos⟩ := h.enough hlen
    obtain ⟨p, hp, hf⟩ := hos.exists_of_mem hf
    exact .param (List.mem_of_mem_take hp) hf
  · rw [h.few (Nat.lt_of_not_le hlen)] at hf
    exact List.mem_singleton.1 hf ▸ .call trivial

theorem faulty_loadClauses {gs : List Clause} {command : Command}
    (h : f ∈ (command.loadClauses fs gs).faults) : ∃ g ∈ gs, g.call.Faulty fs f := by
  induction gs generalizing command with
  | nil => cases h
  | cons g r ih =>
    rw [Command.loadClauses] at h
    split at h
    · next loaded hl =>
      rcases List.mem_append.1 h with h | h
      · exact ⟨g, .head _, (clauseLoaded hl).faulty h⟩
      · obtain ⟨g', hg', h⟩ := ih h
        exact ⟨g', .tail _ hg', h⟩
    · rcases List.mem_append.1 h with h | h
      · exact ⟨g, .head _, List.mem_singleton.1 h ▸ .call trivial⟩
      · obtain ⟨g', hg', h⟩ := ih h
        exact ⟨g', .tail _ hg', h⟩

theorem faults_ofBlock (ns : List Node) : (Command.ofBlock voc ns).faults =
    ns.flatMap fun n => (Command.ofNode voc n).faults := by
  induction ns with
  | nil => rfl
  | cons n r ih => simp [Command.ofBlock, ih]

theorem result_ofBlock (ns : List Node) : (Command.ofBlock voc ns).result =
    ns.flatMap fun n => (Command.ofNode voc n).result.toList := by
  induction ns with
  | nil => rfl
  | cons n r ih => simp [Command.ofBlock, ih]

theorem Command.mem_preorderOf {command : Command} {cs : List Command} :
    command ∈ preorderOf cs ↔ ∃ c ∈ cs, command ∈ c.preorder := by
  induction cs with
  | nil => simp [preorderOf]
  | cons c r ih => simp [preorderOf, ih]

theorem mem_preorderOf_ofBlock {command : Command} {ns : List Node} :
    command ∈ Command.preorderOf (Command.ofBlock voc ns).result ↔
      ∃ n ∈ ns, command ∈ Command.preorderOf (Command.ofNode voc n).result.toList := by
  simp only [Command.mem_preorderOf, result_ofBlock, List.mem_flatMap]
  grind

section
variable {name : String} {s : Span} {load : Verb → Reported Command}

theorem ofName_known {v : Verb} (h : voc.verbs.find? name = some v) :
    Command.ofName voc name s load = some <$> load v := by
  rw [Command.ofName, h]
  rfl

theorem ofName_unknown (h : voc.verbs.find? name = none) :
    Command.ofName voc name s load = ⟨none, [.located s (.commandUnknown name)]⟩ := by
  rw [Command.ofName, h]

end

/-- A command whose name is not known is left out. -/
theorem ofNode_unknown (h : voc.verbs.find? n.id = none) :
    Command.ofNode voc n = ⟨none, [.located n.span (.commandUnknown n.id)]⟩ := by
  cases n with
  | value => exact ofName_unknown h
  | call => exact ofName_unknown h
  | function f => obtain ⟨c, body, hasBody⟩ := f; exact ofName_unknown h
  | statement fs s =>
    match fs with
    | [] => exact ofName_unknown h
    | ⟨c, body, hasBody⟩ :: gs => exact ofName_unknown h

/-- What a command of a known name comes to. It is of the verb of the name, and a verb that takes a
body has in it what is loaded from the body. Its faults lie with its calls, but for those of the
body that stand among them. -/
structure NodeLoaded (voc : Vocabulary) (n : Node) (v : Verb) (r : Reported (Option Command)) :
    Prop where
  command : ∃ command, r.result = some command ∧ command.name = v.name ∧
    command.body = if v.takesBody then (Command.ofBlock voc n.inner).result else []
  faults : ∃ before after,
    (∀ f ∈ before ++ after, ∃ c ∈ n.calls, c.Faulty voc.functions f) ∧
    r.faults = before ++ (if v.takesBody then (Command.ofBlock voc n.inner).faults else []) ++ after

/-- A value token is loaded as a call without parameters, an empty statement is not read. -/
theorem nodeLoaded_nil {v : Verb} (hn : n.clauses = []) (h : voc.verbs.find? n.id = some v) :
    NodeLoaded voc n v (Command.ofNode voc n) := by
  have inner := Node.inner_nil hn
  have nothing : (Command.ofBlock voc n.inner) = pure [] := by rw [inner]; rfl
  cases n with
  | value l =>
    have h : voc.verbs.find? l.text = some v := h
    obtain ⟨own, hown, hf⟩ := faults_load voc.functions v ⟨l.text, [], l.span⟩ false (pure [])
    rw [Command.ofNode, ofName_known h]
    refine ⟨⟨_, rfl, ?_, ?_⟩, ⟨own, [], fun f hf => ?_, ?_⟩⟩
    · rw [Verb.result_load, Verb.name_loadCall]
    · rw [Verb.body_load, nothing]
    · exact ⟨_, .head _, hown f (by simpa using hf)⟩
    · rw [faults_map, hf, nothing, List.append_nil]
  | call | function => cases hn
  | statement fs s =>
    cases hn
    have h : voc.verbs.find? "" = some v := h
    rw [Command.ofNode, ofName_known h]
    refine ⟨⟨v.blank, rfl, rfl, ?_⟩, ⟨[], [], by simp, ?_⟩⟩
    · rw [nothing]
      cases v <;> rfl
    · rw [nothing]
      cases v <;> rfl

theorem nodeLoaded {v : Verb} (h : voc.verbs.find? n.id = some v) :
    NodeLoaded voc n v (Command.ofNode voc n) := by
  cases hn : n.clauses with
  | nil => exact nodeLoaded_nil hn h
  | cons g gs =>
    have calls : ∀ g' ∈ g :: gs, g'.call ∈ n.calls := fun g' hg' => Node.mem_calls (hn ▸ hg')
    rw [Node.id_eq hn] at h
    rw [ofNode_eq voc hn, ofName_known h]
    obtain ⟨own, hown, hf⟩ :=
      faults_load voc.functions v g.call g.hasBody (Command.ofBlock voc g.body)
    rw [← Node.inner_eq hn] at hf ⊢
    have hname : (v.load voc.functions g.call g.hasBody (Command.ofBlock voc n.inner)).result.name =
        v.name := by rw [Verb.result_load, Verb.name_loadCall]
    have hbody : (v.load voc.functions g.call g.hasBody (Command.ofBlock voc n.inner)).result.body =
        if v.takesBody then (Command.ofBlock voc n.inner).result else [] := Verb.body_load
    generalize v.load voc.functions g.call g.hasBody (Command.ofBlock voc n.inner) = head at *
    have hc := clausesLoaded voc.functions head.result gs
    refine ⟨⟨_, rfl, hc.name.trans hname, hc.body.trans hbody⟩,
      ⟨own, (head.result.loadClauses voc.functions gs).faults, fun f hmem => ?_, ?_⟩⟩
    · rcases List.mem_append.1 hmem with hmem | hmem
      · exact ⟨g.call, calls g (.head _), hown f hmem⟩
      · obtain ⟨g', hg', hf⟩ := faulty_loadClauses hmem
        exact ⟨g'.call, calls g' (.tail _ hg'), hf⟩
    · rw [faults_map, faults_bind, hf]

theorem faulty_ofNode (h : f ∈ (Command.ofNode voc n).faults) : n.Faulty voc f := by
  induction n using Node.byBodies with
  | step n ih =>
    cases hv : voc.verbs.find? n.id with
    | none =>
      rw [ofNode_unknown hv] at h
      exact List.mem_singleton.1 h ▸ .unknown n
    | some v =>
      obtain ⟨before, after, hown, hf⟩ := (nodeLoaded hv).faults
      have own (h : f ∈ before ++ after) : n.Faulty voc f := by
        obtain ⟨c, hc, h⟩ := hown f h
        exact .call hc h
      rw [hf] at h
      rcases List.mem_append.1 h with h | h
      · rcases List.mem_append.1 h with h | h
        · exact own (List.mem_append_left _ h)
        · split at h
          · rw [faults_ofBlock] at h
            obtain ⟨m, hm, h⟩ := List.mem_flatMap.1 h
            obtain ⟨g, hg, hm⟩ := Node.mem_inner hm
            exact .body hg hm (ih g hg m hm h)
          · cases h
      · exact own (List.mem_append_right _ h)

theorem faulty_ofBlock {ns : List Node} (h : f ∈ (Command.ofBlock voc ns).faults) :
    ∃ n ∈ ns, n.Faulty voc f := by
  rw [faults_ofBlock] at h
  obtain ⟨n, hn, h⟩ := List.mem_flatMap.1 h
  exact ⟨n, hn, faulty_ofNode h⟩

theorem Node.Faulty.cause (h : n.Faulty voc f) : f.cause.OfLoading ∨
    ∃ c, n.Holds c ∧ ∃ p ∈ c.params, Source.ofNode voc.functions p = .error f := by
  induction h with
  | unknown => exact .inl trivial
  | call hc h =>
    cases h with
    | call h => exact .inl h.ofLoading
    | param hp h => exact .inr ⟨_, holds_of_mem_calls hc, _, hp, h⟩
  | body hg hm _ ih => exact ih.imp_right fun ⟨c, hc, hp⟩ => ⟨c, .body hg hm hc, hp⟩

theorem faulty_loadHandlers {d : Document} {hs : List HandlerDecl} {t : Table (List Command)}
    (hmem : ∀ k ∈ hs, k ∈ d.handlers)
    (h : f ∈ (Document.loadHandlers voc d.storyId hs t).faults) : d.Faulty voc f := by
  induction hs generalizing t with
  | nil => cases h
  | cons k r ih =>
    obtain ⟨hk, hr⟩ := List.forall_mem_cons.1 hmem
    rw [Document.loadHandlers] at h
    split at h
    · rcases List.mem_append.1 h with h | h
      · exact List.mem_singleton.1 h ▸ .repeated hk
      · exact ih hr h
    · rcases List.mem_append.1 h with h | h
      · obtain ⟨n, hn, h⟩ := faulty_ofBlock h
        exact .body hk hn h
      · exact ih hr h

/-- Every fault of loading a story lies with something in it. -/
theorem Document.faulty_load {d : Document} (h : f ∈ (d.load voc).faults) : d.Faulty voc f := by
  rw [Document.load, Reported.faults_bind, Reported.faults_pure, List.append_nil] at h
  exact faulty_loadHandlers (fun _ => id) h

/-- A fault of loading a story is one of loading itself, or of a parameter of one of its calls that
cannot be bound. -/
theorem Document.mem_faults_load {d : Document} (h : f ∈ (d.load voc).faults) :
    f.cause.OfLoading ∨
      ∃ c, d.Holds c ∧ ∃ p ∈ c.params, Source.ofNode voc.functions p = .error f := by
  cases faulty_load h with
  | repeated => exact .inl trivial
  | body hk hn h => exact h.cause.imp_right fun ⟨c, hc, hp⟩ => ⟨c, ⟨_, hk, _, hn, hc⟩, hp⟩

end
end StoryScript
