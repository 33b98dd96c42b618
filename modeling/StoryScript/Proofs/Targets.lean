import StoryScript.Proofs.Finality
import StoryScript.Proofs.Origins
import StoryScript.Proofs.Selection

/-! What a story writes. Every write goes to the target of a command of the story, so where all targets
have names of their own, a variable of another name keeps its value, whatever the story is told and
whatever the world around it does. A target has a name of its own if it is written as the name of a
variable or as a text. -/
namespace StoryScript

/-! ### Targets -/

def Outcomes.targets (o : Outcomes Operand) : List Operand :=
  (o.success.map (·.target)).toList ++ (o.timeout.map (·.assignment.target)).toList

def Action.targets : Action Operand → List Operand
  | assign a => [a.target]
  | callHost _ _ result => result.toList
  | _ => []

/-- The operands of a command that tell which variables it writes. -/
def Command.targets : Command → List Operand
  | .act a => a.targets
  | .await a => a.outcomes.targets
  | .wait _ | .repeat _ _ => []

namespace Operand

/-- The name of a target that has one of its own. -/
def name? : Operand → Option String
  | some (.literal (.text name)) => some name
  | _ => none

/-- A target that is not bound, or is one of some names whatever it is read in. -/
def Within (names : List String) (o : Operand) : Prop :=
  o = none ∨ ∃ name ∈ names, o = literal (.text name)

/-- A target that names the same variable whatever it is read in, if it names one. -/
def Fixed (o : Operand) : Prop := o = none ∨ ∃ name, o = literal (.text name)

theorem Fixed.within {o : Operand} {names : List String} (h : o.Fixed)
    (hnames : ∀ name, o.name? = some name → name ∈ names) : o.Within names := by
  obtain h | ⟨name, rfl⟩ := h
  · exact .inl h
  · exact .inr ⟨name, hnames name rfl, rfl⟩

theorem Within.toText {o : Operand} {names : List String} (h : o.Within names) (c : Context) :
    (read (some c) o).toText = "" ∨ (read (some c) o).toText ∈ names := by
  obtain rfl | ⟨name, hname, rfl⟩ := h
  · exact .inl rfl
  · exact .inr hname

end Operand

namespace Template
variable (t : Template)

/-- The targets of the commands of a story, in all its handlers and at any depth. -/
def targets : List Operand :=
  t.handlers.entries.flatMap fun e => (Command.preorderOf e.2).flatMap Command.targets

def Fixed : Prop := ∀ o ∈ t.targets, o.Fixed

/-- The names of the targets of a story. -/
def assigned : List String := t.targets.filterMap Operand.name?

end Template

/-! ### Writes -/

/-- An effect that writes none but some variables. -/
def Effect.WritesWithin (names : List String) (e : Effect) : Prop :=
  ∀ name v, e = .wrote name v → name ∈ names

/-- A command that has none but some targets. -/
def Command.TargetsWithin (names : List String) (c : Command) : Prop :=
  ∀ o ∈ c.targets, o.Within names

section
variable {names : List String} {ω : Type} [World ω] {s : Stage ω} {c : Context}

omit [World ω] in
theorem Assignment.writes_run {a : Assignment Value}
    (h : a.target.toText = "" ∨ a.target.toText ∈ names) : ∀ e ∈ (a.run s).2, e.WritesWithin names := by
  unfold run
  split
  · exact fun e he => nomatch he
  · next hne =>
    intro e he name v heq
    cases List.mem_singleton.1 he
    cases heq
    exact h.resolve_left hne

theorem Action.writes_run {a : Action Operand} (h : ∀ o ∈ a.targets, o.Within names) :
    ∀ e ∈ ((a.map (Operand.read (some c))).run s).2, e.WritesWithin names := by
  have asked (rs : List Request) : ∀ e ∈ (s.ask rs).2, e.WritesWithin names := by
    intro e he name v heq
    obtain ⟨r, -, rfl⟩ := List.mem_map.1 he
    cases heq
  cases a with
  | assign a =>
    simp only [map, run]
    split
    · simp [Effect.WritesWithin]
    · exact Assignment.writes_run ((h a.target (.head _)).toText c)
  | post m args =>
    intro e he name v heq
    obtain ⟨r, -, rfl⟩ := List.mem_map.1 he
    cases heq
  | terminate | log => simp [map, run, Effect.WritesWithin]
  | start story =>
    simp only [map, run]
    split
    · simp [Effect.WritesWithin]
    · exact asked _
  | stop | pause | send | pauseHandlers => exact asked _
  | callHost f args result =>
    simp only [map, run]
    split
    · simp [Effect.WritesWithin]
    · next v _ =>
      cases result with
      | none => simp [Effect.WritesWithin]
      | some target =>
        have hwrites := (h target (.head _)).toText c
        refine List.forall_mem_cons.2 ⟨by simp [Effect.WritesWithin], ?_⟩
        exact Assignment.writes_run (a := ⟨Operand.read (some c) target, v⟩) hwrites

/-- What a wait assigns has one of its targets. -/
theorem Outcomes.exists_target {o : Outcomes Operand} {read : Operand → Value} {v : Verdict}
    {a : Assignment Value} (h : (o.map read).assigned v = some a) :
    ∃ target ∈ o.targets, a.target = read target := by
  obtain ⟨success, timeout⟩ := o
  cases v with
  | satisfied =>
    obtain ⟨b, rfl, rfl⟩ := Option.map_eq_some_iff.1 h
    exact ⟨b.target, .head _, rfl⟩
  | pending => cases h
  | timedOut =>
    cases timeout with
    | none => cases h
    | some t =>
      cases h
      exact ⟨t.assignment.target, by simp [targets], rfl⟩

theorem Waiting.writes_run {w : Waiting} (h : w.command.TargetsWithin names) (now delta : Int) :
    ∀ e ∈ (w.run now delta (Operand.read (some c)) s).2.2.2, e.WritesWithin names := by
  cases w with
  | time => simp [run]
  | goal wait watch =>
    simp only [run, Await.run, Outcomes.run]
    split
    · next ha =>
      obtain ⟨target, htarget, hread⟩ := Outcomes.exists_target ha
      exact Assignment.writes_run (hread ▸ (h target htarget).toText c)
    · simp

end

theorem makes_within (ω : Type) [World ω] (names : List String) :
    Makes ω (Command.TargetsWithin names) (Effect.WritesWithin names) where
  act _ h _ _ := Action.writes_run h
  wait _ h now delta _ _ := Waiting.writes_run h now delta
  spent _ _ _ heq := nomatch heq

/-! ### Variables that are not written -/

/-- A variable that no effect writes keeps its value. -/
theorem Stage.get?_replayAll {ω : Type} [World ω] {fx : List Effect} {names : List String}
    (h : ∀ e ∈ fx, e.WritesWithin names) {x : String} (hx : x ∉ names) (s : Stage ω) :
    (s.replayAll fx).scope.get? x = s.scope.get? x := by
  induction fx generalizing s with
  | nil => rfl
  | cons e fx ih =>
    obtain ⟨he, hfx⟩ := List.forall_mem_cons.1 h
    rw [replayAll_cons, ih hfx]
    cases e with
    | wrote name v =>
      have hne : x ≠ name := fun heq => hx (heq ▸ he name v rfl)
      exact (Scope.get?_set s.scope name x v).trans (if_neg hne)
    | _ => rfl

namespace Instance
variable {i : Instance} {names : List String} {x : String}

theorem get?_deliver (i : Instance) (m : Message) (now : Int) (x : String) :
    (i.deliver m now).scope.get? x = i.scope.get? x := by
  unfold deliver
  cases i.fate m <;> rfl

theorem get?_deliverAll (now : Int) (i : Instance) (ms : List Message) (x : String) :
    (deliverAll now i ms).1.scope.get? x = i.scope.get? x := by
  induction ms generalizing i with
  | nil => rfl
  | cons m ms ih => exact (ih (i.deliver m now)).trans (get?_deliver i m now x)

variable {ω : Type} [World ω]

theorem get?_account (hi : i.All (Command.TargetsWithin names)) (hx : x ∉ names) (b : Beat)
    (steps : Nat) (w : ω) : (i.account b steps w).inst.scope.get? x = i.scope.get? x := by
  by_cases hidle : (i.terminated || i.paused) = true
  · rw [account, if_pos hidle]
  · have hstage := congrArg Stage.scope (stage_account hidle b steps w)
    obtain ⟨-, hturns⟩ := all_account (makes_within ω names) hi b steps w
    have hfx : ∀ e ∈ Turn.effects (i.account b steps w).turns, e.WritesWithin names := by
      intro e he
      obtain ⟨turn, hturn, he⟩ := List.mem_flatMap.1 he
      exact hturns turn hturn e he
    have hkept := Stage.get?_replayAll hfx hx ⟨(i.deliverPosted b.now).1.scope, w⟩
    rw [← hstage] at hkept
    exact hkept.trans (get?_deliverAll b.now { i with posted := [] } i.posted x)

theorem get?_perform (hi : i.All (Command.TargetsWithin names)) (hx : x ∉ names)
    (o : Operation ω) : (i.perform o).1.scope.get? x = i.scope.get? x := by
  cases o with
  | deliver m now => exact get?_deliver i m now x
  | post | pause => rfl
  | tick b steps w => exact get?_account hi hx b steps w

theorem get?_run (hi : i.All (Command.TargetsWithin names)) (hx : x ∉ names)
    (ops : List (Operation ω)) : (i.run ops).1.scope.get? x = i.scope.get? x := by
  induction ops generalizing i with
  | nil => rfl
  | cons o ops ih =>
    exact (ih (all_perform (makes_within ω names) hi o)).trans (get?_perform hi hx o)

end Instance

theorem Template.Fixed.all {t : Template} (h : t.Fixed) :
    t.All (Command.TargetsWithin t.assigned) := by
  intro message block hblock
  refine Command.all_iff.2 fun command hcommand o ho => ?_
  have hmem : o ∈ t.targets := by
    refine List.mem_flatMap.2 ⟨_, Table.mem_of_find? hblock, ?_⟩
    exact List.mem_flatMap.2 ⟨command, hcommand, ho⟩
  exact (h o hmem).within fun name hname => List.mem_filterMap.2 ⟨o, hmem, hname⟩

/-! ### Targets in documents -/

/-- The name that a parameter spells: that of a variable, or a text. -/
def Node.name? : Node → Option String
  | .value ⟨text, .string, _⟩ => some text
  | n => Call.variableName? n

/-- Which parameter of a clause tells the variable that is to be written, if it is a clause that a
command accepts. -/
def Command.clausePlace? (command : Command) (id : String) : Option Nat :=
  match command with
  | .await _ => if id = "set" then some 0 else if id = "timeoutset" then some 1 else none
  | .act (.callHost _ _ _) => if id = "result" then some 0 else none
  | _ => none

/-- The parameter that is the target of a clause of a command. -/
def Command.clauseTarget (command : Command) (c : Call) : List Node :=
  ((command.clausePlace? c.id).bind (c.params[·]?)).toList

/-- The parameters of a command that are its targets and those of its clauses. -/
def Node.targets (voc : Vocabulary) (n : Node) : List Node :=
  match voc.verbs.find? n.id, n.clauses with
  | some v, f :: gs => (if v = .assign then f.call.params[0]?.toList else []) ++
    gs.flatMap fun g => v.blank.clauseTarget g.call
  | _, _ => []

/-- The targets of a document, in the commands that loading comes upon. -/
def Document.targets (voc : Vocabulary) (d : Document) : List Node :=
  (d.met voc).flatMap (Node.targets voc)

/-- An operand that is not bound, or comes of one of some parameters, and has then the name that is
spelled there. -/
def Operand.Spelled (ps : List Node) (o : Operand) : Prop :=
  o = none ∨ ∃ p ∈ ps, ∀ name, p.name? = some name → o = Operand.literal (.text name)

/-- What a clause makes of the targets of a command. -/
structure ClauseSpelled (command : Command) (c : Call) (r : Reported Command) : Prop where
  place : r.result.clausePlace? = command.clausePlace?
  targets : ∀ o ∈ r.result.targets, o ∈ command.targets ∨ o.Spelled (command.clauseTarget c)

section
variable {voc : Vocabulary} {fs : Functions} {c : Call} {command : Command} {o : Operand}

theorem Operand.Spelled.mono {ps qs : List Node} (h : o.Spelled ps) (hsub : ps ⊆ qs) :
    o.Spelled qs :=
  h.imp_right fun ⟨p, hp, hname⟩ => ⟨p, hsub hp, hname⟩

theorem spelled_target (fs : Functions) (c : Call) (i : Nat) :
    (c.target fs i).result.Spelled c.params[i]?.toList := by
  unfold Call.target
  cases hp : c.params[i]? with
  | none =>
    rw [Option.bind_none, Call.operand, hp]
    exact .inl rfl
  | some p =>
    refine .inr ⟨p, .head _, fun name hname => ?_⟩
    rw [Option.bind_some]
    cases hv : Call.variableName? p with
    | some name' =>
      unfold Node.name? at hname
      split at hname
      · cases hv
      · cases hv.symm.trans hname
        rfl
    | none =>
      unfold Node.name? at hname
      split at hname
      · cases hname
        rw [Call.operand, hp]
        rfl
      · cases hv.symm.trans hname

theorem targets_blank (v : Verb) : ∀ o ∈ v.blank.targets, o = none := by
  cases v <;> simp [Verb.blank, Command.targets, Action.targets, Outcomes.targets]

theorem spelled_loadCall {v : Verb} {body : List Command}
    (h : o ∈ (v.loadCall fs c body).result.targets) :
    o.Spelled (if v = .assign then c.params[0]?.toList else []) := by
  have blank {r : Reported Command} {k : Nat} (h : o ∈ (c.requiring k v.blank r).result.targets)
      (hr : o ∈ r.result.targets → o.Spelled (if v = .assign then c.params[0]?.toList else [])) :
      o.Spelled (if v = .assign then c.params[0]?.toList else []) := by
    unfold Call.requiring at h
    split at h
    · exact hr h
    · exact .inl (targets_blank v o h)
  cases v with
  | assign =>
    refine blank h fun h => ?_
    cases List.mem_singleton.1 h
    exact spelled_target fs c 0
  | loop | foreach | terminate | log | pauseStory | pauseHandlers => cases h
  | _ => exact blank h fun h => nomatch h

theorem clausePlace?_loadCall {v : Verb} {body : List Command} :
    (v.loadCall fs c body).result.clausePlace? = v.blank.clausePlace? := by
  cases v with
  | loop | foreach | terminate | log | pauseStory | pauseHandlers => rfl
  | _ => simp only [Verb.loadCall, Call.requiring]; split <;> rfl

theorem ClauseSpelled.requiring {k : Nat} {load : Reported Command}
    (h : ClauseSpelled command c load) : ClauseSpelled command c (c.requiring k command load) := by
  unfold Call.requiring
  split
  · exact h
  · exact ⟨rfl, fun _ => .inl⟩

theorem spelled_clauseTarget {i : Nat} (hi : command.clausePlace? c.id = some i) :
    (c.target fs i).result.Spelled (command.clauseTarget c) := by
  rw [Command.clauseTarget, hi]
  exact spelled_target fs c i

/-- A clause of a wait gives it a target in place of one of the two that it may have. -/
theorem clauseSpelled_await {a : Await Operand} {r : Reported (Outcomes Operand)}
    (h : a.outcomes.loadClause? fs c = some r) :
    ClauseSpelled (.await a) c (do return .await ⟨a.goal, ← r⟩) := by
  unfold Outcomes.loadClause? at h
  split at h
  · next hid =>
    cases h
    rw [Call.map_requiring fun o => Command.await ⟨a.goal, o⟩]
    refine .requiring ⟨rfl, fun o ho => ?_⟩
    rcases List.mem_append.1 ho with ho | ho
    · cases List.mem_singleton.1 ho
      exact .inr (spelled_clauseTarget (by simp [Command.clausePlace?, hid]))
    · exact .inl (List.mem_append_right _ ho)
  · next hid =>
    cases h
    rw [Call.map_requiring fun o => Command.await ⟨a.goal, o⟩]
    refine .requiring ⟨rfl, fun o ho => ?_⟩
    rcases List.mem_append.1 ho with ho | ho
    · exact .inl (List.mem_append_left _ ho)
    · cases List.mem_singleton.1 ho
      exact .inr (spelled_clauseTarget (by simp [Command.clausePlace?, hid]))
  · cases h

/-- A clause that a command accepts gives it no target but its own. -/
theorem clauseSpelled {r : Reported Command} (h : command.loadClause? fs c = some r) :
    ClauseSpelled command c r := by
  unfold Command.loadClause? at h
  split at h
  · obtain ⟨outcomes, ho, rfl⟩ := Option.map_eq_some_iff.1 h
    exact clauseSpelled_await ho
  · split at h
    · next hid =>
      cases h
      refine .requiring ⟨rfl, fun o ho => ?_⟩
      cases List.mem_singleton.1 ho
      exact .inr (spelled_clauseTarget (by simp [Command.clausePlace?, hid]))
    · cases h
  · cases h

/-- Nor do all the clauses together. -/
theorem spelled_loadClauses {gs : List Clause}
    (h : o ∈ (command.loadClauses fs gs).result.targets) : o ∈ command.targets ∨
      o.Spelled (gs.flatMap fun g => command.clauseTarget g.call) := by
  induction gs generalizing command with
  | nil => exact .inl h
  | cons g gs ih =>
    rw [Command.loadClauses] at h
    split at h
    · next loaded hl =>
      obtain ⟨hplace, htargets⟩ := clauseSpelled hl
      obtain h | h := ih h
      · exact (htargets o h).imp_right fun h => h.mono (List.subset_append_left _ _)
      · refine .inr (h.mono ?_)
        simp only [Command.clauseTarget, hplace]
        exact List.subset_append_right _ _
    · exact (ih h).imp_right fun h => h.mono (List.subset_append_right _ _)

theorem spelled_ofNode {n : Node} {v : Verb} (hv : voc.verbs.find? n.id = some v)
    (h : (Command.ofNode voc n).result = some command) (ho : o ∈ command.targets) :
    o.Spelled (n.targets voc) := by
  cases hn : n.clauses with
  | nil =>
    have none : o = none := by
      cases n with
      | value l =>
        have hv : voc.verbs.find? l.text = some v := hv
        rw [Command.ofNode, ofName_known hv] at h
        cases h
        rw [Verb.result_load] at ho
        obtain ho | ⟨p, hp, -⟩ := spelled_loadCall ho
        · exact ho
        · split at hp <;> cases hp
      | call | function => cases hn
      | statement fs s =>
        cases hn
        have hv : voc.verbs.find? "" = some v := hv
        rw [Command.ofNode, ofName_known hv] at h
        cases h
        exact targets_blank v o ho
    exact .inl none
  | cons f gs =>
    rw [ofNode_eq voc hn, ofName_known (Node.id_eq hn ▸ hv)] at h
    cases h
    rw [Node.targets, hv, hn]
    obtain ho | ho := spelled_loadClauses ho
    · rw [Verb.result_load] at ho
      exact (spelled_loadCall ho).mono (List.subset_append_left _ _)
    · rw [Verb.result_load] at ho
      simp only [Command.clauseTarget, clausePlace?_loadCall] at ho
      exact ho.mono (List.subset_append_right _ _)

/-- The targets of the commands of a block, at any depth. -/
theorem spelled_ofBlock {ns : List Node} (h : ∀ n ∈ ns,
      ∀ command ∈ Command.preorderOf (Command.ofNode voc n).result.toList, ∀ o ∈ command.targets,
        o.Spelled ((n.met voc).flatMap (Node.targets voc)))
    (hc : command ∈ Command.preorderOf (Command.ofBlock voc ns).result) (ho : o ∈ command.targets) :
    o.Spelled ((Node.metOf voc ns).flatMap (Node.targets voc)) := by
  induction ns with
  | nil => cases hc
  | cons n r ih =>
    obtain ⟨hn, hr⟩ := List.forall_mem_cons.1 h
    rw [Node.metOf, List.flatMap_append]
    rw [result_ofBlock, List.flatMap_cons, ← result_ofBlock, Command.preorderOf_append] at hc
    rcases List.mem_append.1 hc with hc | hc
    · exact (hn command hc o ho).mono (List.subset_append_left _ _)
    · exact (ih hr hc).mono (List.subset_append_right _ _)

theorem spelled_preorder {n : Node} :
    ∀ command ∈ Command.preorderOf (Command.ofNode voc n).result.toList, ∀ o ∈ command.targets,
      o.Spelled ((n.met voc).flatMap (Node.targets voc)) := by
  induction n using Node.byBodies with
  | step n ih =>
    intro command hc o ho
    cases hv : voc.verbs.find? n.id with
    | none =>
      rw [ofNode_unknown hv] at hc
      cases hc
    | some v =>
      obtain ⟨head, hresult, -, hbody⟩ := (nodeLoaded hv).command
      rw [Node.met_eq, List.flatMap_cons, Vocabulary.opens, hv, Option.any_some]
      rw [hresult, Option.toList_some, Command.preorderOf, Command.preorderOf, List.append_nil,
        Command.preorder_eq, hbody] at hc
      rcases List.mem_cons.1 hc with rfl | hc
      · exact (spelled_ofNode hv hresult ho).mono (List.subset_append_left _ _)
      · split at hc
        · rw [if_pos ‹_›]
          refine (spelled_ofBlock (fun m hm => ?_) hc ho).mono (List.subset_append_right _ _)
          obtain ⟨g, hg, hm⟩ := Node.mem_inner hm
          exact ih g hg m hm
        · cases hc

theorem mem_marked {hs : List HandlerDecl} {seen : List String} {m : String} {k : HandlerDecl}
    (h : hs.find? (·.messageId = m) = some k) (hm : m ∉ seen) :
    (k, false) ∈ HandlerDecl.marked seen hs := by
  induction hs generalizing seen with
  | nil => cases h
  | cons j r ih =>
    rw [HandlerDecl.marked]
    by_cases hj : j.messageId = m
    · rw [List.find?_cons_of_pos (by simpa using hj)] at h
      have hseen : seen.contains j.messageId = false := by simpa [hj] using hm
      rw [hseen, Option.some.inj h]
      exact .head _
    · rw [List.find?_cons_of_neg (by simpa using hj)] at h
      exact .tail _ (ih h (by simpa using ⟨Ne.symm hj, hm⟩))

theorem Document.mem_firsts {d : Document} {m : String} {k : HandlerDecl}
    (h : d.handlers.find? (·.messageId = m) = some k) : k ∈ d.firsts := by
  have hk := mem_marked h (List.not_mem_nil (a := m))
  exact List.mem_map.2 ⟨(k, false), List.mem_filter.2 ⟨hk, rfl⟩, rfl⟩

/-- The targets of a story that is loaded are those that are spelled in its document. -/
theorem Document.spelled_load {d : Document} (h : o ∈ (d.load voc).result.targets) :
    o.Spelled (d.targets voc) := by
  obtain ⟨⟨m, block⟩, hmem, h⟩ := List.mem_flatMap.1 h
  obtain ⟨command, hc, ho⟩ := List.mem_flatMap.1 h
  have hblock : (d.load voc).result.handler? m = some block := Table.find?_of_mem hmem
  rw [handler?_load] at hblock
  obtain ⟨k, hk, rfl⟩ := Option.map_eq_some_iff.1 hblock
  refine (spelled_ofBlock (fun _ _ => spelled_preorder) hc ho).mono ?_
  rw [targets, met, List.flatMap_assoc]
  exact fun p hp => List.mem_flatMap.2 ⟨k, mem_firsts hk, hp⟩

end

/-! ### Stories -/

/-- A story that writes none but some variables. Whatever is done with it and whatever the world is
like in its ticks, any other variable has the value that it had, and is not written in the next tick
either. -/
def Template.WritesOnly (t : Template) (names : List String) : Prop :=
  ∀ (ω : Type) [World ω] (n : Nat) (scope : Scope) (ops : List (Instance.Operation ω)) (x : String),
    x ∉ names →
      let i := (({ id := n, template := t, scope } : Instance).run ops).1
      i.scope.get? x = scope.get? x ∧ ∀ b steps (w : ω), ∀ turn ∈ (i.account b steps w).turns,
        ∀ v, .wrote x v ∉ effectsOf turn.events

theorem Template.Fixed.writesOnly {t : Template} (h : t.Fixed) : t.WritesOnly t.assigned := by
  intro ω _ n scope ops x hx
  have hi : ({ id := n, template := t, scope } : Instance).All (Command.TargetsWithin t.assigned) :=
    ⟨h.all, fun _ hr => nomatch hr⟩
  have hran := Instance.all_run (makes_within ω t.assigned) hi ops
  refine ⟨Instance.get?_run hi hx ops, fun b steps w turn hturn v hv => hx ?_⟩
  exact (Instance.all_account (makes_within ω t.assigned) hran b steps w).2 turn hturn _ hv x v rfl

/-- A story whose targets have names of their own writes only these. They have such names if every
target in the document is spelled as the name of a variable or as a text, and these are the names. -/
theorem Document.load_writesOnly (voc : Vocabulary) (d : Document) :
    ((d.load voc).result.Fixed →
      (d.load voc).result.WritesOnly (d.load voc).result.assigned) ∧
    ((∀ p ∈ d.targets voc, p.name?.isSome = true) → (d.load voc).result.Fixed ∧
      (d.load voc).result.assigned ⊆ (d.targets voc).filterMap Node.name?) := by
  refine ⟨Template.Fixed.writesOnly, fun h => ⟨fun o ho => ?_, fun x hx => ?_⟩⟩
  · obtain ho | ⟨p, hp, hname⟩ := spelled_load ho
    · exact .inl ho
    · obtain ⟨name, hp⟩ := Option.isSome_iff_exists.1 (h p hp)
      exact .inr ⟨name, hname name hp⟩
  · obtain ⟨o, ho, hx⟩ := List.mem_filterMap.1 hx
    obtain rfl | ⟨p, hp, hname⟩ := spelled_load ho
    · cases hx
    · obtain ⟨name, hspelled⟩ := Option.isSome_iff_exists.1 (h p hp)
      rw [hname name hspelled] at hx
      cases hx
      exact List.mem_filterMap.2 ⟨p, hp, hspelled⟩

/-- A story that assigns a variable in a loop, and another one when it has waited. -/
def Document.counting : Document :=
  let value (text : String) (token : StoryScript.Token) : Node := .value ⟨text, token, default⟩
  let call (id : String) (params : List Node) : Call := ⟨id, params, default⟩
  let assign : Node := .call (call "assign" [value "@x" .identifier, value "$$" .identifier])
  let set : Clause := .ofCall (call "set" [value "y" .string, value "1" .number])
  ⟨"a", false, [⟨"m", [.function ⟨call "loop" [value "3" .number], [assign], true⟩,
    .statement [.ofCall (call "waitstory" [value "b" .string]), set] default], default⟩], default⟩

theorem Document.load_writesOnly_counting :
    (counting.load .builtin).result.assigned ⊆ ["@x", "y"] ∧
      (counting.load .builtin).result.WritesOnly (counting.load .builtin).result.assigned := by
  obtain ⟨frame, spelled⟩ := load_writesOnly .builtin counting
  have targets : (counting.targets .builtin).filterMap Node.name? = ["@x", "y"] := by
    decide +kernel
  obtain ⟨fixed, hsub⟩ := spelled (by decide +kernel)
  exact ⟨targets ▸ hsub, frame fixed⟩

end StoryScript
