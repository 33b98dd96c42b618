import StoryScript.Proofs.Locations

/-! Which handlers and commands of a document are kept. A message keeps the handler that comes first,
and a block keeps the commands of known names, each in its place; the same is so in the body of a
repetition. What comes of a handler, its faults included, does not depend on the others. -/
namespace StoryScript

/-- Whether the name of a command is known. -/
def Vocabulary.knows (voc : Vocabulary) (n : Node) : Bool := voc.verbs.contains n.id

/-- Whether the name of a command stands for a verb that takes a body. -/
def Vocabulary.opens (voc : Vocabulary) (n : Node) : Bool :=
  (voc.verbs.find? n.id).any Verb.takesBody

namespace Node

mutual
/-- The commands that loading comes upon: a command, and those in its body if it takes one. -/
def met (voc : Vocabulary) : Node → List Node
  | .function ⟨c, body, b⟩ =>
    .function ⟨c, body, b⟩ :: if voc.opens (.function ⟨c, body, b⟩) then metOf voc body else []
  | .statement (⟨c, body, b⟩ :: gs) s =>
    .statement (⟨c, body, b⟩ :: gs) s ::
      if voc.opens (.statement (⟨c, body, b⟩ :: gs) s) then metOf voc body else []
  | n => [n]

def metOf (voc : Vocabulary) : List Node → List Node
  | [] => []
  | n :: r => met voc n ++ metOf voc r
end

theorem met_eq (voc : Vocabulary) (n : Node) :
    n.met voc = n :: if voc.opens n then metOf voc n.inner else [] := by
  cases n with
  | value | call => exact congrArg (_ :: ·) (ite_self _).symm
  | function g =>
    obtain ⟨c, body, b⟩ := g
    rfl
  | statement fs s =>
    match fs with
    | [] => exact congrArg (_ :: ·) (ite_self _).symm
    | ⟨c, body, b⟩ :: gs => rfl

/-- The fault of a command whose name is not known. -/
def unknown (n : Node) : Fault := .located n.span (.commandUnknown n.id)

/-- A command has been loaded from a node. It is what the node comes to by itself, of the verb of its
name, and if the verb takes a body, it has in it the commands of known names in the body, loaded in
the same way. -/
inductive LoadedTo (voc : Vocabulary) : Node → Command → Prop
  | intro {n : Node} {v : Verb} {command : Command} :
    (Command.ofNode voc n).result = some command →
    voc.verbs.find? n.id = some v → command.name = v.name →
    List.Forall₂ (LoadedTo voc) (if v.takesBody then n.inner.filter voc.knows else [])
      command.body → LoadedTo voc n command

end Node

section
variable {voc : Vocabulary} {n : Node} {ns : List Node} {f : Fault}

theorem knows_of_some {v : Verb} (h : voc.verbs.find? n.id = some v) : voc.knows n = true := by
  rw [Vocabulary.knows, Table.contains, h]
  rfl

theorem knows_of_none (h : voc.verbs.find? n.id = none) : voc.knows n = false := by
  rw [Vocabulary.knows, Table.contains, h]
  rfl

/-- The commands of known names in a block, if each of them is loaded to what it comes to. -/
theorem loadedTo_ofBlock (h : ∀ n ∈ ns, ∀ command, (Command.ofNode voc n).result = some command →
    n.LoadedTo voc command) :
    List.Forall₂ (Node.LoadedTo voc) (ns.filter voc.knows) (Command.ofBlock voc ns).result := by
  induction ns with
  | nil => exact .nil
  | cons n r ih =>
    obtain ⟨hn, hr⟩ := List.forall_mem_cons.1 h
    rw [result_ofBlock, List.flatMap_cons, ← result_ofBlock]
    cases hv : voc.verbs.find? n.id with
    | none =>
      rw [List.filter_cons_of_neg (by simp [knows_of_none hv]), ofNode_unknown hv]
      exact ih hr
    | some v =>
      obtain ⟨command, hresult, -⟩ := (nodeLoaded hv).command
      rw [List.filter_cons_of_pos (knows_of_some hv), hresult]
      exact .cons (hn command hresult) (ih hr)

theorem loadedTo_ofNode {command : Command} (h : (Command.ofNode voc n).result = some command) :
    n.LoadedTo voc command := by
  induction n using Node.byBodies generalizing command with
  | step n ih =>
    cases hv : voc.verbs.find? n.id with
    | none =>
      rw [ofNode_unknown hv] at h
      cases h
    | some v =>
      obtain ⟨command', hresult, hname, hbody⟩ := (nodeLoaded hv).command
      cases hresult.symm.trans h
      refine .intro h hv hname ?_
      rw [hbody]
      split
      · refine loadedTo_ofBlock fun m hm command hc => ?_
        obtain ⟨g, hg, hm⟩ := Node.mem_inner hm
        exact ih g hg m hm hc
      · exact .nil

/-! ### Faults -/

/-- Whether a fault is that of a name that is not known. -/
def Fault.isUnknown (f : Fault) : Bool := f.code = "STORY_COMMAND_UNKNOWN"

/-- Whether a fault is that of a message which has a handler already. -/
def Fault.isRepeated (f : Fault) : Bool := f.code = "STORY_HANDLER_DUPLICATE"

theorem Call.Faulty.sort {c : Call} (h : c.Faulty voc.functions f) :
    f.isUnknown = false ∧ f.isRepeated = false := by
  have sort {cause : Cause} (h : cause.OfCall ∨ cause.OfBinding) :
      cause.code ≠ "STORY_COMMAND_UNKNOWN" ∧ cause.code ≠ "STORY_HANDLER_DUPLICATE" := by
    cases cause <;> first | exact h.elim False.elim False.elim | simp [Cause.code]
  have hcause : f.cause.OfCall ∨ f.cause.OfBinding := by
    cases h with
    | call h => exact .inl h
    | param _ h => exact .inr (unbound_ofNode h).1
  obtain ⟨hunknown, hrepeated⟩ := sort hcause
  exact ⟨decide_eq_false hunknown, decide_eq_false hrepeated⟩

theorem Node.Faulty.isRepeated (h : n.Faulty voc f) : f.isRepeated = false := by
  induction h with
  | unknown => rfl
  | call _ h => exact h.sort.2
  | body _ _ _ ih => exact ih

/-- The names that are not known are those that loading comes upon, each reported once. -/
theorem unknown_ofBlock (h : ∀ n ∈ ns, (Command.ofNode voc n).faults.filter Fault.isUnknown =
      ((n.met voc).filter (!voc.knows ·)).map Node.unknown) :
    (Command.ofBlock voc ns).faults.filter Fault.isUnknown =
      ((Node.metOf voc ns).filter (!voc.knows ·)).map Node.unknown := by
  induction ns with
  | nil => rfl
  | cons n r ih =>
    obtain ⟨hn, hr⟩ := List.forall_mem_cons.1 h
    rw [faults_ofBlock, List.flatMap_cons, ← faults_ofBlock, Node.metOf, List.filter_append,
      List.filter_append, List.map_append, hn, ih hr]

theorem unknown_ofNode (n : Node) : (Command.ofNode voc n).faults.filter Fault.isUnknown =
    ((n.met voc).filter (!voc.knows ·)).map Node.unknown := by
  induction n using Node.byBodies with
  | step n ih =>
    rw [Node.met_eq, Vocabulary.opens]
    cases hv : voc.verbs.find? n.id with
    | none =>
      have here : (Command.ofNode voc n).faults.filter Fault.isUnknown = [n.unknown] := by
        rw [ofNode_unknown hv]
        rfl
      rw [here, List.filter_cons_of_pos (by simp [knows_of_none hv])]
      rfl
    | some v =>
      obtain ⟨before, after, hown, hf⟩ := (nodeLoaded hv).faults
      have own {fs : List Fault} (h : ∀ f ∈ fs, f ∈ before ++ after) :
          fs.filter Fault.isUnknown = [] := by
        refine List.filter_eq_nil_iff.2 fun f hf => ?_
        obtain ⟨c, -, hfaulty⟩ := hown f (h f hf)
        simp [hfaulty.sort.1]
      rw [hf, List.filter_append, List.filter_append, own fun f => List.mem_append_left after,
        own fun f => List.mem_append_right before, List.append_nil, List.nil_append,
        List.filter_cons_of_neg (by simp [knows_of_some hv]), Option.any_some]
      split
      · refine unknown_ofBlock fun m hm => ?_
        obtain ⟨g, hg, hm⟩ := Node.mem_inner hm
        exact ih g hg m hm
      · rfl

theorem repeated_ofBlock (ns : List Node) :
    (Command.ofBlock voc ns).faults.filter Fault.isRepeated = [] := by
  refine List.filter_eq_nil_iff.2 fun f hf => ?_
  obtain ⟨n, -, h⟩ := faulty_ofBlock hf
  simp [h.isRepeated]

end

/-! ### Documents -/

/-- Some handlers, each with whether its message has a handler before it. -/
def HandlerDecl.marked (seen : List String) : List HandlerDecl → List (HandlerDecl × Bool)
  | [] => []
  | k :: r => (k, seen.contains k.messageId) :: marked (k.messageId :: seen) r

/-- The fault of a handler whose message has a handler already. -/
def HandlerDecl.repeated (story : String) (k : HandlerDecl) : Fault :=
  .located k.span (.handlerRepeated story k.messageId)

/-- The faults of a handler that is marked. -/
def HandlerDecl.faults (voc : Vocabulary) (story : String) (x : HandlerDecl × Bool) : List Fault :=
  if x.2 then [x.1.repeated story] else (Command.ofBlock voc x.1.body).faults

namespace Document

/-- The handlers of a document that are the first of their messages. -/
def firsts (d : Document) : List HandlerDecl :=
  ((HandlerDecl.marked [] d.handlers).filter (!·.2)).map (·.1)

/-- The handlers of a document that are not the first of their messages. -/
def laters (d : Document) : List HandlerDecl :=
  ((HandlerDecl.marked [] d.handlers).filter (·.2)).map (·.1)

/-- The commands that loading a document comes upon. -/
def met (voc : Vocabulary) (d : Document) : List Node :=
  d.firsts.flatMap fun k => Node.metOf voc k.body

/-- What is kept of a document. -/
structure Kept (voc : Vocabulary) (d : Document) (r : Reported Template) : Prop where
  /-- The messages that have a handler are those of the document. -/
  messages : r.result.handlerIds.Nodup ∧
    ∀ m, m ∈ r.result.handlerIds ↔ ∃ k ∈ d.handlers, k.messageId = m
  /-- Each has what comes of the first handler that the document has for it, by itself. -/
  handlers : ∀ m, r.result.handler? m =
    (d.handlers.find? (·.messageId = m)).map fun k => (Command.ofBlock voc k.body).result
  /-- These are the commands of known names, and so in the body of every repetition. -/
  commands : ∀ k ∈ d.handlers, List.Forall₂ (Node.LoadedTo voc) (k.body.filter voc.knows)
    (Command.ofBlock voc k.body).result
  /-- The faults are those of the handlers, each by itself, one after another. -/
  faults : r.faults = (HandlerDecl.marked [] d.handlers).flatMap (HandlerDecl.faults voc d.storyId)
  /-- One fault is reported for each name come upon that is not known. -/
  unknown : r.faults.filter Fault.isUnknown =
    ((d.met voc).filter (!voc.knows ·)).map Node.unknown
  /-- One fault is reported for each handler that is not the first of its message. -/
  repeated : r.faults.filter Fault.isRepeated = d.laters.map (HandlerDecl.repeated d.storyId)

end Document

section
variable {voc : Vocabulary} {story : String} {hs : List HandlerDecl} {t : Table (List Command)}

theorem find?_loadHandlers_eq (m : String) :
    (Document.loadHandlers voc story hs t).result.find? m = (t.find? m).or
      ((hs.find? (·.messageId = m)).map fun k => (Command.ofBlock voc k.body).result) := by
  induction hs generalizing t with
  | nil => simp [Document.loadHandlers]
  | cons k r ih =>
    rw [Document.loadHandlers]
    by_cases hm : k.messageId = m
    · subst hm
      split
      · next hseen =>
        obtain ⟨commands, h⟩ := Option.isSome_iff_exists.1 hseen
        rw [Reported.result_bind, ih, h, Option.some_or, Option.some_or]
      · next hnew =>
        have h : t.find? k.messageId = none := by simpa [Table.contains] using hnew
        rw [Reported.result_bind, ih, Table.find?_insert_self, h]
        simp
    · rw [List.find?_cons_of_neg (by simpa using hm)]
      split
      · exact ih
      · rw [Reported.result_bind, ih, Table.find?_insert, if_neg (Ne.symm hm)]

theorem faults_loadHandlers {seen : List String} (h : ∀ m, t.contains m = seen.contains m) :
    (Document.loadHandlers voc story hs t).faults =
      (HandlerDecl.marked seen hs).flatMap (HandlerDecl.faults voc story) := by
  induction hs generalizing t seen with
  | nil => rfl
  | cons k r ih =>
    rw [Document.loadHandlers, HandlerDecl.marked, List.flatMap_cons, HandlerDecl.faults, h]
    split
    · next hseen =>
      refine congrArg (_ :: ·) (ih fun m => ?_)
      rw [h, List.contains_cons]
      by_cases hm : m = k.messageId
      · rw [hm, hseen, beq_self_eq_true, Bool.true_or]
      · simp [hm]
    · refine congrArg (_ ++ ·) (ih fun m => ?_)
      rw [List.contains_cons, ← h, Table.contains, Table.find?_insert]
      by_cases hm : m = k.messageId
      · simp [hm]
      · simp [hm, Table.contains]

theorem unknown_marked (xs : List (HandlerDecl × Bool)) :
    (xs.flatMap (HandlerDecl.faults voc story)).filter Fault.isUnknown =
      ((((xs.filter (!·.2)).map (·.1)).flatMap fun k => Node.metOf voc k.body).filter
        (!voc.knows ·)).map Node.unknown := by
  induction xs with
  | nil => rfl
  | cons x xs ih =>
    obtain ⟨k, later⟩ := x
    rw [List.flatMap_cons, List.filter_append, ih]
    cases later with
    | true => rfl
    | false =>
      have hk : (Command.ofBlock voc k.body).faults.filter Fault.isUnknown =
          ((Node.metOf voc k.body).filter (!voc.knows ·)).map Node.unknown :=
        unknown_ofBlock fun n _ => unknown_ofNode n
      simp [HandlerDecl.faults, hk]

theorem repeated_marked (xs : List (HandlerDecl × Bool)) :
    (xs.flatMap (HandlerDecl.faults voc story)).filter Fault.isRepeated =
      ((xs.filter (·.2)).map (·.1)).map (HandlerDecl.repeated story) := by
  induction xs with
  | nil => rfl
  | cons x xs ih =>
    obtain ⟨k, later⟩ := x
    rw [List.flatMap_cons, List.filter_append, ih]
    cases later with
    | true => rfl
    | false => simp [HandlerDecl.faults, repeated_ofBlock]

end

theorem Document.handler?_load (voc : Vocabulary) (d : Document) (m : String) :
    (d.load voc).result.handler? m =
      (d.handlers.find? (·.messageId = m)).map fun k => (Command.ofBlock voc k.body).result :=
  find?_loadHandlers_eq m

/-- Loading keeps the first handler of each message and the commands of known names, each in its
place, and reports once whatever it passes over. -/
theorem Document.load_kept (voc : Vocabulary) (d : Document) : d.Kept voc (d.load voc) := by
  have faults : (d.load voc).faults =
      (HandlerDecl.marked [] d.handlers).flatMap (HandlerDecl.faults voc d.storyId) := by
    rw [load, Reported.faults_bind, Reported.faults_pure, List.append_nil]
    exact faults_loadHandlers fun m => rfl
  refine ⟨⟨Table.nodup_keys _, fun m => ?_⟩, handler?_load voc d, fun k _ => ?_, faults, ?_, ?_⟩
  · have hcontains := (d.load voc).result.handlers.mem_keys m
    have hfind : (d.load voc).result.handlers.find? m = _ := handler?_load voc d m
    rw [Table.contains, hfind] at hcontains
    simpa [Template.handlerIds] using hcontains
  · exact loadedTo_ofBlock fun n _ command => loadedTo_ofNode
  · rw [faults]
    exact unknown_marked _
  · rw [faults]
    exact repeated_marked _

end StoryScript
