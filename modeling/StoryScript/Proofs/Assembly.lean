import Mathlib.Data.List.Find
import StoryScript.Proofs.Locations

/-! How a library is put together from files. It is built if every file can be read and no two files
have a story of the same id, and then has the stories of all files and no others, whatever the files
are called. Otherwise the first file that cannot be added is at fault, in the order of the paths. -/
namespace StoryScript
open Markup

/-! ### Faults of reading -/

/-- A result whose fault, if it is one, is not said of a file. -/
def Unfiled {α : Type} (x : Except Fault α) : Prop := ∀ f, x = .error f → f.file = none

section
variable {α β : Type} {x : Except Fault α}

theorem Unfiled.ok (a : α) : Unfiled (.ok a) := by
  rintro f ⟨⟩

theorem Unfiled.located (s : Span) (c : Cause) : Unfiled (.error (.located s c) : Except Fault α) := by
  rintro f ⟨⟩
  rfl

theorem Unfiled.bind {k : α → Except Fault β} (h : Unfiled x) (hk : ∀ a, Unfiled (k a)) :
    Unfiled (x >>= k) := by
  cases x with
  | error g =>
    rintro f ⟨⟩
    exact h g rfl
  | ok a => exact hk a

theorem Unfiled.mapM {ε : Type} {k : ε → Except Fault α} (hk : ∀ e, Unfiled (k e)) (es : List ε) :
    Unfiled (es.mapM k) := by
  induction es with
  | nil => exact .ok _
  | cons e r ih =>
    rw [List.mapM_cons]
    exact (hk e).bind fun _ => ih.bind fun _ => .ok _

end

theorem unfiled_requiredId (e : Element) : Unfiled (requiredId e) := by
  unfold requiredId
  split
  · split
    · exact .located _ _
    · exact .ok _
  · exact .located _ _

theorem unfiled_readLiteral (e : Element) (t : Token) : Unfiled (readLiteral e t) := by
  simp only [readLiteral]
  split
  · exact .ok _
  · exact .located _ _

mutual
theorem unfiled_readParam : ∀ e, Unfiled (readParam e)
  | ⟨name, attributes, children, text, span⟩ => by
    rw [readParam]
    split
    · exact (unfiled_readLiteral _ _).bind fun _ => .ok _
    · split
      · exact (unfiled_readParams children).bind fun _ => .ok _
      · exact .located _ _

theorem unfiled_readParams : ∀ es, Unfiled (readParams es)
  | [] => .ok _
  | e :: r => (unfiled_readParam e).bind fun _ => (unfiled_readParams r).bind fun _ => .ok _
end

theorem unfiled_readCall (e : Element) : Unfiled (readCall e) :=
  (unfiled_readParams e.children).bind fun _ => .ok _

mutual
theorem unfiled_readCommand : ∀ e, Unfiled (readCommand e)
  | ⟨name, attributes, children, text, span⟩ => by
    rw [readCommand]
    split
    · exact (unfiled_readCall _).bind fun _ => .ok _
    · split
      · exact (unfiled_readFunction span none none children).bind fun _ => .ok _
      · split
        · refine (unfiled_readClauses children).bind fun clauses => ?_
          split
          · exact .located _ _
          · exact .ok _
        · exact .located _ _

theorem unfiled_readBlock : ∀ es, Unfiled (readBlock es)
  | [] => .ok _
  | e :: r => (unfiled_readCommand e).bind fun _ => (unfiled_readBlock r).bind fun _ => .ok _

theorem unfiled_readFunction (span : Span) (call : Option Call) (body : Option (List Node)) :
    ∀ es, Unfiled (readFunction span call body es)
  | [] => by
    cases call with
    | none => exact .located _ _
    | some c => exact .ok _
  | ⟨name, _, children, _, _⟩ :: r => by
    rw [readFunction]
    split
    · exact (unfiled_readCall _).bind fun _ => unfiled_readFunction span _ body r
    · split
      · exact (unfiled_readBlock children).bind fun _ => unfiled_readFunction span call _ r
      · exact .located _ _

theorem unfiled_readClauses : ∀ es, Unfiled (readClauses es)
  | [] => .ok _
  | ⟨name, _, children, _, span⟩ :: r => by
    rw [readClauses]
    split
    · exact (unfiled_readCall _).bind fun _ => (unfiled_readClauses r).bind fun _ => .ok _
    · split
      · exact (unfiled_readFunction span none none children).bind fun _ =>
          (unfiled_readClauses r).bind fun _ => .ok _
      · exact .located _ _
end

theorem unfiled_readHandler (e : Element) : Unfiled (readHandler e) := by
  unfold readHandler
  split
  · exact (unfiled_requiredId e).bind fun _ => (unfiled_readBlock e.children).bind fun _ => .ok _
  · exact .located _ _

theorem unfiled_readPersistence (e : Element) : Unfiled (readPersistence e) := by
  unfold readPersistence
  split
  · exact .ok _
  · exact .ok _
  · exact .ok _
  · exact .located _ _

theorem unfiled_readStory (e : Element) : Unfiled (readStory e) :=
  (unfiled_requiredId e).bind fun _ => (unfiled_readPersistence e).bind fun _ =>
    (Unfiled.mapM unfiled_readHandler e.children).bind fun _ => .ok _

theorem file_of_repeatedStory? {seen : List String} {ds : List Document} {f : Fault}
    (h : repeatedStory? seen ds = some f) : f.file = none := by
  induction ds generalizing seen with
  | nil => cases h
  | cons d r ih =>
    rw [repeatedStory?] at h
    split at h
    · cases h
      rfl
    · exact ih h

theorem unfiled_readRoot (source : String) : Unfiled (readRoot source) := by
  unfold readRoot
  split
  · exact .ok _
  · exact .located _ _

/-- A source that cannot be read is at fault whatever file it is in. -/
theorem unfiled_parseAll (source : String) : Unfiled (Document.parseAll source) := by
  refine (unfiled_readRoot source).bind fun root => ?_
  rw [Grammar.ofRoot_eq]
  refine Unfiled.bind ?_ fun ds => ?_
  · unfold Grammar.readStories
    split
    · exact (unfiled_readStory root).bind fun _ => .ok _
    · split
      · refine Unfiled.mapM (fun e => ?_) root.children
        split
        · exact unfiled_readStory e
        · exact .located _ _
      · exact .located _ _
  · split
    · next f h =>
      rintro g ⟨⟩
      exact file_of_repeatedStory? h
    · exact .ok _

theorem Fault.message_inFile {f : Fault} (h : f.file = none) (path : String) :
    (f.inFile path).message = path ++ ": " ++ f.message := by
  rw [message, message, h]
  rfl

/-- No two stories that are read from one source have the same id. -/
theorem Document.nodup_of_parseAll {source : String} {ds : List Document}
    (h : parseAll source = .ok ds) : (ds.map (·.storyId)).Nodup := by
  obtain ⟨root, hroot, h⟩ := exists_of_bind h
  rw [Grammar.ofRoot_eq] at h
  obtain ⟨ds', -, h⟩ := exists_of_bind h
  split at h
  · cases h
  · next hnone =>
    cases h
    exact (Grammar.repeatedStory?_eq_none_iff.1 hnone).2

/-! ### Tables -/

/-- Tables are equal when the same is found in them. -/
theorem Table.eq_of_find? {α : Type} {s t : Table α} (h : ∀ k, s.find? k = t.find? k) : s = t := by
  have mem (e : String × α) : e ∈ s.entries ↔ e ∈ t.entries :=
    ⟨fun he => mem_of_find? ((h e.1).symm.trans (find?_of_mem he)),
      fun he => mem_of_find? ((h e.1).trans (find?_of_mem he))⟩
  have nodup (t : Table α) : t.entries.Nodup := t.nodup_keys.of_map _
  apply Table.ext
  refine ((List.perm_ext_iff_of_nodup (nodup s) (nodup t)).2 mem).eq_of_pairwise ?_ s.ascending
    t.ascending
  intro a b _ _ hab hba
  exact absurd (String.lt_trans hab hba) (String.lt_irrefl _)

/-! ### Libraries -/

namespace Library

variable {voc : Vocabulary} {l : Library}

/-- A library holds some stories, each as it is loaded, and no others. -/
def Holds (voc : Vocabulary) (l : Library) (xs : List (String × Document)) : Prop :=
  ∀ id t, l.find? id = some t ↔ ∃ x ∈ xs, x.2.storyId = id ∧ (x.2.load voc).result = t

theorem Holds.contains {xs : List (String × Document)} (h : l.Holds voc xs) {id : String} :
    l.contains id = true ↔ ∃ x ∈ xs, x.2.storyId = id := by
  rw [Table.contains, Option.isSome_iff_exists]
  constructor
  · rintro ⟨t, ht⟩
    obtain ⟨x, hx, hid, -⟩ := (h id t).1 ht
    exact ⟨x, hx, hid⟩
  · rintro ⟨x, hx, hid⟩
    exact ⟨_, (h id _).2 ⟨x, hx, hid, rfl⟩⟩

theorem storyId_load (d : Document) : (d.load voc).result.storyId = d.storyId := rfl

theorem Holds.add {xs : List (String × Document)} (h : l.Holds voc xs) {d : Document}
    (hd : l.contains d.storyId = false) (path : String) :
    Holds voc (l.insert d.storyId (d.load voc).result) (xs ++ [(path, d)]) := by
  intro id t
  rw [Table.find?_insert]
  split
  · next hid =>
    subst hid
    have hnew : ∀ x ∈ xs, x.2.storyId ≠ d.storyId := by
      intro x hx hxid
      rw [h.contains.2 ⟨x, hx, hxid⟩] at hd
      cases hd
    constructor
    · rintro ⟨⟩
      exact ⟨(path, d), by simp, rfl, rfl⟩
    · rintro ⟨x, hx, hxid, rfl⟩
      rcases List.mem_append.1 hx with hx | hx
      · exact absurd hxid (hnew x hx)
      · rw [List.mem_singleton.1 hx]
  · next hid =>
    rw [h id t]
    constructor
    · rintro ⟨x, hx, hrest⟩
      exact ⟨x, List.mem_append_left _ hx, hrest⟩
    · rintro ⟨x, hx, hxid, ht⟩
      rcases List.mem_append.1 hx with hx | hx
      · exact ⟨x, hx, hxid, ht⟩
      · rw [List.mem_singleton.1 hx] at hxid
        exact absurd hxid.symm hid

theorem add_load {d : Document} (h : l.contains d.storyId = false) :
    l.add (d.load voc).result = .ok (l.insert d.storyId (d.load voc).result) := by
  rw [Library.add, storyId_load, h]
  rfl

theorem contains_insert {d : Document} {t : Template} {id : String} (h : id ≠ d.storyId) :
    Table.contains (l.insert d.storyId t) id = l.contains id := by
  rw [Table.contains, Table.find?_insert, if_neg h, Table.contains]

theorem addDocuments_ok {xs : List (String × Document)} (h : l.Holds voc xs) (path : String)
    {ds : List Document} (hds : (ds.map (·.storyId)).Nodup)
    (hnew : ∀ d ∈ ds, l.contains d.storyId = false) :
    ∃ r, l.addDocuments voc ds = .ok r ∧ r.result.Holds voc (xs ++ ds.map fun d => (path, d)) := by
  induction ds generalizing l xs with
  | nil => exact ⟨_, rfl, by simpa using h⟩
  | cons d ds ih =>
    obtain ⟨hd, hds⟩ := List.nodup_cons.1 hds
    obtain ⟨hnew, hrest⟩ := List.forall_mem_cons.1 hnew
    have hrest' : ∀ e ∈ ds,
        Table.contains (l.insert d.storyId (d.load voc).result) e.storyId = false := by
      intro e he
      rw [contains_insert fun heq => hd (List.mem_map.2 ⟨e, he, heq⟩)]
      exact hrest e he
    obtain ⟨r, hr, hholds⟩ := ih (h.add hnew path) hds hrest'
    refine ⟨⟨r.result, (d.load voc).faults ++ r.faults⟩, ?_, by simpa using hholds⟩
    simp only [addDocuments, add_load hnew, hr, bind, Except.bind]
    rfl

/-- The first story whose id is known keeps the others out. -/
theorem addDocuments_error {ds : List Document} (hds : (ds.map (·.storyId)).Nodup) {d : Document}
    (hd : ds.find? (fun d => l.contains d.storyId) = some d) :
    l.addDocuments voc ds = .error (.ofCause (.storyKnown d.storyId)) := by
  induction ds generalizing l with
  | nil => cases hd
  | cons e ds ih =>
    obtain ⟨he, hds⟩ := List.nodup_cons.1 hds
    rw [List.find?_cons] at hd
    split at hd
    · next hknown =>
      cases hd
      simp only [addDocuments, Library.add, storyId_load, hknown, bind, Except.bind, if_true]
    · next hnew =>
      have others : ∀ x ∈ ds, Table.contains (l.insert e.storyId (e.load voc).result) x.storyId =
          l.contains x.storyId :=
        fun x hx => contains_insert fun heq => he (List.mem_map.2 ⟨x, hx, heq⟩)
      rw [← List.find?_congr others] at hd
      simp only [addDocuments, add_load hnew, ih hds hd, bind, Except.bind]

/-! ### Files -/

/-- The ids of the stories in files of lesser paths. -/
def idsBelow (files : Table String) (path : String) : List String :=
  ((documents files).filter (·.1 < path)).map (·.2.storyId)

/-- The fault that keeps a file out of a library: that of its source, or that of the first story in
it whose id one in a file of a lesser path has. -/
def refusal? (files : Table String) (path source : String) : Option Fault :=
  match Document.parseAll source with
  | .error f => some f
  | .ok ds => (ds.find? fun d => (idsBelow files path).contains d.storyId).map fun d =>
    .ofCause (.storyKnown d.storyId)

variable {files : Table String} {done rest : List (String × String)} {e : String × String}

/-- The stories of some files, with the paths of their files. -/
def documentsOf (es : List (String × String)) : List (String × Document) :=
  es.flatMap fun e => documentsIn e.1 e.2

theorem mem_documentsIn {path source : String} {x : String × Document} :
    x ∈ documentsIn path source ↔
      x.1 = path ∧ ∃ ds, Document.parseAll source = .ok ds ∧ x.2 ∈ ds := by
  obtain ⟨p, d⟩ := x
  unfold documentsIn
  split
  · next ds hds => simp [hds, and_comm, eq_comm]
  · next f hf => simp [hf]

theorem path_of_mem_documentsOf {es : List (String × String)} {x : String × Document}
    (h : x ∈ documentsOf es) : ∃ e ∈ es, e.1 = x.1 := by
  obtain ⟨e, he, hx⟩ := List.mem_flatMap.1 h
  exact ⟨e, he, (mem_documentsIn.1 hx).1.symm⟩

/-- The files of lesser paths are those that come before. -/
theorem idsBelow_eq (h : files.entries = done ++ e :: rest) :
    idsBelow files e.1 = (documentsOf done).map (·.2.storyId) := by
  have ascending := files.ascending
  rw [h] at ascending
  obtain ⟨-, hlater, hearlier⟩ := List.pairwise_append.1 ascending
  have below : (documentsOf done).filter (·.1 < e.1) = documentsOf done := by
    apply List.filter_eq_self.2
    intro x hx
    obtain ⟨f, hf, hpath⟩ := path_of_mem_documentsOf hx
    exact decide_eq_true (hpath ▸ hearlier f hf e (.head _))
  have above : (documentsOf (e :: rest)).filter (·.1 < e.1) = [] := by
    apply List.filter_eq_nil_iff.2
    intro x hx hlt
    have hlt : x.1 < e.1 := of_decide_eq_true hlt
    obtain ⟨f, hf, hpath⟩ := path_of_mem_documentsOf hx
    rw [← hpath] at hlt
    rcases List.mem_cons.1 hf with rfl | hf
    · exact String.lt_irrefl _ hlt
    · exact String.lt_irrefl _ (String.lt_trans hlt ((List.pairwise_cons.1 hlater).1 f hf))
  have split : documents files = documentsOf done ++ documentsOf (e :: rest) := by
    rw [documents, h, List.flatMap_append]
    rfl
  rw [idsBelow, split, List.filter_append, below, above, List.append_nil]

theorem Holds.contains_eq (h : l.Holds voc (documentsOf done))
    (hsplit : files.entries = done ++ e :: rest) (id : String) :
    l.contains id = (idsBelow files e.1).contains id := by
  rw [Bool.eq_iff_iff, h.contains, idsBelow_eq hsplit, List.contains_iff_mem, List.mem_map]

/-- A file is added if nothing keeps it out. -/
theorem addFile_cases (h : l.Holds voc (documentsOf done))
    (hsplit : files.entries = done ++ e :: rest) :
    match refusal? files e.1 e.2 with
    | some f => l.addFile voc e.2 = .error f
    | none => ∃ r, l.addFile voc e.2 = .ok r ∧ r.result.Holds voc (documentsOf (done ++ [e])) := by
  have known := h.contains_eq hsplit
  cases hparse : Document.parseAll e.2 with
  | error f => simp only [refusal?, addFile, hparse, bind, Except.bind]
  | ok ds =>
    have nodup := Document.nodup_of_parseAll hparse
    have added : l.addFile voc e.2 = l.addDocuments voc ds := by
      simp only [addFile, hparse, bind, Except.bind]
    simp only [refusal?, hparse, added, ← known]
    cases hfind : ds.find? fun d => l.contains d.storyId with
    | some d => exact addDocuments_error nodup hfind
    | none =>
      have hnew : ∀ d ∈ ds, l.contains d.storyId = false := by
        simpa using List.find?_eq_none.1 hfind
      obtain ⟨r, hr, hholds⟩ := addDocuments_ok h e.1 nodup hnew
      have stories : documentsOf (done ++ [e]) = documentsOf done ++ ds.map fun d => (e.1, d) := by
        simp [documentsOf, documentsIn, hparse]
      exact ⟨r, hr, stories ▸ hholds⟩

/-- The fault of a file that is kept out, said of the file. -/
def refused? (files : Table String) (e : String × String) : Option Fault :=
  (refusal? files e.1 e.2).map (.inFile e.1)

/-- Files are added one after another until one is kept out. -/
theorem addFiles_cases (h : l.Holds voc (documentsOf done)) (hsplit : files.entries = done ++ rest) :
    match rest.findSome? (refused? files) with
    | some f => l.addFiles voc rest = .error f
    | none => ∃ r, l.addFiles voc rest = .ok r ∧ r.result.Holds voc (documents files) := by
  induction rest generalizing l done with
  | nil =>
    rw [List.append_nil] at hsplit
    refine ⟨_, rfl, ?_⟩
    rw [documents, hsplit]
    exact h
  | cons e rest ih =>
    have file := addFile_cases h hsplit
    rw [List.findSome?_cons, refused?]
    cases hrefusal : refusal? files e.1 e.2 with
    | some g =>
      rw [hrefusal] at file
      simp only [addFiles, file, Option.map_some, Except.mapError, bind, Except.bind]
    | none =>
      rw [hrefusal] at file
      obtain ⟨added, hadded, hholds⟩ := file
      have others := ih hholds (by simpa using hsplit)
      simp only [Option.map_none]
      split
      · next f hf =>
        rw [hf] at others
        simp only [addFiles, hadded, others, Except.mapError, bind, Except.bind]
      · next hf =>
        rw [hf] at others
        obtain ⟨r, hr, hall⟩ := others
        refine ⟨⟨r.result, added.faults.map (.inFile e.1) ++ r.faults⟩, ?_, hall⟩
        simp only [addFiles, hadded, hr, Except.mapError, bind, Except.bind]
        rfl

theorem holds_empty : (∅ : Library).Holds voc (documentsOf []) := by
  intro id t
  simp [documentsOf]

theorem ofFiles_cases (voc : Vocabulary) (files : Table String) :
    match files.entries.findSome? (refused? files) with
    | some f => ofFiles voc files = .error f
    | none => ∃ r, ofFiles voc files = .ok r ∧ r.result.Holds voc (documents files) :=
  addFiles_cases holds_empty (List.nil_append _).symm

/-! ### Compatible files -/

/-- Files whose stories can be in one library. -/
structure Compatible (files : Table String) : Prop where
  parses : ∀ e ∈ files.entries, ∃ ds, Document.parseAll e.2 = .ok ds
  apart : ∀ x ∈ documents files, ∀ y ∈ documents files, x.2.storyId = y.2.storyId → x.1 = y.1

theorem mem_documents {x : String × Document} : x ∈ documents files ↔
    ∃ source ds, (x.1, source) ∈ files.entries ∧ Document.parseAll source = .ok ds ∧ x.2 ∈ ds := by
  simp only [documents, List.mem_flatMap, mem_documentsIn]
  constructor
  · rintro ⟨e, he, hpath, ds, hds, hd⟩
    exact ⟨e.2, ds, hpath ▸ he, hds, hd⟩
  · rintro ⟨source, ds, he, hds, hd⟩
    exact ⟨_, he, rfl, ds, hds, hd⟩

theorem mem_idsBelow {path id : String} :
    id ∈ idsBelow files path ↔ ∃ x ∈ documents files, x.1 < path ∧ x.2.storyId = id := by
  simp [idsBelow, and_assoc]

/-- Files are compatible when none of them is kept out. -/
theorem compatible_iff : Compatible files ↔ ∀ e ∈ files.entries, refusal? files e.1 e.2 = none := by
  constructor
  · intro h e he
    obtain ⟨ds, hds⟩ := h.parses e he
    simp only [refusal?, hds, Option.map_eq_none_iff, List.find?_eq_none, List.contains_iff_mem]
    intro d hd hbelow
    obtain ⟨x, hx, hlt, hid⟩ := mem_idsBelow.1 hbelow
    have hpath := h.apart x hx (e.1, d) (mem_documents.2 ⟨e.2, ds, he, hds, hd⟩) hid
    exact String.lt_irrefl _ (hpath ▸ hlt)
  · intro h
    have parses : ∀ e ∈ files.entries, ∃ ds, Document.parseAll e.2 = .ok ds := by
      intro e he
      have hnone := h e he
      unfold refusal? at hnone
      split at hnone
      · cases hnone
      · next ds hds => exact ⟨ds, hds⟩
    have later : ∀ x ∈ documents files, ∀ y ∈ documents files, x.2.storyId = y.2.storyId →
        ¬x.1 < y.1 := by
      intro x hx y hy hid hlt
      obtain ⟨source, ds, he, hds, hd⟩ := mem_documents.1 hy
      have hnone := h _ he
      simp only [refusal?, hds, Option.map_eq_none_iff, List.find?_eq_none,
        List.contains_iff_mem] at hnone
      exact hnone y.2 hd (mem_idsBelow.2 ⟨x, hx, hlt, hid⟩)
    refine ⟨parses, fun x hx y hy hid => ?_⟩
    exact String.le_antisymm (String.not_lt.1 (later y hy x hx hid.symm))
      (String.not_lt.1 (later x hx y hy hid))

/-- Of compatible files no two stories have the same id, and the other way round. -/
theorem compatible_iff_nodup : Compatible files ↔
    (∀ e ∈ files.entries, ∃ ds, Document.parseAll e.2 = .ok ds) ∧
      ((documents files).map (·.2.storyId)).Nodup := by
  constructor
  · intro h
    refine ⟨h.parses, ?_⟩
    rw [documents, List.map_flatMap, List.nodup_flatMap]
    constructor
    · intro e he
      obtain ⟨ds, hds⟩ := h.parses e he
      simpa [documentsIn, hds, Function.comp_def] using Document.nodup_of_parseAll hds
    · refine files.ascending.imp_of_mem fun {e f} he hf hlt id hide hidf => ?_
      obtain ⟨x, hx, rfl⟩ := List.mem_map.1 hide
      obtain ⟨y, hy, hid⟩ := List.mem_map.1 hidf
      have hpath := h.apart x (List.mem_flatMap.2 ⟨e, he, hx⟩) y (List.mem_flatMap.2 ⟨f, hf, hy⟩)
        hid.symm
      rw [(mem_documentsIn.1 hx).1, (mem_documentsIn.1 hy).1] at hpath
      exact String.lt_irrefl _ (hpath ▸ hlt)
  · rintro ⟨parses, nodup⟩
    refine ⟨parses, fun x hx y hy hid => ?_⟩
    rw [List.inj_on_of_nodup_map nodup hx hy hid]

/-! ### Renaming -/

/-- What a source is read as does not depend on its path. -/
theorem map_documentsIn (path path' source : String) :
    (documentsIn path source).map (·.2) = (documentsIn path' source).map (·.2) := by
  unfold documentsIn
  split <;> simp [Function.comp_def]

variable {files' : Table String}

/-- Files of the same sources have the same stories. -/
theorem perm_documents (h : (files.entries.map (·.2)).Perm (files'.entries.map (·.2))) :
    ((documents files).map (·.2)).Perm ((documents files').map (·.2)) := by
  have stories (files : Table String) : (documents files).map (·.2) =
      (files.entries.map (·.2)).flatMap fun source => (documentsIn "" source).map (·.2) := by
    rw [documents, List.map_flatMap, List.flatMap_map]
    exact List.flatMap_congr fun e _ => map_documentsIn e.1 "" e.2
  rw [stories files, stories files']
  exact h.flatMap_right _

theorem Compatible.renamed (h : Compatible files)
    (hsources : (files.entries.map (·.2)).Perm (files'.entries.map (·.2))) :
    Compatible files' := by
  obtain ⟨parses, nodup⟩ := compatible_iff_nodup.1 h
  have ids := (perm_documents hsources).map (·.storyId)
  rw [List.map_map, List.map_map] at ids
  refine compatible_iff_nodup.2 ⟨fun e he => ?_, ids.nodup_iff.1 nodup⟩
  obtain ⟨f, hf, hsource⟩ := List.mem_map.1 (hsources.mem_iff.2 (List.mem_map_of_mem he))
  exact hsource ▸ parses f hf

/-- A library holds the stories of files whatever the files are called. -/
theorem Holds.renamed (h : l.Holds voc (documents files))
    (hsources : (files.entries.map (·.2)).Perm (files'.entries.map (·.2))) :
    l.Holds voc (documents files') := by
  have moved {xs ys : List (String × Document)} {p : Document → Prop}
      (hperm : (xs.map (·.2)).Perm (ys.map (·.2))) : (∃ x ∈ xs, p x.2) → ∃ y ∈ ys, p y.2 := by
    rintro ⟨x, hx, hp⟩
    obtain ⟨y, hy, hxy⟩ := List.mem_map.1 (hperm.mem_iff.1 (List.mem_map_of_mem hx))
    exact ⟨y, hy, hxy ▸ hp⟩
  have perm := perm_documents hsources
  intro id t
  rw [h id t]
  exact ⟨moved (p := fun d => d.storyId = id ∧ (d.load voc).result = t) perm,
    moved (p := fun d => d.storyId = id ∧ (d.load voc).result = t) perm.symm⟩

theorem Holds.unique {l' : Library} {xs : List (String × Document)} (h : l.Holds voc xs)
    (h' : l'.Holds voc xs) : l = l' := by
  apply Table.eq_of_find?
  intro id
  apply Option.ext
  intro t
  rw [h id t, h' id t]

/-! ### Libraries of files -/

/-- What the library of some files is, and when there is none. -/
structure Assembles (voc : Vocabulary) (files : Table String) : Prop where
  succeeds : (∃ r, ofFiles voc files = .ok r) ↔ Compatible files
  stories : ∀ r, ofFiles voc files = .ok r → r.result.Holds voc (documents files)
  /-- The faults of loading are those of the stories in the order of the paths. -/
  faults : ∀ r, ofFiles voc files = .ok r → r.faults = faultsOf voc (documents files)
  worded : ∀ x ∈ documents files, ∀ f ∈ (x.2.load voc).faults,
    (f.inFile x.1).message = x.1 ++ ": " ++ f.message
  /-- The file of the least path that is kept out is at fault. -/
  fails : ∀ f, ofFiles voc files = .error f → ∃ e ∈ files.entries, ∃ g,
    refusal? files e.1 e.2 = some g ∧ f = g.inFile e.1 ∧ f.message = e.1 ++ ": " ++ g.message ∧
      ∀ e' ∈ files.entries, e'.1 < e.1 → refusal? files e'.1 e'.2 = none
  /-- The library, if there is one, does not depend on the paths. -/
  renamed : ∀ files' : Table String, (files.entries.map (·.2)).Perm (files'.entries.map (·.2)) →
    (ofFiles voc files).toOption.map (·.result) = (ofFiles voc files').toOption.map (·.result)

theorem file_of_refusal? {path source : String} {g : Fault}
    (h : refusal? files path source = some g) : g.file = none := by
  unfold refusal? at h
  split at h
  · next hf =>
    cases h
    exact unfiled_parseAll source _ hf
  · obtain ⟨d, -, rfl⟩ := Option.map_eq_some_iff.1 h
    rfl

theorem findSome?_refused?_eq_none :
    files.entries.findSome? (refused? files) = none ↔ Compatible files := by
  simp [List.findSome?_eq_none_iff, refused?, compatible_iff]

theorem ofFiles_ok (voc : Vocabulary) (h : Compatible files) :
    ∃ r, ofFiles voc files = .ok r ∧ r.result.Holds voc (documents files) := by
  have outcome := ofFiles_cases voc files
  rwa [findSome?_refused?_eq_none.2 h] at outcome

theorem ofFiles_error (voc : Vocabulary) (h : ¬Compatible files) :
    ∃ f, ofFiles voc files = .error f ∧ files.entries.findSome? (refused? files) = some f := by
  have outcome := ofFiles_cases voc files
  cases hf : files.entries.findSome? (refused? files) with
  | none => exact absurd (findSome?_refused?_eq_none.1 hf) h
  | some f =>
    rw [hf] at outcome
    exact ⟨f, outcome, rfl⟩

theorem compatible_of_ofFiles {r : Reported Library} (h : ofFiles voc files = .ok r) :
    Compatible files := by
  by_contra hnot
  obtain ⟨f, hf, -⟩ := ofFiles_error voc hnot
  rw [h] at hf
  cases hf

/-- The first file that is kept out is the one of the least path. -/
theorem exists_least {f : Fault} (h : files.entries.findSome? (refused? files) = some f) :
    ∃ e ∈ files.entries, ∃ g, refusal? files e.1 e.2 = some g ∧ f = g.inFile e.1 ∧
      ∀ e' ∈ files.entries, e'.1 < e.1 → refusal? files e'.1 e'.2 = none := by
  obtain ⟨before, e, after, hsplit, he, hbefore⟩ := List.findSome?_eq_some_iff.1 h
  obtain ⟨g, hg, rfl⟩ := Option.map_eq_some_iff.1 he
  have hmem : e ∈ files.entries := by simp [hsplit]
  refine ⟨e, hmem, g, hg, rfl, fun e' he' hlt => ?_⟩
  have ascending := files.ascending
  rw [hsplit] at ascending he'
  rcases List.mem_append.1 he' with he' | he'
  · simpa [refused?] using hbefore e' he'
  · obtain ⟨hlater, -⟩ := List.pairwise_cons.1 (List.pairwise_append.1 ascending).2.1
    rcases List.mem_cons.1 he' with rfl | he'
    · exact absurd hlt (String.lt_irrefl _)
    · exact absurd (String.lt_trans hlt (hlater e' he')) (String.lt_irrefl _)

theorem holds_of_ofFiles {r : Reported Library} (h : ofFiles voc files = .ok r) :
    r.result.Holds voc (documents files) := by
  obtain ⟨r', hr', hholds⟩ := ofFiles_ok voc (compatible_of_ofFiles h)
  rw [h] at hr'
  cases hr'
  exact hholds

/-- A library that cannot be built is refused for the first file that is kept out. -/
theorem findSome?_of_ofFiles {f : Fault} (h : ofFiles voc files = .error f) :
    files.entries.findSome? (refused? files) = some f := by
  have hnot : ¬Compatible files := by
    intro hc
    obtain ⟨r, hr, -⟩ := ofFiles_ok voc hc
    rw [h] at hr
    cases hr
  obtain ⟨f', hf', hfirst⟩ := ofFiles_error voc hnot
  rw [h] at hf'
  cases hf'
  exact hfirst

/-- Files that are called otherwise make the same library, or none either. -/
theorem result_renamed (voc : Vocabulary)
    (h : (files.entries.map (·.2)).Perm (files'.entries.map (·.2))) :
    (ofFiles voc files).toOption.map (·.result) = (ofFiles voc files').toOption.map (·.result) := by
  by_cases hc : Compatible files
  · obtain ⟨r, hr, hholds⟩ := ofFiles_ok voc hc
    obtain ⟨r', hr', hholds'⟩ := ofFiles_ok voc (hc.renamed h)
    rw [hr, hr']
    exact congrArg some ((hholds.renamed h).unique hholds')
  · obtain ⟨f, hf, -⟩ := ofFiles_error voc hc
    obtain ⟨f', hf', -⟩ := ofFiles_error voc fun hc' => hc (hc'.renamed h.symm)
    rw [hf, hf']
    rfl

/-- A library is built of files exactly if every file can be read and no two of them have a story of
the same id. It is then the same whatever the files are called. -/
theorem assembles (voc : Vocabulary) (files : Table String) : Assembles voc files where
  succeeds := by
    constructor
    · rintro ⟨r, hr⟩
      exact compatible_of_ofFiles hr
    · intro h
      obtain ⟨r, hr, -⟩ := ofFiles_ok voc h
      exact ⟨r, hr⟩
  stories _ hr := holds_of_ofFiles hr
  faults _ hr := faults_addFiles hr
  worded := by
    intro x _ f hf
    obtain ⟨s, -, hlocated⟩ := (Document.faulty_load hf).at
    exact Fault.message_inFile (by rw [hlocated]; rfl) x.1
  fails := by
    intro f hf
    obtain ⟨e, he, g, hg, rfl, hleast⟩ := exists_least (findSome?_of_ofFiles hf)
    exact ⟨e, he, g, hg, rfl, Fault.message_inFile (file_of_refusal? hg) e.1, hleast⟩
  renamed _ h := result_renamed voc h

/-- Of two files with the same story the one of the greater path is at fault. -/
example : (match ofFiles .builtin (.ofList [("b.xml", "<story id=\"s\"/>"),
      ("a.xml", "<story id=\"s\"/>")]) with
    | .error f => f.message
    | .ok _ => "") = "b.xml: Story \"s\" is already in the library." := by decide +kernel

end Library
end StoryScript
