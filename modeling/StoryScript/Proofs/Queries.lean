import StoryScript.Proofs.Census

/-! What a host answers about a story between ticks. A story that is stopped from outside is over at
once, and is let go by the next tick. Until then it is not counted any more, but its variables are
still the answer, even if the same story has been started again since. -/
namespace StoryScript

theorem Instance.storyId_of_runs {i : Instance} {s : String} (h : i.runs s = true) :
    i.storyId = s := by
  simpa using (Bool.and_eq_true_iff.1 h).2

namespace Host
variable {η : Type}

/-- The first to be started of the stories with some property. -/
structure Earliest (h : Host η) (p : Instance → Bool) (i : Instance) : Prop where
  mem : i ∈ h.instances
  holds : p i = true
  first : ∀ j ∈ h.instances, p j = true → i.id ≤ j.id

/-- The answers about a story agree: its variables are those of the first that runs, and there are
none when none is counted. -/
structure Answers (h : Host η) (s : String) : Prop where
  isSome_iff : (h.variables? s).isSome = true ↔ 0 < h.storyCount s
  of_earliest : ∀ i, h.Earliest (Instance.runs s) i → h.variables? s = some i.scope.vars

/-! ### Calls since the last tick -/

section
variable [HostFunctions η]

/-- Hosts that calls lead to, with the calls that came since the last tick. -/
inductive Since : List Call → Host η → Prop
  | new (l : Library) (hl : l.Built) (functions : η) (clock : Int) (drift : Nat → Int)
      (steps : Nat) : Since [] { library := l, functions, clock, drift, steps }
  | tick {cs : List Call} {h : Host η} (hs : Since cs h) (now delta : Int) :
      Since [] ((h.asOf now).obey (.tick delta))
  | call {cs : List Call} {h : Host η} (hs : Since cs h) (now : Int) (c : Call)
      (hc : ∀ delta, c ≠ .tick delta) : Since (cs ++ [c]) ((h.asOf now).obey c)

theorem Since.reached {cs : List Call} {h : Host η} (hs : Since cs h) : h.Reached := by
  induction hs with
  | new l hl functions clock drift steps => exact .new l hl functions clock drift steps
  | tick _ now delta ih => exact .call ih now (.tick delta)
  | call _ now c _ ih => exact .call ih now c

theorem Reached.exists_since {h : Host η} (hr : h.Reached) : ∃ cs, Since cs h := by
  induction hr with
  | new l hl functions clock drift steps => exact ⟨[], .new l hl functions clock drift steps⟩
  | call _ now c ih =>
    obtain ⟨cs, hs⟩ := ih
    cases c with
    | tick delta => exact ⟨[], .tick hs now delta⟩
    | start | stop | send => exact ⟨_, .call hs now _ (by simp)⟩

omit [HostFunctions η] in
/-- Only a request to stop a story leaves one that is over, besides those that were. -/
theorem terminated_grant {h : Host η} {now : Int} {r : Request} {i : Instance}
    (hi : i ∈ (h.grant now r).1.instances) (hover : i.terminated = true) :
    (∃ j ∈ h.instances, j.storyId = i.storyId ∧ j.terminated = true) ∨
      r.stops i.storyId = true := by
  rcases mem_grant hi with ⟨j, hj, rfl⟩ | hs
  · rw [Instance.terminated_receive, Bool.or_eq_true] at hover
    rw [(j.remains_receive now r).storyId]
    exact hover.imp (fun hover => ⟨j, hj, rfl, hover⟩) id
  · obtain ⟨id, t, -, -, rfl⟩ := started?_eq_some hs
    simp [newcomer] at hover

/-- A story that is over and has not been let go was stopped since the last tick. -/
theorem Since.stopped {cs : List Call} {h : Host η} (hs : Since cs h) {i : Instance}
    (hi : i ∈ h.instances) (hover : i.terminated = true) : .stop i.storyId ∈ cs := by
  induction hs generalizing i with
  | new => cases hi
  | tick hs now delta ih =>
    have hstays := (List.mem_filter.1 hi).2
    simp [Instance.isFinished, hover] at hstays
  | @call cs h hs now c hc ih =>
    have hgrant {r : Request} (hi : i ∈ ((h.asOf now).grant now r).1.instances)
        (hr : r.stops i.storyId = true → c = .stop i.storyId) : .stop i.storyId ∈ cs ++ [c] := by
      rcases terminated_grant hi hover with ⟨j, hj, hid, hj'⟩ | hstops
      · exact List.mem_append_left _ (hid ▸ ih hj hj')
      · exact List.mem_append_right _ (List.mem_singleton.2 (hr hstops).symm)
    cases c with
    | start id =>
      rw [obey_start] at hi
      exact hgrant hi (by simp [Request.stops])
    | stop id => exact hgrant (r := .stop id) hi (by simp [Request.stops])
    | send m args concurrent => exact List.mem_append_left _ (ih hi hover)
    | tick delta => exact absurd rfl (hc delta)

end

/-! ### The answers -/

/-- Stories are kept in the order in which they were started. -/
theorem Orderly.find?_eq_some_iff {h : Host η} (ho : h.Orderly) {p : Instance → Bool}
    {i : Instance} : h.instances.find? p = some i ↔ h.Earliest p i := by
  have hearliest {i : Instance} (hi : h.instances.find? p = some i) : h.Earliest p i := by
    refine ⟨List.mem_of_find?_eq_some hi, List.find?_some hi, ?_⟩
    intro j hj hpj
    -- What comes before the first hit has not the property, and what comes after it a greater id.
    obtain ⟨-, before, after, hsplit, hbefore⟩ := List.find?_eq_some_iff_append.1 hi
    have hascending := ho.ascending
    rw [hsplit] at hj hascending
    rcases List.mem_append.1 hj with hj | hj
    · simpa [hpj] using hbefore j hj
    · rcases List.mem_cons.1 hj with rfl | hj
      · exact Nat.le_refl _
      · have hafter := (List.pairwise_cons.1 (List.pairwise_append.1 hascending).2.1).1
        exact Nat.le_of_lt (hafter j hj)
  refine ⟨hearliest, ?_⟩
  intro hi
  obtain ⟨j, hj⟩ := Option.isSome_iff_exists.1 (List.find?_isSome.2 ⟨i, hi.mem, hi.holds⟩)
  have hfirst := hearliest hj
  have hid : j.id = i.id :=
    Nat.le_antisymm (hfirst.first i hi.mem hi.holds) (hi.first j hfirst.mem hfirst.holds)
  rw [hj, Instance.eq_of_id ho.ascending hfirst.mem hi.mem hid]

theorem storyCount_pos_iff (h : Host η) (s : String) :
    0 < h.storyCount s ↔ (h.instances.find? (Instance.runs s)).isSome = true := by
  rw [List.find?_isSome, ← List.countP_pos_iff, List.countP_eq_length_filter]
  rfl

/-- The answers agree when the variables are told of the first story that is counted. -/
theorem Orderly.answers_iff_find? {h : Host η} (ho : h.Orderly) (s : String) :
    h.Answers s ↔
      h.variables? s = (h.instances.find? (Instance.runs s)).map (·.scope.vars) := by
  constructor
  · intro ha
    cases hrunning : h.instances.find? (Instance.runs s) with
    | none =>
      have hnone : ¬ (h.variables? s).isSome = true := by
        rw [ha.isSome_iff, storyCount_pos_iff, hrunning]
        simp
      simpa using hnone
    | some i => exact ha.of_earliest i (ho.find?_eq_some_iff.1 hrunning)
  · intro heq
    constructor
    · rw [heq, Option.isSome_map, storyCount_pos_iff]
    · intro i hi
      rw [heq, ho.find?_eq_some_iff.2 hi, Option.map_some]

/-- The answers disagree only when the first story that has not been let go is over, and another that
runs has other variables, or none runs. -/
theorem Orderly.answers_iff_earliest {h : Host η} (ho : h.Orderly) (s : String) :
    h.Answers s ↔ ∀ j, h.Earliest (·.storyId = s) j → j.terminated = true →
      ∃ i, h.Earliest (Instance.runs s) i ∧ i.scope.vars = j.scope.vars := by
  simp only [ho.answers_iff_find?, ← ho.find?_eq_some_iff, variables?]
  cases hfound : h.instances.find? (·.storyId = s) with
  | none =>
    have hnone : h.instances.find? (Instance.runs s) = none := by
      rw [List.find?_eq_none] at hfound ⊢
      exact fun i hi hruns => hfound i hi (decide_eq_true (Instance.storyId_of_runs hruns))
    simp [hnone]
  | some j =>
    have hj := ho.find?_eq_some_iff.1 hfound
    have hid : j.storyId = s := by simpa using hj.holds
    cases hover : j.terminated with
    | false =>
      have hrunning : h.Earliest (Instance.runs s) j :=
        ⟨hj.mem, by simp [Instance.runs, hover, hid], fun i hi hruns =>
          hj.first i hi (decide_eq_true (Instance.storyId_of_runs hruns))⟩
      simp [ho.find?_eq_some_iff.2 hrunning, hover]
    | true =>
      simp only [Option.map_some, Option.some.injEq, forall_eq', hover, forall_const]
      rw [eq_comm, Option.map_eq_some_iff]

/-- The variables of a story are told whenever it is counted, and the answers agree unless it was
stopped since the last tick. If it was, they disagree only when the first that has not been let go is
over, and another that runs has other variables, or none runs. -/
theorem answers_iff [HostFunctions η] {cs : List Call} {h : Host η} (hs : Since cs h) (s : String) :
    (0 < h.storyCount s → (h.variables? s).isSome = true) ∧
      (.stop s ∉ cs → h.Answers s) ∧
      (h.Answers s ↔ ∀ j, h.Earliest (·.storyId = s) j → j.terminated = true →
        ∃ i, h.Earliest (Instance.runs s) i ∧ i.scope.vars = j.scope.vars) := by
  have ho := hs.reached.orderly
  have hiff := ho.answers_iff_earliest s
  refine ⟨?_, ?_, hiff⟩
  · intro hcount
    rw [storyCount_pos_iff, List.find?_isSome] at hcount
    obtain ⟨i, hi, hruns⟩ := hcount
    rw [variables?, Option.isSome_map, List.find?_isSome]
    exact ⟨i, hi, decide_eq_true (Instance.storyId_of_runs hruns)⟩
  · intro hstop
    apply hiff.2
    intro j hj hover
    have hid : j.storyId = s := by simpa using hj.holds
    have hstopped := hs.stopped hj.mem hover
    rw [hid] at hstopped
    exact absurd hstopped hstop

/-- A story that notes a number when it starts, and stays. -/
def keeper : Template :=
  ⟨"keeper", true, (∅ : Table (List Command)).insert "start"
    [.act (.assign ⟨Operand.literal (.text "@x"), Operand.literal (.int 1)⟩)]⟩

/-- A host of the story alone, in which it has been started and has run for a tick. -/
def keeping : Host NoFunctions :=
  let h : Host NoFunctions := { library := (∅ : Library).insert "keeper" keeper, functions := ⟨⟩ }
  (((h.asOf 0).obey (.start "keeper")).asOf 1).obey (.tick 10)

theorem since_keeping : Since [] keeping := by
  have hadd : Library.add ∅ keeper = .ok ((∅ : Library).insert "keeper" keeper) := by
    simp [Library.add, keeper, Table.contains]
  exact .tick (.call (.new _ (.add keeper .empty hadd) _ 0 _ defaultSteps) 0 (.start "keeper") (by simp))
    1 10

/-- With another of the kind started since the tick, the answers agree. -/
theorem answers_keeping :
    let h := (keeping.asOf 2).obey (.start "keeper")
    h.Answers "keeper" ∧ h.storyCount "keeper" = 2 ∧ (h.variables? "keeper").isSome = true := by
  intro h
  have hcount : h.storyCount "keeper" = 2 := by decide +kernel
  have hpos : 0 < h.storyCount "keeper" := by omega
  obtain ⟨hsome, hanswers, -⟩ :=
    answers_iff (.call since_keeping 2 (.start "keeper") (by simp)) "keeper"
  exact ⟨hanswers (by simp), hcount, hsome hpos⟩

/-- With the story stopped since the tick they do not: it is not counted, and its variables are told.
They are told even when the story has been started again, which has none of them. -/
theorem not_answers_keeping :
    let h := (keeping.asOf 2).obey (.stop "keeper")
    let h' := (h.asOf 3).obey (.start "keeper")
    Since [.stop "keeper"] h ∧ h.storyCount "keeper" = 0 ∧ ¬ h.Answers "keeper" ∧
      Since [.stop "keeper", .start "keeper"] h' ∧ h'.storyCount "keeper" = 1 ∧
      ¬ h'.Answers "keeper" := by
  intro h h'
  have hs : Since [.stop "keeper"] h := .call since_keeping 2 (.stop "keeper") (by simp)
  have hs' : Since [.stop "keeper", .start "keeper"] h' := .call hs 3 (.start "keeper") (by simp)
  have hcount : h.storyCount "keeper" = 0 := by decide +kernel
  have htold : (h.variables? "keeper").isSome = true := by decide +kernel
  have htold' : (h'.variables? "keeper").any (·.contains "@x") = true := by decide +kernel
  have hnone : (h'.instances.find? (Instance.runs "keeper")).any
      (·.scope.vars.contains "@x") = false := by decide +kernel
  refine ⟨hs, hcount, fun ha => ?_, hs', by decide +kernel, fun ha => ?_⟩
  · have hpos := ha.isSome_iff.1 htold
    omega
  · rw [hs'.reached.orderly.answers_iff_find?] at ha
    rw [ha, Option.any_map] at htold'
    exact absurd (hnone.symm.trans htold') (by decide)

end Host
end StoryScript
