import StoryScript.Proofs.Reach

/-! The stories that the board counts at the end of a tick, and those that the next tick finds
running. The board does not know which of the stories that it counted at the beginning of the tick
have ended in it; of everything else it gives the number that the next tick begins with. -/
namespace StoryScript

/-- Whether an instance is a running one of a story. -/
def Instance.runs (s : String) (i : Instance) : Bool := !i.terminated && i.storyId = s

/-- How many instances of a story run after a request was granted, if so many ran before. -/
def Request.tally (s : String) (n : Nat) : Request → Nat
  | .start id => if id = s then n + 1 else n
  | .stop id => if id = s then 0 else n
  | .pause _ _ | .send _ _ _ | .pauseHandlers _ _ => n

theorem Request.tally_add (s : String) (r : Request) (n k : Nat) :
    r.tally s (n + k) = r.tally s n + if r.stops s then 0 else k := by
  cases r with
  | start id =>
    by_cases hs : id = s
    · simp [tally, stops, hs]
      omega
    · simp [tally, stops, hs]
  | stop id => by_cases hs : id = s <;> simp [tally, stops, hs]
  | pause | send | pauseHandlers => rfl

/-- With a request to stop a story, it does not matter any more how many there were before. -/
theorem Request.foldl_tally_add (s : String) (rs : List Request) (n k : Nat) :
    rs.foldl (tally s) (n + k) = rs.foldl (tally s) n + if rs.any (stops s) then 0 else k := by
  induction rs generalizing n k with
  | nil => rfl
  | cons r rs ih =>
    rw [List.foldl_cons, tally_add, ih, List.foldl_cons, List.any_cons]
    cases r.stops s <;> simp

/-! ### What the board counts -/

namespace Board

theorem count_refresh (b : Board) (is : List Instance) (s : String) :
    count (b.refresh is).stories s = is.countP (Instance.runs s) := by
  have hfold (is : List Instance) (c : Board) :
      count (is.foldl countInstance c).stories s =
        count c.stories s + is.countP fun i => i.storyId = s := by
    induction is generalizing c with
    | nil => rfl
    | cons i is ih =>
      have hc : count (c.countInstance i).stories s =
          if s = i.storyId then count c.stories i.storyId + 1 else count c.stories s :=
        count_bump c.stories i.storyId s 1
      rw [List.foldl_cons, ih, hc, List.countP_cons]
      by_cases hs : s = i.storyId
      · subst hs
        simp
        omega
      · simp [hs, Ne.symm hs]
  have hempty : count (∅ : Table Nat) s = 0 := rfl
  rw [refresh, hfold, hempty, Nat.zero_add, List.countP_filter]
  congr 1
  funext i
  simp [Instance.runs, Bool.and_comm]

theorem stories_askAll (b : Board) (rs : List Request) (s : String) :
    count (b.askAll rs).stories s = rs.foldl (Request.tally s) (count b.stories s) := by
  induction rs generalizing b with
  | nil => rfl
  | cons r rs ih =>
    have hr : count (b.ask r).stories s = r.tally s (count b.stories s) := by
      cases r with
      | start id =>
        have h := count_bump b.stories id s 1
        simp only [ask, Request.tally, h]
        by_cases hs : s = id
        · simp [hs]
        · simp [hs, Ne.symm hs]
      | stop id =>
        simp only [ask, Request.tally, count, Table.find?_insert]
        by_cases hs : s = id
        · simp [hs]
        · simp [hs, Ne.symm hs]
      | pause | send | pauseHandlers => rfl
    have hrest := ih (b.ask r)
    rw [hr] at hrest
    exact hrest

end Board

/-! ### What runs -/

namespace Host
variable {η : Type}

theorem runs_receive (i : Instance) (now : Int) (r : Request) (s : String) :
    (i.receive now r).runs s = (i.runs s && !r.stops s) := by
  rw [Instance.runs, i.terminated_receive, (i.remains_receive now r).storyId, Instance.runs]
  by_cases hs : i.storyId = s
  · subst hs
    simp
  · simp [hs]

theorem runs_newcomer (h : Host η) (t : Template) (s : String) :
    (h.newcomer t).runs s = decide (t.storyId = s) := by
  rw [Instance.runs, (h.remains_newcomer t).storyId, newcomer, Instance.terminated_deliver]
  rfl

/-- A request changes the number of the running instances of a story by as much as it is counted. -/
theorem countP_grant {h : Host η} (ho : h.Orderly) (now : Int) (r : Request) {s : String}
    (hs : h.library.contains s = true) :
    (h.grant now r).1.instances.countP (Instance.runs s) =
      r.tally s (h.instances.countP (Instance.runs s)) := by
  have hkept : (h.instances.map fun i => i.receive now r).countP (Instance.runs s) =
      if r.stops s then 0 else h.instances.countP (Instance.runs s) := by
    rw [List.countP_map]
    cases hstop : r.stops s <;> simp [Function.comp_def, runs_receive, hstop]
  rw [instances_grant, List.countP_append, hkept]
  cases r with
  | start id =>
    obtain ⟨t, ht⟩ := Option.isSome_iff_exists.1 hs
    by_cases hid : id = s
    · subst hid
      have hstory : t.storyId = id := ho.library id t ht
      simp [started?, ht, runs_newcomer, hstory, Request.stops, Request.tally]
    · have hnone : (h.started? (.start id)).toList.countP (Instance.runs s) = 0 := by
        rw [List.countP_eq_zero]
        intro i hi
        obtain ⟨t', ht', rfl⟩ := Option.map_eq_some_iff.1 (Option.mem_toList.1 hi)
        rw [runs_newcomer, ho.library id t' ht']
        simp [hid]
      rw [hnone]
      simp [Request.stops, Request.tally, hid]
  | stop id => simp [started?, Request.stops, Request.tally]
  | pause | send | pauseHandlers => simp [started?, Request.stops, Request.tally]

theorem countP_grantAll {h : Host η} (ho : h.Orderly) (now : Int) (rs : List Request) {s : String}
    (hs : h.library.contains s = true) :
    (h.grantAll now rs).1.instances.countP (Instance.runs s) =
      rs.foldl (Request.tally s) (h.instances.countP (Instance.runs s)) := by
  induction rs generalizing h with
  | nil => rfl
  | cons r rs ih =>
    have hlibrary : (h.grant now r).1.library = h.library := (h.sameSite_grant now r).library
    have hrest := ih (ho.grant now r) (by rwa [hlibrary])
    rw [countP_grant ho now r hs] at hrest
    exact hrest

/-- No instance runs of a story that is not in the library. -/
theorem Orderly.countP_eq_zero {h : Host η} (ho : h.Orderly) {s : String}
    (hs : h.library.contains s = false) : h.instances.countP (Instance.runs s) = 0 := by
  rw [List.countP_eq_zero]
  intro i hi hruns
  have hstory : i.storyId = s := by simpa [Instance.runs] using (Bool.and_eq_true_iff.1 hruns).2
  have hfiled := ho.filed i hi
  rw [hstory] at hfiled
  simp [Table.contains, hfiled] at hs

/-! ### Stories that end in a tick -/

/-- The instances of a story that run at the beginning of a tick and are not there after it. -/
def ended [HostFunctions η] (h : Host η) (delta : Int) (s : String) : List Instance :=
  (h.opened.instances.filter (Instance.runs s)).filter fun i =>
    (h.tick delta).1.instances.all (·.id ≠ i.id)

theorem Remains.runs_of_not_finished {i i' : Instance} (h : Instance.Remains i i')
    (hfinished : i'.isFinished = false) (s : String) : i'.runs s = i.runs s := by
  obtain ⟨hlive', -⟩ : i'.terminated = false ∧ _ := by simpa [Instance.isFinished] using hfinished
  rw [Instance.runs, Instance.runs, h.storyId, h.live hlive', hlive']

theorem countP_of_remains {is is' : List Instance} (s : String) (gone : Instance → Bool)
    (h : List.Forall₂ (fun i i' => Instance.Remains i i' ∧ gone i = i'.isFinished) is is') :
    is.countP (Instance.runs s) =
      (is'.filter (!·.isFinished)).countP (Instance.runs s) +
        (is.filter (Instance.runs s)).countP gone := by
  induction h with
  | nil => rfl
  | @cons i i' is is' hi _ ih =>
    obtain ⟨hremains, hgone⟩ := hi
    rw [List.countP_cons, ih]
    cases hfinished : i'.isFinished with
    | true =>
      rw [hfinished] at hgone
      cases hruns : i.runs s <;> simp [hfinished, hruns, hgone, Nat.add_assoc]
    | false =>
      rw [hfinished] at hgone
      have hsame := Remains.runs_of_not_finished hremains hfinished s
      cases hruns : i.runs s <;> simp [hfinished, hruns, hgone, hsame, Nat.add_right_comm]

/-- An instance is gone after a tick if it is over, and only then. -/
theorem forall₂_gone [HostFunctions η] {h : Host η} (ho : h.Orderly) (delta : Int) :
    List.Forall₂
      (fun i i' => Instance.Remains i i' ∧
        ((h.tick delta).1.instances.all fun j => j.id ≠ i.id) = i'.isFinished)
      h.opened.instances (h.ran delta) := by
  have hremains := forall₂_runInstances (h.beat delta) h.opened.steps h.scene h.opened.instances
  obtain ⟨hlength, hzip⟩ := List.forall₂_iff_zip.1 hremains
  refine List.forall₂_iff_zip.2 ⟨hlength, fun {i i'} hmem => ⟨hzip hmem, ?_⟩⟩
  have hi' : i' ∈ h.ran delta := (List.of_mem_zip hmem).2
  have hid : i'.id = i.id := (hzip hmem).id
  rw [instances_tick]
  cases hfinished : i'.isFinished with
  | false =>
    have hmem' : i' ∈ (h.ran delta).filter (!·.isFinished) :=
      List.mem_filter.2 ⟨hi', by simp [hfinished]⟩
    simp only [List.all_eq_false, decide_eq_true_eq]
    exact ⟨i', hmem', fun hne => hne hid⟩
  | true =>
    simp only [List.all_eq_true, decide_eq_true_eq]
    rintro j hj heq
    obtain ⟨hj, hlive⟩ := List.mem_filter.1 hj
    obtain rfl := Instance.eq_of_id (ho.ascending_ran delta) hj hi' (heq.trans hid.symm)
    simp [hfinished] at hlive

/-- The next tick begins with what the last one left and asked for. -/
theorem countP_opened [HostFunctions η] {h : Host η} (ho : h.Orderly) (delta next : Int) {s : String}
    (hs : h.library.contains s = true) :
    ((h.tick delta).1.asOf next).opened.instances.countP (Instance.runs s) =
      (h.asked delta).foldl (Request.tally s)
        ((h.tick delta).1.instances.countP (Instance.runs s)) := by
  have hlibrary := h.library_tick delta
  have ho' : (((h.tick delta).1.asOf next).emptied).Orderly := ((ho.tick delta).asOf next).emptied
  rw [← hlibrary] at hs
  rw [← requests_tick]
  exact countP_grantAll ho' next (h.tick delta).1.board.requests hs

theorem any_stops_iff [HostFunctions η] (h : Host η) (delta : Int) (s : String) :
    (h.asked delta).any (Request.stops s) = true ↔
      .requested (.stop s) ∈ (h.tick delta).2.effects := by
  rw [← mem_asked, List.any_eq_true]
  constructor
  · rintro ⟨r, hr, hstop⟩
    cases r with
    | stop id =>
      obtain rfl : id = s := by simpa [Request.stops] using hstop
      exact hr
    | start | pause | send | pauseHandlers => cases hstop
  · exact fun hr => ⟨_, hr, by simp [Request.stops]⟩

/-- What the board counts of a story at the end of a tick, what the next tick finds running of it,
and what has ended in between. -/
theorem storyCount_foretold [HostFunctions η] {h : Host η} (hr : h.Reached) (now delta next : Int)
    (s : String) :
    let host := h.asOf now
    let after := (host.tick delta).1
    let found := (after.asOf next).opened
    let foretold := Board.count after.board.stories s
    let running := Board.count (found.board.refresh found.instances).stories s
    (h.library.contains s = true →
      (.requested (.stop s) ∈ (host.tick delta).2.effects → foretold = running) ∧
      (.requested (.stop s) ∉ (host.tick delta).2.effects →
        foretold = running + (host.ended delta s).length)) ∧
    (h.library.contains s = false → running = 0) ∧ running ≤ foretold := by
  intro host after found foretold running
  have ho : host.Orderly := hr.orderly.asOf now
  have hbefore := countP_of_remains s _ (forall₂_gone ho delta)
  have hended : (host.ended delta s).length = (host.opened.instances.filter (Instance.runs s)).countP
      fun i => (host.tick delta).1.instances.all fun j => j.id ≠ i.id :=
    List.countP_eq_length_filter.symm
  have hforetold : foretold = (host.asked delta).foldl (Request.tally s)
      (host.opened.instances.countP (Instance.runs s)) := by
    simp only [foretold, after]
    rw [board_tick, Board.stories_askAll, scene, Board.count_refresh]
  have hrunning : running = found.instances.countP (Instance.runs s) := Board.count_refresh _ _ s
  have hlibrary : after.library = h.library := host.library_tick delta
  have hfound : found.library = h.library := (after.asOf next).sameSite_opened.library.trans hlibrary
  have hknown (hs : h.library.contains s = true) :
      foretold = running + if (host.asked delta).any (Request.stops s) then 0
        else (host.ended delta s).length := by
    rw [hforetold, hbefore, ← hended, hrunning, Request.foldl_tally_add]
    congr 1
    exact (countP_opened ho delta next hs).symm
  have hunknown (hs : h.library.contains s = false) : running = 0 := by
    rw [hrunning]
    exact ((ho.tick delta).asOf next).opened.countP_eq_zero (by rw [hfound, hs])
  refine ⟨fun hs => ⟨fun hstop => ?_, fun hstop => ?_⟩, hunknown, ?_⟩
  · rw [← any_stops_iff] at hstop
    simpa [hstop] using hknown hs
  · rw [← any_stops_iff] at hstop
    simpa [hstop] using hknown hs
  · cases hs : h.library.contains s with
    | true => exact hknown hs ▸ Nat.le_add_right _ _
    | false => exact hunknown hs ▸ Nat.zero_le _

/-- A story that starts another and is over at once. -/
def starter : Template :=
  ⟨"starter", false, (∅ : Table (List Command)).insert "start"
    [.act (.start (Operand.literal (.text "sleeper")))]⟩

/-- A story that waits for a hundred milliseconds. -/
def sleeper : Template :=
  ⟨"sleeper", false, (∅ : Table (List Command)).insert "start"
    [.wait (Operand.literal (.int 100))]⟩

def relay : Library := ((∅ : Library).insert "starter" starter).insert "sleeper" sleeper

theorem built_relay : relay.Built := by
  have hstarter : Library.add ∅ starter = .ok ((∅ : Library).insert "starter" starter) := by
    simp [Library.add, starter, Table.contains]
  have hsleeper : Library.add ((∅ : Library).insert "starter" starter) sleeper = .ok relay := by
    simp [Library.add, relay, sleeper, Table.contains, Table.find?_insert]
  exact .add sleeper (.add starter .empty hstarter) hsleeper

/-- The board counts the story that is asked for, and the one that ends in the same tick. -/
theorem storyCount_relay :
    let h := (({ library := relay, functions := ⟨⟩ } : Host NoFunctions).asOf 0).obey (.start "starter")
    let after := ((h.asOf 1).tick 10).1
    let found := (after.asOf 2).opened
    h.Reached ∧
      Board.count (found.board.refresh found.instances).stories "sleeper" ≤
        Board.count after.board.stories "sleeper" ∧
      Board.count after.board.stories "sleeper" = 1 ∧
      Board.count after.board.stories "starter" = 1 ∧ after.instances.length = 0 := by
  intro h after found
  have hr : h.Reached := .call (.new relay built_relay _ 0 _ defaultSteps) 0 (.start "starter")
  obtain ⟨-, -, hle⟩ := storyCount_foretold hr 1 10 2 "sleeper"
  exact ⟨hr, hle, by decide +kernel, by decide +kernel, by decide +kernel⟩

end Host
end StoryScript
