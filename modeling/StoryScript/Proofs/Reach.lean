import Mathlib.Algebra.BigOperators.Intervals
import Mathlib.Data.List.Forall2
import Mathlib.Data.List.Nodup
import StoryScript.Proofs.Delivery
import StoryScript.Proofs.Replay

/-! Hosts as they can come to be. A host begins with a library and no running stories, and is then
called from outside; the time on its clock may be another at every call, and may go on during it.
What is granted at the beginning of a tick adds new stories behind those that run and leaves these
in their order, and what runs stays what it was until it is let go. -/
namespace StoryScript

/-- Libraries to which stories were added one by one. -/
inductive Library.Built : Library → Prop
  | empty : Built ∅
  | add {l l' : Library} (t : Template) (h : Built l) (hadd : l.add t = .ok l') : Built l'

/-- The stories of a library are found under their own ids. -/
theorem Library.Built.storyId_of_find? {l : Library} (h : l.Built) {id : String} {t : Template}
    (hf : l.find? id = some t) : t.storyId = id := by
  induction h with
  | empty => cases hf
  | add t' _ hadd ih =>
    simp only [Library.add] at hadd
    split at hadd
    · cases hadd
    · cases hadd
      rw [Table.find?_insert] at hf
      split at hf
      · next hid =>
        cases hf
        exact hid.symm
      · exact ih hf

namespace Host
variable {η : Type}

/-- What a host can be called to do. -/
inductive Call where
  | start (storyId : String)
  | stop (storyId : String)
  | send (message : String) (args : List Value) (concurrent : Bool)
  | tick (delta : Int)

/-- The host with some time on its clock. -/
def asOf (h : Host η) (now : Int) : Host η := { h with clock := now }

/-- The host after a call. A story that is not in the library is not started. -/
def obey [HostFunctions η] (h : Host η) : Call → Host η
  | .start id => match h.startStory id with
    | .ok (_, h) => h
    | .error _ => h
  | .stop id => h.stopStory id
  | .send m args concurrent => h.sendMessage m args concurrent
  | .tick delta => (h.tick delta).1

/-- Hosts that calls lead to. -/
inductive Reached [HostFunctions η] : Host η → Prop
  | new (l : Library) (hl : l.Built) (functions : η) (clock : Int) (drift : Nat → Int)
      (steps : Nat) : Reached { library := l, functions, clock, drift, steps }
  | call {h : Host η} (hr : Reached h) (now : Int) (c : Call) : Reached ((h.asOf now).obey c)

end Host

/-! ### Requests -/

/-- Whether a request is one to stop a story. -/
def Request.stops (storyId : String) : Request → Bool
  | .stop id => id = storyId
  | .start _ | .pause _ _ | .send _ _ _ | .pauseHandlers _ _ => false

/-- The message that a request sends, if it is one to send a message. -/
def Request.message? : Request → Option String
  | .send m _ _ => some m
  | .start _ | .stop _ | .pause _ _ | .pauseHandlers _ _ => none

/-- A story after a request was granted. -/
def Instance.receive (i : Instance) (now : Int) : Request → Instance
  | .stop id => if i.storyId = id then i.terminate else i
  | .pause id paused => if i.storyId = id then { i with paused } else i
  | .send m args concurrent => i.deliver ⟨m, args, concurrent⟩ now
  | .start _ | .pauseHandlers _ _ => i

/-- A story after some requests were granted, one after another. -/
def Instance.receiveAll (i : Instance) (now : Int) (rs : List Request) : Instance :=
  rs.foldl (fun i r => i.receive now r) i

namespace Host
variable {η : Type}

/-- A story as it is when it starts. -/
def newcomer (h : Host η) (t : Template) : Instance :=
  ({ id := h.nextId, template := t } : Instance).deliver ⟨startMessage, [], false⟩
    (h.clock + h.drift h.nextId)

/-- The story that a request starts, if it is one to start a story of the library. -/
def started? (h : Host η) : Request → Option Instance
  | .start id => (h.library.find? id).map h.newcomer
  | .stop _ | .pause _ _ | .send _ _ _ | .pauseHandlers _ _ => none

/-- What a host has that no request changes. -/
structure SameSite (h h' : Host η) : Prop where
  library : h'.library = h.library
  functions : h'.functions = h.functions
  drift : h'.drift = h.drift
  steps : h'.steps = h.steps
  board : h'.board = h.board
  ticks : h'.ticks = h.ticks

theorem SameSite.trans {h h' h'' : Host η} (a : SameSite h h') (b : SameSite h' h'') :
    SameSite h h'' :=
  ⟨b.library.trans a.library, b.functions.trans a.functions, b.drift.trans a.drift,
    b.steps.trans a.steps, b.board.trans a.board, b.ticks.trans a.ticks⟩

theorem sameSite_grant (h : Host η) (now : Int) (r : Request) : SameSite h (h.grant now r).1 := by
  cases r with
  | start id =>
    simp only [grant, startStory]
    cases h.library.find? id <;> exact ⟨rfl, rfl, rfl, rfl, rfl, rfl⟩
  | stop | pause | send | pauseHandlers => exact ⟨rfl, rfl, rfl, rfl, rfl, rfl⟩

theorem nextId_grant (h : Host η) (now : Int) (r : Request) :
    (h.grant now r).1.nextId = h.nextId + (h.started? r).toList.length := by
  cases r with
  | start id =>
    simp only [grant, startStory, started?]
    cases h.library.find? id <;> rfl
  | stop | pause | send | pauseHandlers => rfl

theorem nextId_le_grant (h : Host η) (now : Int) (r : Request) :
    h.nextId ≤ (h.grant now r).1.nextId := by
  rw [nextId_grant]
  exact Nat.le_add_right _ _

/-- A request is granted to every story that runs, and the story that it starts comes last. -/
theorem instances_grant (h : Host η) (now : Int) (r : Request) :
    (h.grant now r).1.instances =
      h.instances.map (fun i => i.receive now r) ++ (h.started? r).toList := by
  cases r with
  | start id =>
    simp only [grant, startStory, started?, Instance.receive, List.map_id']
    cases h.library.find? id <;> simp [newcomer]
  | stop | pause | send => simp [grant, stopStory, update, started?, Instance.receive]
  | pauseHandlers => simp [grant, started?, Instance.receive]

theorem started?_eq_some {h : Host η} {r : Request} {i : Instance} (hs : h.started? r = some i) :
    ∃ id t, r = .start id ∧ h.library.find? id = some t ∧ i = h.newcomer t := by
  cases r with
  | start id =>
    obtain ⟨t, ht, rfl⟩ := Option.map_eq_some_iff.1 hs
    exact ⟨id, t, rfl, ht, rfl⟩
  | stop | pause | send | pauseHandlers => cases hs

theorem mem_grant {h : Host η} {now : Int} {r : Request} {i : Instance}
    (hi : i ∈ (h.grant now r).1.instances) :
    (∃ j ∈ h.instances, i = j.receive now r) ∨ h.started? r = some i := by
  rw [instances_grant] at hi
  rcases List.mem_append.1 hi with hi | hi
  · obtain ⟨j, hj, rfl⟩ := List.mem_map.1 hi
    exact .inl ⟨j, hj, rfl⟩
  · exact .inr (Option.mem_toList.1 hi)

section
variable {P : Instance → Prop} (hstarted : ∀ (h : Host η) r i, h.started? r = some i → P i)
  (hreceive : ∀ i now r, P i → P (i.receive now r))
include hstarted hreceive

/-- What is so of every story that starts, and stays so when a request is granted to it, stays so of
all stories. -/
theorem forall_grant {h : Host η} (hP : ∀ i ∈ h.instances, P i) (now : Int) (r : Request) :
    ∀ i ∈ (h.grant now r).1.instances, P i := by
  intro i hi
  rcases mem_grant hi with ⟨j, hj, rfl⟩ | hs
  · exact hreceive j now r (hP j hj)
  · exact hstarted h r i hs

theorem forall_grantAll {h : Host η} (hP : ∀ i ∈ h.instances, P i) (now : Int)
    (rs : List Request) : ∀ i ∈ (h.grantAll now rs).1.instances, P i := by
  induction rs generalizing h with
  | nil => exact hP
  | cons r rs ih => exact ih (forall_grant hstarted hreceive hP now r)

end

theorem sameSite_grantAll (h : Host η) (now : Int) (rs : List Request) :
    SameSite h (h.grantAll now rs).1 := by
  induction rs generalizing h with
  | nil => exact ⟨rfl, rfl, rfl, rfl, rfl, rfl⟩
  | cons r rs ih => exact (h.sameSite_grant now r).trans (ih (h.grant now r).1)

theorem nextId_grantAll (h : Host η) (now : Int) (rs : List Request) :
    h.nextId ≤ (h.grantAll now rs).1.nextId := by
  induction rs generalizing h with
  | nil => exact Nat.le_refl _
  | cons r rs ih => exact Nat.le_trans (h.nextId_le_grant now r) (ih (h.grant now r).1)

/-! ### The clock -/

/-- The time on the clock when the story of some id is started, after all those before it. -/
def reading (h : Host η) (n : Nat) : Int := h.clock + ∑ k ∈ Finset.Ico h.nextId (n + 1), h.drift k

theorem reading_nextId (h : Host η) : h.reading h.nextId = h.clock + h.drift h.nextId := by
  simp [reading]

/-- The clock moves on with every story that is started. -/
theorem clock_grant (h : Host η) (now : Int) (r : Request) : (h.grant now r).1.clock =
    h.clock + ∑ k ∈ Finset.Ico h.nextId (h.grant now r).1.nextId, h.drift k := by
  cases r with
  | start id =>
    simp only [grant, startStory]
    cases h.library.find? id <;> simp
  | stop | pause | send | pauseHandlers => simp [grant, stopStory, update]

theorem clock_grantAll (h : Host η) (now : Int) (rs : List Request) : (h.grantAll now rs).1.clock =
    h.clock + ∑ k ∈ Finset.Ico h.nextId (h.grantAll now rs).1.nextId, h.drift k := by
  induction rs generalizing h with
  | nil => simp [grantAll]
  | cons r rs ih =>
    have hrest := ih (h.grant now r).1
    rw [clock_grant, (h.sameSite_grant now r).drift, add_assoc,
      Finset.sum_Ico_consecutive _ (h.nextId_le_grant now r) (nextId_grantAll _ now rs)] at hrest
    exact hrest

/-- When a story is started does not depend on which of those before it have been already. -/
theorem reading_grant (h : Host η) (now : Int) (r : Request) {n : Nat}
    (hn : (h.grant now r).1.nextId ≤ n) : (h.grant now r).1.reading n = h.reading n := by
  rw [reading, clock_grant, (h.sameSite_grant now r).drift, add_assoc,
    Finset.sum_Ico_consecutive _ (h.nextId_le_grant now r) (Nat.le_succ_of_le hn), reading]

end Host

/-! ### Stories that remain -/

namespace Instance

/-- A story after something was done with it. -/
structure Remains (i i' : Instance) : Prop where
  id : i'.id = i.id
  template : i'.template = i.template
  terminated : i.terminated = true → i'.terminated = true
  keeps : ∀ J, i.Keeps J → ∃ K, i'.Keeps (J ++ K)

theorem Remains.refl (i : Instance) : Remains i i :=
  ⟨rfl, rfl, fun h => h, fun J h => ⟨[], by simpa using h⟩⟩

theorem Remains.trans {i i' i'' : Instance} (a : Remains i i') (b : Remains i' i'') :
    Remains i i'' := by
  refine ⟨b.id.trans a.id, b.template.trans a.template, b.terminated ∘ a.terminated, fun J hJ => ?_⟩
  obtain ⟨K, hK⟩ := a.keeps J hJ
  obtain ⟨L, hL⟩ := b.keeps _ hK
  exact ⟨K ++ L, by simpa using hL⟩

theorem Remains.storyId {i i' : Instance} (h : Remains i i') : i'.storyId = i.storyId :=
  congrArg Template.storyId h.template

theorem Remains.live {i i' : Instance} (h : Remains i i') (hlive : i'.terminated = false) :
    i.terminated = false := by
  cases ht : i.terminated with
  | false => rfl
  | true => exact absurd (h.terminated ht) (by simp [hlive])

@[simp] theorem id_deliver (i : Instance) (m : Message) (now : Int) : (i.deliver m now).id = i.id := by
  unfold deliver
  cases i.fate m <;> rfl

theorem remains_terminate (i : Instance) : Remains i i.terminate := by
  refine ⟨rfl, rfl, fun _ => rfl, fun J hJ => ?_⟩
  obtain ⟨R, Q, posts, hh, hposts, -⟩ := hJ
  rw [← List.append_nil J] at hh hposts
  exact ⟨[], R, Q, posts, hh, hposts, by simp [terminate]⟩

theorem remains_deliver (i : Instance) (m : Message) (now : Int) : Remains i (i.deliver m now) := by
  have hkeeps (J : Journal) (hJ : i.Keeps J) :=
    keeps_perform (ω := Surroundings NoFunctions) hJ (.deliver m now)
  exact ⟨i.id_deliver m now, i.template_deliver m now, by simp, fun J hJ => ⟨_, hkeeps J hJ⟩⟩

theorem terminated_receive (i : Instance) (now : Int) (r : Request) :
    (i.receive now r).terminated = (i.terminated || r.stops i.storyId) := by
  cases r with
  | stop id =>
    simp only [receive, Request.stops]
    by_cases hid : i.storyId = id
    · simp [hid, terminate]
    · simp [hid, Ne.symm hid]
  | pause id paused =>
    simp only [receive, Request.stops, Bool.or_false]
    split <;> rfl
  | send m args concurrent => simp [receive, Request.stops]
  | start | pauseHandlers => simp [receive, Request.stops]

theorem remains_receive (i : Instance) (now : Int) (r : Request) : Remains i (i.receive now r) := by
  cases r with
  | stop id =>
    simp only [receive]
    split
    · exact i.remains_terminate
    · exact .refl i
  | pause id paused =>
    simp only [receive]
    split
    · exact ⟨rfl, rfl, fun h => h, fun J hJ =>
        ⟨_, keeps_perform (ω := Surroundings NoFunctions) hJ (.pause paused)⟩⟩
    · exact .refl i
  | send m args concurrent => exact i.remains_deliver _ now
  | start | pauseHandlers => exact .refl i

@[simp] theorem id_deliverAll (now : Int) (i : Instance) (ms : List Message) :
    (deliverAll now i ms).1.id = i.id := by
  induction ms generalizing i with
  | nil => rfl
  | cons m ms ih => exact (ih (i.deliver m now)).trans (i.id_deliver m now)

@[simp] theorem id_settle {ω : Type} (i : Instance) (r : Round ω) : (i.settle r).id = i.id := by
  unfold settle
  split <;> rfl

theorem remains_receiveAll (i : Instance) (now : Int) (rs : List Request) :
    Remains i (i.receiveAll now rs) := by
  induction rs generalizing i with
  | nil => exact .refl i
  | cons r rs ih => exact (i.remains_receive now r).trans (ih (i.receive now r))

theorem exists_of_forall₂ {is is' : List Instance} (h : List.Forall₂ Remains is is') :
    ∀ i' ∈ is', ∃ i ∈ is, Remains i i' := by
  induction h with
  | nil => simp
  | cons hi _ ih =>
    intro i' hi'
    rcases List.mem_cons.1 hi' with rfl | hi'
    · exact ⟨_, List.mem_cons_self, hi⟩
    · obtain ⟨i, hmem, hr⟩ := ih i' hi'
      exact ⟨i, List.mem_cons_of_mem _ hmem, hr⟩

theorem ids_of_forall₂ {is is' : List Instance} (h : List.Forall₂ Remains is is') :
    is'.map (·.id) = is.map (·.id) := by
  induction h with
  | nil => rfl
  | cons hi _ ih => rw [List.map_cons, List.map_cons, hi.id, ih]

theorem eq_of_id {is : List Instance} (h : is.Pairwise (·.id < ·.id)) {i j : Instance} (hi : i ∈ is)
    (hj : j ∈ is) (hid : i.id = j.id) : i = j := by
  have hnodup : (is.map (·.id)).Nodup := List.pairwise_map.2 (h.imp Nat.ne_of_lt)
  exact List.inj_on_of_nodup_map hnodup hi hj hid

theorem remains_account {ω : Type} [World ω] (i : Instance) (b : Beat) (steps : Nat) (w : ω) :
    Remains i (i.account b steps w).inst := by
  have hid : (i.account b steps w).inst.id = i.id := by
    unfold account
    split
    · rfl
    · exact (id_settle _ _).trans (id_deliverAll b.now { i with posted := [] } i.posted)
  refine ⟨hid, template_perform i (.tick b steps w), fun h => ?_, fun J hJ =>
    ⟨_, keeps_account hJ b steps w⟩⟩
  simp [account, h]

end Instance

/-! ### Ticks -/

namespace Host
section
variable {ω : Type} [World ω]

theorem forall₂_runInstances (b : Instance.Beat) (steps : Nat) (w : ω) (is : List Instance) :
    List.Forall₂ Instance.Remains is (runInstances b steps w is).1 := by
  induction is generalizing w with
  | nil => exact .nil
  | cons i is ih => exact .cons (i.remains_account b steps w) (ih _)

end

variable {η : Type}

/-- The host at the beginning of a tick, its requests taken out of it. -/
def emptied (h : Host η) : Host η :=
  { h with ticks := h.ticks + 1, board := { h.board with requests := [] } }

/-- The host in the middle of a tick: what was asked for is granted, and no story has run. -/
def opened (h : Host η) : Host η := (h.emptied.grantAll h.clock h.board.requests).1

def beat (h : Host η) (delta : Int) : Instance.Beat := ⟨h.clock, delta, h.opened.pausedHandlers⟩

/-- What the stories see in a tick before the first of them runs. -/
def scene (h : Host η) : Surroundings η := ⟨h.opened.board.refresh h.opened.instances, h.opened.functions⟩

variable [HostFunctions η]

/-- The stories of a tick after they have run, with those that are to be let go. -/
def ran (h : Host η) (delta : Int) : List Instance :=
  (runInstances (h.beat delta) h.opened.steps h.scene h.opened.instances).1

theorem instances_tick (h : Host η) (delta : Int) :
    (h.tick delta).1.instances = (h.ran delta).filter (!·.isFinished) := rfl

theorem ids_ran (h : Host η) (delta : Int) :
    (h.ran delta).map (·.id) = h.opened.instances.map (·.id) :=
  Instance.ids_of_forall₂ (forall₂_runInstances _ _ _ _)

theorem clock_tick (h : Host η) (delta : Int) : (h.tick delta).1.clock = h.opened.clock := rfl

theorem library_tick (h : Host η) (delta : Int) : (h.tick delta).1.library = h.library :=
  (sameSite_grantAll h.emptied h.clock h.board.requests).library

/-- The requests that the stories make in a tick. -/
def asked (h : Host η) (delta : Int) : List Request :=
  (h.tick delta).2.effects.filterMap Effect.request?

omit [HostFunctions η] in
theorem sameSite_opened (h : Host η) : SameSite h.emptied h.opened :=
  sameSite_grantAll _ _ _

omit [HostFunctions η] in
theorem board_opened (h : Host η) : h.opened.board = { h.board with requests := [] } :=
  h.sameSite_opened.board

theorem asked_eq (h : Host η) (delta : Int) :
    h.asked delta =
      ((runInstances (h.beat delta) h.opened.steps h.scene h.opened.instances).2.2.flatMap
        fun t => Turn.effects t.2).filterMap Effect.request? := by
  have hrefused (ws : List Warning) : (ws.map Effect.warned).filterMap Effect.request? = [] := by
    simp [List.filterMap_map, Function.comp_def, Effect.request?]
  simp only [asked, Report.effects, List.filterMap_append, hrefused, List.nil_append]
  rfl

theorem mem_asked (h : Host η) (delta : Int) (r : Request) :
    r ∈ h.asked delta ↔ .requested r ∈ (h.tick delta).2.effects := by
  simp only [asked, List.mem_filterMap]
  constructor
  · rintro ⟨e, he, hr⟩
    cases e with
    | requested r' =>
      cases hr
      exact he
    | wrote | called | posted | terminated | said | warned => cases hr
  · exact fun he => ⟨_, he, rfl⟩

/-- The board after a tick: what was counted at its beginning, with what was asked for since. -/
theorem board_tick (h : Host η) (delta : Int) :
    (h.tick delta).1.board = h.scene.board.askAll (h.asked delta) := by
  have hworld := replay_runInstances (h.beat delta) h.opened.steps h.scene h.opened.instances ∅
  have hboard := congrArg Surroundings.board hworld
  rw [Stage.board_replayAll, ← asked_eq] at hboard
  exact hboard

theorem requests_tick (h : Host η) (delta : Int) :
    (h.tick delta).1.board.requests = h.asked delta := by
  rw [board_tick, Board.requests_askAll, scene, Board.requests_refresh, board_opened]
  rfl

/-! ### Order -/

/-- What is always so of a host. -/
structure Orderly (h : Host η) : Prop where
  library : ∀ id t, h.library.find? id = some t → t.storyId = id
  ascending : h.instances.Pairwise (·.id < ·.id)
  below : ∀ i ∈ h.instances, i.id < h.nextId
  filed : ∀ i ∈ h.instances, h.library.find? i.storyId = some i.template
  keeps : ∀ i ∈ h.instances, ∃ J, i.Keeps J

section
omit [HostFunctions η]

/-- A host stays orderly while its stories remain, and some of them are let go. -/
theorem Orderly.of_remains {h h' : Host η} (ho : h.Orderly) (hlibrary : h'.library = h.library)
    (hnextId : h'.nextId = h.nextId) {is : List Instance}
    (hremain : List.Forall₂ Instance.Remains h.instances is) (hsub : h'.instances.Sublist is) :
    h'.Orderly := by
  have hof : ∀ i' ∈ h'.instances, ∃ i ∈ h.instances, Instance.Remains i i' := fun i' hi' =>
    Instance.exists_of_forall₂ hremain i' (hsub.subset hi')
  have hids : (h.instances.map (·.id)).Pairwise (· < ·) := List.pairwise_map.2 ho.ascending
  rw [← Instance.ids_of_forall₂ hremain] at hids
  refine ⟨by rw [hlibrary]; exact ho.library, (List.pairwise_map.1 hids).sublist hsub, ?_, ?_, ?_⟩
  · intro i' hi'
    obtain ⟨i, hi, hr⟩ := hof i' hi'
    rw [hr.id, hnextId]
    exact ho.below i hi
  · intro i' hi'
    obtain ⟨i, hi, hr⟩ := hof i' hi'
    rw [hr.storyId, hr.template, hlibrary]
    exact ho.filed i hi
  · intro i' hi'
    obtain ⟨i, hi, hr⟩ := hof i' hi'
    obtain ⟨J, hJ⟩ := ho.keeps i hi
    obtain ⟨K, hK⟩ := hr.keeps J hJ
    exact ⟨_, hK⟩

theorem remains_newcomer (h : Host η) (t : Template) :
    Instance.Remains { id := h.nextId, template := t } (h.newcomer t) :=
  Instance.remains_deliver _ _ _

/-- Some requests are granted to every story that runs, and the stories that they start come after
them. -/
theorem instances_grantAll (h : Host η) (now : Int) (rs : List Request) :
    ∃ newer, (h.grantAll now rs).1.instances =
        h.instances.map (fun i => i.receiveAll now rs) ++ newer ∧
      ∀ i ∈ newer, h.nextId ≤ i.id ∧
        ∃ id, .start id ∈ rs ∧ h.library.find? id = some i.template := by
  induction rs generalizing h with
  | nil => exact ⟨[], by simp [grantAll, Instance.receiveAll], by simp⟩
  | cons r rs ih =>
    obtain ⟨newer, hinstances, hnewer⟩ := ih (h.grant now r).1
    rw [instances_grant] at hinstances
    rw [(h.sameSite_grant now r).library, nextId_grant] at hnewer
    refine ⟨(h.started? r).toList.map (fun i => i.receiveAll now rs) ++ newer, ?_, ?_⟩
    · simp only [grantAll, hinstances, List.map_append, List.map_map, List.append_assoc]
      rfl
    · intro i hi
      rcases List.mem_append.1 hi with hi | hi
      · obtain ⟨i, hstarted, rfl⟩ := List.mem_map.1 hi
        have hremains := i.remains_receiveAll now rs
        obtain ⟨id, t, rfl, ht, rfl⟩ := started?_eq_some (Option.mem_toList.1 hstarted)
        have hnew := h.remains_newcomer t
        rw [hremains.id, hremains.template, hnew.id, hnew.template]
        exact ⟨Nat.le_refl _, id, List.mem_cons_self, ht⟩
      · obtain ⟨hid, id, hstart, ht⟩ := hnewer i hi
        exact ⟨Nat.le_trans (Nat.le_add_right _ _) hid, id, List.mem_cons_of_mem _ hstart, ht⟩

/-- A story that is started comes in its order. -/
theorem Orderly.started {h : Host η} (ho : h.Orderly) {id : String} {t : Template}
    (ht : h.library.find? id = some t) :
    ({ h with
      clock := h.clock + h.drift h.nextId
      instances := h.instances ++ [h.newcomer t]
      nextId := h.nextId + 1 } : Host η).Orderly := by
  have hr := h.remains_newcomer t
  have hid : (h.newcomer t).id = h.nextId := hr.id
  refine ⟨ho.library, ?_, ?_, ?_, ?_⟩
  · refine List.pairwise_append.2 ⟨ho.ascending, List.pairwise_singleton _ _, fun i hi j hj => ?_⟩
    obtain rfl := List.mem_singleton.1 hj
    rw [hid]
    exact ho.below i hi
  · intro i hi
    rcases List.mem_append.1 hi with hi | hi
    · exact Nat.lt_succ_of_lt (ho.below i hi)
    · obtain rfl := List.mem_singleton.1 hi
      rw [hid]
      exact Nat.lt_succ_self _
  · intro i hi
    rcases List.mem_append.1 hi with hi | hi
    · exact ho.filed i hi
    · obtain rfl := List.mem_singleton.1 hi
      have hstory : (h.newcomer t).storyId = id := hr.storyId.trans (ho.library id t ht)
      rw [hstory, hr.template]
      exact ht
  · intro i hi
    rcases List.mem_append.1 hi with hi | hi
    · exact ho.keeps i hi
    · obtain rfl := List.mem_singleton.1 hi
      obtain ⟨K, hK⟩ := hr.keeps [] (Instance.keeps_new _ _)
      exact ⟨_, hK⟩

theorem Orderly.grant {h : Host η} (ho : h.Orderly) (now : Int) (r : Request) :
    (h.grant now r).1.Orderly := by
  have hremain : List.Forall₂ Instance.Remains h.instances
      (h.instances.map fun i => i.receive now r) := by
    rw [List.forall₂_map_right_iff, List.forall₂_same]
    exact fun i _ => i.remains_receive now r
  cases hs : h.started? r with
  | none =>
    have hinstances := h.instances_grant now r
    have hnextId := h.nextId_grant now r
    rw [hs] at hinstances hnextId
    refine ho.of_remains (h.sameSite_grant now r).library hnextId hremain ?_
    rw [hinstances, Option.toList_none, List.append_nil]
  | some i =>
    obtain ⟨id, t, rfl, ht, rfl⟩ := started?_eq_some hs
    have hgrant : (h.grant now (.start id)).1 =
        { h with
          clock := h.clock + h.drift h.nextId
          instances := h.instances ++ [h.newcomer t]
          nextId := h.nextId + 1 } := by
      simp [Host.grant, startStory, ht, newcomer]
    rw [hgrant]
    exact ho.started ht

theorem Orderly.grantAll {h : Host η} (ho : h.Orderly) (now : Int) (rs : List Request) :
    (h.grantAll now rs).1.Orderly := by
  induction rs generalizing h with
  | nil => exact ho
  | cons r rs ih => exact ih (ho.grant now r)

theorem Orderly.asOf {h : Host η} (ho : h.Orderly) (now : Int) : (h.asOf now).Orderly :=
  ⟨ho.library, ho.ascending, ho.below, ho.filed, ho.keeps⟩

theorem Orderly.emptied {h : Host η} (ho : h.Orderly) : h.emptied.Orderly :=
  ⟨ho.library, ho.ascending, ho.below, ho.filed, ho.keeps⟩

theorem Orderly.opened {h : Host η} (ho : h.Orderly) : h.opened.Orderly :=
  ho.emptied.grantAll h.clock h.board.requests

end

theorem Orderly.tick {h : Host η} (ho : h.Orderly) (delta : Int) : (h.tick delta).1.Orderly :=
  ho.opened.of_remains rfl rfl (forall₂_runInstances _ _ _ _) List.filter_sublist

theorem Orderly.ascending_ran {h : Host η} (ho : h.Orderly) (delta : Int) :
    (h.ran delta).Pairwise (·.id < ·.id) := by
  have hids : (h.opened.instances.map (·.id)).Pairwise (· < ·) :=
    List.pairwise_map.2 ho.opened.ascending
  rw [← ids_ran h delta] at hids
  exact List.pairwise_map.1 hids

theorem obey_start (h : Host η) (id : String) :
    h.obey (.start id) = (h.grant h.clock (.start id)).1 := by
  simp only [obey, grant]
  cases h.startStory id <;> rfl

theorem Orderly.obey {h : Host η} (ho : h.Orderly) (c : Call) : (h.obey c).Orderly := by
  cases c with
  | start id =>
    rw [obey_start]
    exact ho.grant _ _
  | stop id => exact ho.grant h.clock (.stop id)
  | send m args concurrent => exact ⟨ho.library, ho.ascending, ho.below, ho.filed, ho.keeps⟩
  | tick delta => exact ho.tick delta

theorem Reached.orderly {h : Host η} (hr : h.Reached) : h.Orderly := by
  induction hr with
  | new l hl functions clock drift steps =>
    exact ⟨fun _ _ => hl.storyId_of_find?, .nil, by simp, by simp, by simp⟩
  | call _ now c ih => exact (ih.asOf now).obey c

end Host
end StoryScript
