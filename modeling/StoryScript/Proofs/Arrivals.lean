import StoryScript.Proofs.Reach
import StoryScript.Proofs.Turns
import StoryScript.Proofs.Watching

/-! What comes to the stories of a host in a tick, and what their handlers find when it is their turn.
A story remembers of every message when it last came: what comes in a tick, because it is sent to all
stories or was posted, comes at the time of that tick, and the turns of the tick leave the memory of
it alone. The message with which a story starts is remembered for the time on the clock at which it
does, which may be later. -/
namespace StoryScript

/-! ### One story -/

namespace Instance

theorem triggered?_deliver (i : Instance) (m : Message) (now : Int) (x : String) :
    (i.deliver m now).scope.triggered? x =
      if i.terminated = false ∧ x = m.id then some now else i.scope.triggered? x := by
  have hnote : (i.note m now).scope.triggered? x =
      if x = m.id then some now else i.scope.triggered? x := i.scope.triggered?_trigger m.id x now
  unfold deliver fate
  split
  · next hover => simp [take, hover]
  · next hlive =>
    simp only [hlive, true_and]
    split
    · exact hnote
    · split <;> exact hnote

theorem triggered?_receive (i : Instance) (now : Int) (r : Request) (x : String) :
    (i.receive now r).scope.triggered? x =
      if i.terminated = false ∧ r.message? = some x then some now else i.scope.triggered? x := by
  cases r with
  | send m args concurrent =>
    simp only [receive, Request.message?, triggered?_deliver, Option.some.injEq, eq_comm (a := x)]
  | stop id | pause id paused =>
    simp only [receive, Request.message?]
    split <;> simp [terminate]
  | start | pauseHandlers => simp [receive, Request.message?]

theorem triggered?_deliverAll {i : Instance} (hlive : i.terminated = false) (now : Int)
    (ms : List Message) (x : String) :
    (deliverAll now i ms).1.scope.triggered? x =
      if x ∈ ms.map (·.id) then some now else i.scope.triggered? x := by
  induction ms generalizing i with
  | nil => simp [deliverAll]
  | cons m ms ih =>
    have hms := ih (i := i.deliver m now) (by simpa using hlive)
    simp only [deliverAll, hms, triggered?_deliver, hlive, List.map_cons, List.mem_cons, true_and]
    by_cases hx : x ∈ ms.map (·.id) <;> simp [hx]

/-- The messages that come to a story from its posts in a tick. -/
def fetches (i : Instance) : List String :=
  if i.terminated || i.paused then [] else i.posted.map (·.id)

section
variable {ω : Type} [World ω] (i : Instance) (b : Beat) (steps : Nat) (w : ω)

/-- What a story fetches is what comes to it from its posts. -/
theorem fetches_eq : (i.account b steps w).arrivals.map (·.message.id) = i.fetches := by
  have h := congrArg (List.map (·.id)) (i.arrivals_account b steps w)
  rw [List.map_map] at h
  simp only [fetches]
  split <;> simp_all [Function.comp_def]

/-- The turns of a tick leave alone when messages came. -/
theorem triggers_account (hlive : i.terminated = false) (hactive : i.paused = false) :
    (i.account b steps w).inst.scope.triggers = (i.deliverPosted b.now).1.scope.triggers := by
  simp only [account, hlive, hactive, Bool.or_self, Bool.false_eq_true, if_false, scope_settle]
  rw [replay_runAll, Stage.triggers_replayAll]

theorem triggered?_account (x : String) :
    (i.account b steps w).inst.scope.triggered? x =
      if x ∈ i.fetches then some b.now else i.scope.triggered? x := by
  by_cases hidle : (i.terminated || i.paused) = true
  · simp [account, fetches, hidle]
  · obtain ⟨hlive, hactive⟩ : i.terminated = false ∧ i.paused = false := by simpa using hidle
    have htriggers := i.triggers_account b steps w hlive hactive
    have hcame := triggered?_deliverAll (i := { i with posted := [] }) hlive b.now i.posted x
    simp only [Scope.triggered?, htriggers, fetches, hidle]
    exact hcame

end

variable {ω : Type} [World ω] {t : Template} {b : Beat} {x : Seat ω}

/-- Whatever the turns before it did, a turn finds what came until then. -/
theorem Seated.triggers {steps : Nat} {Q : Waitlist} {s : Stage ω} {todo : List Runner}
    (h : Seated t b x steps Q s todo) : x.stage.scope.triggers = s.scope.triggers := by
  induction h with
  | here _ hx =>
    subst hx
    rfl
  | paused _ _ ih => exact ih
  | later _ _ _ ih =>
    rw [replay_takeTurn, Stage.triggers_replayAll] at ih
    exact ih

theorem Seats.triggers {i : Instance} {steps : Nat} {w : ω} (h : i.Seats b steps w x) :
    x.stage.scope.triggers = (i.account b steps w).inst.scope.triggers := by
  rw [h.seated.triggers, i.triggers_account b steps w h.live h.active]

end Instance

/-! ### All stories -/

namespace Host

/-- When a message last came to the story of some id. -/
def recalled (is : List Instance) (n : Nat) (x : String) : Option Int :=
  (is.find? (·.id = n)).bind (·.scope.triggered? x)

@[simp] theorem recalled_nil (n : Nat) (x : String) : recalled [] n x = none := rfl

theorem recalled_cons (i : Instance) (is : List Instance) (n : Nat) (x : String) :
    recalled (i :: is) n x = if i.id = n then i.scope.triggered? x else recalled is n x := by
  simp only [recalled, List.find?_cons]
  by_cases hid : i.id = n <;> simp [hid]

theorem recalled_append (is js : List Instance) (n : Nat) (x : String) :
    recalled (is ++ js) n x =
      if n ∈ is.map (·.id) then recalled is n x else recalled js n x := by
  induction is with
  | nil => simp
  | cons i is ih =>
    rw [List.cons_append, recalled_cons, recalled_cons, ih]
    by_cases hid : i.id = n
    · simp [hid]
    · simp [hid, Ne.symm hid]

theorem recalled_eq_none {is : List Instance} {n : Nat} (h : n ∉ is.map (·.id)) (x : String) :
    recalled is n x = none := by
  have hn := recalled_append is [] n x
  rw [List.append_nil, if_neg h] at hn
  exact hn

theorem recalled_of_mem {is : List Instance} (h : is.Pairwise (·.id < ·.id)) {i : Instance}
    (hi : i ∈ is) (x : String) : recalled is i.id x = i.scope.triggered? x := by
  induction h with
  | nil => simp at hi
  | @cons j is hj _ ih =>
    rw [recalled_cons]
    rcases List.mem_cons.1 hi with rfl | hi
    · simp
    · rw [if_neg (Nat.ne_of_lt (hj i hi)), ih hi]

variable {η : Type}

/-- What the granting of a request brings to the stories that run: their ids, with those of the
messages. -/
def brings (h : Host η) (r : Request) : List (Nat × String) :=
  (h.instances.filter (!·.terminated)).flatMap fun i => r.message?.toList.map (i.id, ·)

/-- What the granting of some requests brings to the stories that run. -/
def cameBy (h : Host η) (now : Int) : List Request → List (Nat × String)
  | [] => []
  | r :: rs => h.brings r ++ (h.grant now r).1.cameBy now rs

/-- What comes to the stories of a host in a tick: what is sent to all of them, and what they had
posted to themselves. -/
def arrivals (h : Host η) : List (Nat × String) :=
  h.emptied.cameBy h.clock h.board.requests ++
    h.opened.instances.flatMap fun i => i.fetches.map (i.id, ·)

/-- The story of some id is started between two hosts. -/
def Starts (h h' : Host η) (n : Nat) : Prop := h.nextId ≤ n ∧ n < h'.nextId

instance (h h' : Host η) (n : Nat) : Decidable (h.Starts h' n) := inferInstanceAs (Decidable (_ ∧ _))

theorem mem_brings {h : Host η} {r : Request} {n : Nat} {x : String} :
    (n, x) ∈ h.brings r ↔
      ∃ i ∈ h.instances, i.id = n ∧ i.terminated = false ∧ r.message? = some x := by
  simp only [brings, List.mem_flatMap, List.mem_filter, List.mem_map, Option.mem_toList,
    Prod.mk.injEq, Bool.not_eq_true']
  constructor
  · rintro ⟨i, ⟨hi, hlive⟩, _, hr, hid, rfl⟩
    exact ⟨i, hi, hid, hlive, hr⟩
  · rintro ⟨i, hi, hid, hlive, hr⟩
    exact ⟨i, ⟨hi, hlive⟩, x, hr, hid, rfl⟩

/-- What a story that is started remembers. -/
theorem started?_some {h : Host η} {r : Request} {i : Instance} (hs : h.started? r = some i) :
    i.id = h.nextId ∧ r.message? = none ∧ ∀ x, i.scope.triggered? x =
      if x = startMessage then some (h.reading h.nextId) else none := by
  obtain ⟨id, t, rfl, -, rfl⟩ := started?_eq_some hs
  refine ⟨(h.remains_newcomer t).id, rfl, fun x => ?_⟩
  rw [newcomer, Instance.triggered?_deliver, reading_nextId]
  simp only [true_and]
  rfl

/-- A request starts the story that has the next id, or none. -/
theorem starts_grant (h : Host η) (now : Int) (r : Request) (n : Nat) :
    h.Starts (h.grant now r).1 n ↔ n = h.nextId ∧ (h.started? r).isSome = true := by
  rw [Starts, nextId_grant]
  cases h.started? r with
  | none => simp
  | some i =>
    simp only [Option.toList_some, List.length_singleton, Option.isSome_some, and_true]
    omega

section
variable {h : Host η} (ho : h.Orderly)
include ho

theorem Orderly.notMem_ids {n : Nat} (hn : h.nextId ≤ n) : n ∉ h.instances.map (·.id) := by
  intro hmem
  obtain ⟨i, hi, rfl⟩ := List.mem_map.1 hmem
  exact absurd (ho.below i hi) (Nat.not_lt.2 hn)

theorem Orderly.lt_of_mem_brings {r : Request} {n : Nat} {x : String} (hb : (n, x) ∈ h.brings r) :
    n < h.nextId := by
  obtain ⟨i, hi, rfl, -⟩ := mem_brings.1 hb
  exact ho.below i hi

/-- A request is remembered by those to which it brings a message, and by the one that it starts. -/
theorem recalled_grant (now : Int) (r : Request) (n : Nat) (x : String) :
    recalled (h.grant now r).1.instances n x =
      if (n, x) ∈ h.brings r then some now
      else if x = startMessage ∧ h.Starts (h.grant now r).1 n then some (h.reading n)
      else recalled h.instances n x := by
  have hid (i : Instance) : (i.receive now r).id = i.id := (i.remains_receive now r).id
  have hids : (h.instances.map fun i => i.receive now r).map (·.id) = h.instances.map (·.id) := by
    rw [List.map_map]
    exact List.map_congr_left fun i _ => hid i
  rw [instances_grant, recalled_append, hids]
  by_cases hn : n ∈ h.instances.map (·.id)
  · -- The story has run before.
    obtain ⟨i, hi, rfl⟩ := List.mem_map.1 hn
    have hbrings : (i.id, x) ∈ h.brings r ↔ i.terminated = false ∧ r.message? = some x := by
      rw [mem_brings]
      constructor
      · rintro ⟨j, hj, hji, hlive, hr⟩
        obtain rfl := Instance.eq_of_id ho.ascending hj hi hji
        exact ⟨hlive, hr⟩
      · exact fun ⟨hlive, hr⟩ => ⟨i, hi, rfl, hlive, hr⟩
    have hold : ¬ h.Starts (h.grant now r).1 i.id := fun hstarts => ho.notMem_ids hstarts.1 hn
    have hascending : (h.instances.map fun i => i.receive now r).Pairwise (·.id < ·.id) := by
      simpa only [List.pairwise_map, hid] using ho.ascending
    have hreceive := recalled_of_mem hascending (List.mem_map_of_mem hi) x
    rw [hid] at hreceive
    rw [if_pos hn, hreceive, Instance.triggered?_receive, recalled_of_mem ho.ascending hi]
    simp only [hbrings, hold, and_false, if_false]
  · have hold : (n, x) ∉ h.brings r := fun hb => by
      obtain ⟨i, hi, hin, -⟩ := mem_brings.1 hb
      exact hn (List.mem_map.2 ⟨i, hi, hin⟩)
    rw [if_neg hn, if_neg hold, recalled_eq_none hn]
    simp only [starts_grant]
    cases hs : h.started? r with
    | none => simp
    | some i =>
      obtain ⟨hnext, -, hmemory⟩ := started?_some hs
      simp only [Option.toList_some, recalled_cons, recalled_nil, hmemory, hnext]
      by_cases hin : n = h.nextId
      · simp [hin]
      · simp [hin, Ne.symm hin]

end

theorem recalled_grantAll {h : Host η} (ho : h.Orderly) (now : Int) (rs : List Request) (n : Nat)
    (x : String) :
    recalled (h.grantAll now rs).1.instances n x =
      if (n, x) ∈ h.cameBy now rs then some now
      else if x = startMessage ∧ h.Starts (h.grantAll now rs).1 n then some (h.reading n)
      else recalled h.instances n x := by
  induction rs generalizing h with
  | nil =>
    have hnone : ¬ h.Starts h n := fun hstarts => Nat.not_lt.2 hstarts.1 hstarts.2
    simp [grantAll, cameBy, hnone]
  | cons r rs ih =>
    have hrs := ih (ho.grant now r)
    have hfirst := h.nextId_le_grant now r
    have hlast := (h.grant now r).1.nextId_grantAll now rs
    rw [recalled_grant ho] at hrs
    simp only [grantAll, cameBy, hrs, List.mem_append, Starts]
    by_cases hcame : (n, x) ∈ (h.grant now r).1.cameBy now rs
    · simp [hcame]
    by_cases hbrings : (n, x) ∈ h.brings r
    · have hn := ho.lt_of_mem_brings hbrings
      simp [hcame, hbrings, Nat.not_le.2 (Nat.lt_of_lt_of_le hn hfirst)]
    -- The story is started by this request, or by one of the others, or by none.
    rcases Nat.lt_or_ge n (h.grant now r).1.nextId with hn | hn
    · simp [hcame, hbrings, hn, Nat.not_le.2 hn, Nat.lt_of_lt_of_le hn hlast]
    · simp [hcame, hbrings, hn, Nat.not_lt.2 hn, hfirst.trans hn, reading_grant]

/-- What the stories fetch from their posts in a tick is remembered by them, and by no others. -/
theorem recalled_runInstances {ω : Type} [World ω] (b : Instance.Beat) (steps : Nat) (w : ω)
    {is : List Instance} (h : is.Pairwise (·.id < ·.id)) (n : Nat) (x : String) :
    recalled (runInstances b steps w is).1 n x =
      if (n, x) ∈ is.flatMap (fun i => i.fetches.map (i.id, ·)) then some b.now
      else recalled is n x := by
  induction h generalizing w with
  | nil => rfl
  | @cons i is hi _ ih =>
    have hid := (i.remains_account b steps w).id
    have hfirst (hn : i.id = n) : (n, x) ∉ is.flatMap fun i => i.fetches.map (i.id, ·) := by
      simp only [List.mem_flatMap, List.mem_map, Prod.mk.injEq, not_exists, not_and]
      exact fun j hj _ _ hjn => absurd (hn.trans hjn.symm) (Nat.ne_of_lt (hi j hj))
    have htick := recalled_cons (i.account b steps w).inst
      (runInstances b steps (i.account b steps w).world is).1 n x
    rw [hid, Instance.triggered?_account, ih] at htick
    rw [recalled_cons, List.flatMap_cons]
    refine htick.trans ?_
    by_cases hn : i.id = n
    · simp [hn, hfirst hn]
    · simp [hn]

/-- What comes in a tick is remembered, and so is the start of a story that begins in it; all else is
left as it was. -/
theorem recalled_ran [HostFunctions η] {h : Host η} (ho : h.Orderly) (delta : Int) (n : Nat)
    (x : String) :
    recalled (h.ran delta) n x =
      if (n, x) ∈ h.arrivals then some h.clock
      else if x = startMessage ∧ h.Starts h.opened n then some (h.reading n)
      else recalled h.instances n x := by
  have hran := recalled_runInstances (h.beat delta) h.opened.steps h.scene ho.opened.ascending n x
  have hopened := recalled_grantAll ho.emptied h.clock h.board.requests n x
  rw [ran, hran, opened, hopened, arrivals, opened]
  simp only [List.mem_append]
  by_cases hfetch : (n, x) ∈ (h.emptied.grantAll h.clock h.board.requests).1.instances.flatMap
      fun i => i.fetches.map (i.id, ·)
  · simp only [hfetch, or_true, if_true]
    rfl
  · simp only [hfetch, or_false, if_false]
    rfl

/-! ### Turns of a host -/

section
variable {ω : Type} [World ω]

/-- The stories of a tick, each with the world as it finds it. -/
def lineup (b : Instance.Beat) (steps : Nat) (w : ω) : List Instance → List (Instance × ω)
  | [] => []
  | i :: is => (i, w) :: lineup b steps (i.account b steps w).world is

theorem runInstances_eq (b : Instance.Beat) (steps : Nat) (w : ω) (is : List Instance) :
    (runInstances b steps w is).1 =
        (lineup b steps w is).map (fun p => (p.1.account b steps p.2).inst) ∧
      (runInstances b steps w is).2.2 =
        (lineup b steps w is).map fun p => (p.1.id, (p.1.account b steps p.2).turns) := by
  induction is generalizing w with
  | nil => exact ⟨rfl, rfl⟩
  | cons i is ih =>
    obtain ⟨hleft, hturns⟩ := ih (i.account b steps w).world
    exact ⟨congrArg (_ :: ·) hleft, congrArg (_ :: ·) hturns⟩

theorem map_fst_lineup (b : Instance.Beat) (steps : Nat) (w : ω) (is : List Instance) :
    (lineup b steps w is).map (·.1) = is := by
  induction is generalizing w with
  | nil => rfl
  | cons i is ih => exact congrArg (i :: ·) (ih _)

end

variable [HostFunctions η]

/-- The stories that run in a tick, each with what is around it when it is its turn. -/
def lined (h : Host η) (delta : Int) : List (Instance × Surroundings η) :=
  lineup (h.beat delta) h.opened.steps h.scene h.opened.instances

/-- What is found in a turn of the story of some id in a tick. -/
def Seats (h : Host η) (delta : Int) (n : Nat) (x : Instance.Seat (Surroundings η)) : Prop :=
  ∃ p ∈ h.lined delta, p.1.id = n ∧ p.1.Seats (h.beat delta) h.opened.steps p.2 x

theorem ran_eq (h : Host η) (delta : Int) :
    h.ran delta = (h.lined delta).map fun p =>
      (p.1.account (h.beat delta) h.opened.steps p.2).inst :=
  (runInstances_eq _ _ _ _).1

theorem turns_tick (h : Host η) (delta : Int) :
    (h.tick delta).2.turns = (h.lined delta).map fun p =>
      (p.1.id, (p.1.account (h.beat delta) h.opened.steps p.2).turns) :=
  (runInstances_eq _ _ _ _).2

theorem mem_opened {h : Host η} {delta : Int} {p : Instance × Surroundings η}
    (hp : p ∈ h.lined delta) : p.1 ∈ h.opened.instances := by
  rw [← map_fst_lineup (h.beat delta) h.opened.steps h.scene h.opened.instances]
  exact List.mem_map_of_mem hp

namespace Seats
variable {h : Host η} {delta : Int} {n : Nat} {x : Instance.Seat (Surroundings η)}

theorem now (hx : h.Seats delta n x) : x.moment.now = h.clock := by
  obtain ⟨p, -, -, hseats⟩ := hx
  rw [hseats.seated.moment]
  rfl

end Seats
end Host
end StoryScript
