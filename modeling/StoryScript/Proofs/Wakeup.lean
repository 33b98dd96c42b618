import Mathlib.Algebra.Order.BigOperators.Group.Finset
import StoryScript.Proofs.Arrivals

/-! Waits for a message over the life of a host. The clock of a host never goes back and moves on from
each tick to the next; it may go on during a tick as well. Then what a story remembers of a message
tells whether it came after some tick, and a wait for a message is satisfied exactly when one of its
messages has come to its story since the tick in which it began. The message with which a story starts
is a case of its own, as it is neither sent to all stories nor posted: in the tick in which its story
starts, it can be later than the beginning of the tick. -/
namespace StoryScript.Host
variable {η : Type} [HostFunctions η]

/-- The lives of hosts: the hosts that were given a tick, with its length, the last one first. The clock
may move on during a call and between two calls, and from the beginning of a tick to that of the next
it has. -/
inductive Lived : List (Host η × Int) → Host η → Prop
  | new (l : Library) (hl : l.Built) (functions : η) (clock : Int) {drift : Nat → Int}
      (hdrift : ∀ n, 0 ≤ drift n) (steps : Nat) :
      Lived [] { library := l, functions, clock, drift, steps }
  | later {ts : List (Host η × Int)} {h : Host η} (hl : Lived ts h) {now : Int}
      (hnow : h.clock ≤ now) : Lived ts (h.asOf now)
  | call {ts : List (Host η × Int)} {h : Host η} (hl : Lived ts h) (c : Call)
      (hc : ∀ delta, c ≠ .tick delta) : Lived ts (h.obey c)
  | tick {ts : List (Host η × Int)} {h : Host η} (hl : Lived ts h)
      (hlater : ∀ p ∈ ts, p.1.clock < h.clock) (delta : Int) :
      Lived ((h, delta) :: ts) (h.tick delta).1

/-! ### The clock -/

section
omit [HostFunctions η]

theorem clock_le_grant {h : Host η} (hdrift : ∀ n, 0 ≤ h.drift n) (now : Int) (r : Request) :
    h.clock ≤ (h.grant now r).1.clock := by
  rw [clock_grant]
  exact le_add_of_nonneg_right (Finset.sum_nonneg fun k _ => hdrift k)

theorem clock_le_opened {h : Host η} (hdrift : ∀ n, 0 ≤ h.drift n) : h.clock ≤ h.opened.clock := by
  rw [opened, clock_grantAll]
  exact le_add_of_nonneg_right (Finset.sum_nonneg fun k _ => hdrift k)

/-- A story that starts in a tick does so before the stories run. -/
theorem reading_le_opened {h : Host η} (hdrift : ∀ n, 0 ≤ h.drift n) {n : Nat}
    (hn : n < h.opened.nextId) : h.reading n ≤ h.opened.clock := by
  have hstarted : Finset.Ico h.nextId (n + 1) ⊆ Finset.Ico h.nextId h.opened.nextId :=
    Finset.Ico_subset_Ico_right hn
  rw [reading, opened, clock_grantAll]
  exact add_le_add_right (Finset.sum_le_sum_of_subset_of_nonneg hstarted fun k _ _ => hdrift k) _

end

/-! ### Calls between ticks -/

/-- What a call between ticks leads to. -/
structure Quiet (h h' : Host η) : Prop where
  clock : h.clock ≤ h'.clock
  drift : h'.drift = h.drift
  ticks : h'.ticks = h.ticks
  nextId : h.nextId ≤ h'.nextId
  instances : ∀ i' ∈ h'.instances,
    (∃ i ∈ h.instances, i'.id = i.id ∧ i'.scope = i.scope ∧ i'.runners = i.runners) ∨
      h.reading h.nextId ≤ h'.clock ∧ ∃ r, h.started? r = some i'

omit [HostFunctions η] in
theorem quiet_grant {h : Host η} (hdrift : ∀ n, 0 ≤ h.drift n) (now : Int) {r : Request}
    (hr : r.message? = none) : Quiet h (h.grant now r).1 := by
  have hsite := h.sameSite_grant now r
  refine ⟨clock_le_grant hdrift now r, hsite.drift, hsite.ticks, h.nextId_le_grant now r,
    fun i' hi' => ?_⟩
  rcases mem_grant hi' with ⟨i, hi, rfl⟩ | hstarted
  · refine .inl ⟨i, hi, (i.remains_receive now r).id, ?_⟩
    cases r with
    | send => cases hr
    | stop id | pause id paused =>
      simp only [Instance.receive]
      split <;> exact ⟨rfl, rfl⟩
    | start | pauseHandlers => exact ⟨rfl, rfl⟩
  · refine .inr ⟨?_, r, hstarted⟩
    rw [reading_nextId, clock_grant, nextId_grant, hstarted]
    simp

theorem quiet_obey {h : Host η} (hdrift : ∀ n, 0 ≤ h.drift n) {c : Call}
    (hc : ∀ delta, c ≠ .tick delta) : Quiet h (h.obey c) := by
  cases c with
  | start id =>
    rw [obey_start]
    exact quiet_grant hdrift _ rfl
  | stop id => exact quiet_grant (r := .stop id) hdrift h.clock rfl
  | send m args concurrent =>
    exact ⟨le_rfl, rfl, rfl, le_rfl, fun i hi => .inl ⟨i, hi, rfl, rfl, rfl⟩⟩
  | tick delta => exact absurd rfl (hc delta)

/-! ### What is remembered -/

namespace Lived
variable {ts : List (Host η × Int)} {h : Host η}

theorem orderly (hl : Lived ts h) : h.Orderly := by
  induction hl with
  | new l hl functions clock _ steps => exact (Reached.new l hl functions clock _ steps).orderly
  | later _ _ ih => exact ih.asOf _
  | call _ c _ ih => exact ih.obey c
  | tick _ _ delta ih => exact ih.tick delta

/-- The clock never goes back during a call. -/
theorem drift (hl : Lived ts h) : ∀ n, 0 ≤ h.drift n := by
  induction hl with
  | new _ _ _ _ hdrift => exact hdrift
  | later _ _ ih => exact ih
  | @call _ h _ c hc ih =>
    rw [(quiet_obey ih hc).drift]
    exact ih
  | @tick _ h _ _ delta ih =>
    have hdrift : (h.tick delta).1.drift = h.drift := h.sameSite_opened.drift
    rw [hdrift]
    exact ih

/-- The ticks of a host lie before it, and so do the stories that were there in them. -/
theorem past (hl : Lived ts h) : ∀ p ∈ ts,
    p.1.clock ≤ h.clock ∧ p.1.ticks < h.ticks ∧ p.1.opened.nextId ≤ h.nextId := by
  induction hl with
  | new => simp
  | later _ hnow ih =>
    intro p hp
    obtain ⟨hclock, hticks, hid⟩ := ih p hp
    exact ⟨Int.le_trans hclock hnow, hticks, hid⟩
  | @call _ h hl c hc ih =>
    intro p hp
    obtain ⟨hclock, hticks, hid⟩ := ih p hp
    have hquiet := quiet_obey hl.drift hc
    rw [hquiet.ticks]
    exact ⟨Int.le_trans hclock hquiet.clock, hticks, Nat.le_trans hid hquiet.nextId⟩
  | @tick _ h hl _ delta ih =>
    have hticks : (h.tick delta).1.ticks = h.ticks + 1 := h.sameSite_opened.ticks
    have hclock := clock_le_opened hl.drift
    rw [clock_tick, hticks]
    refine List.forall_mem_cons.2 ⟨⟨hclock, Nat.lt_succ_self _, Nat.le_refl _⟩, fun p hp => ?_⟩
    obtain ⟨hp₁, hp₂, hp₃⟩ := ih p hp
    exact ⟨Int.le_trans hp₁ hclock, Nat.lt_succ_of_lt hp₂,
      Nat.le_trans hp₃ (h.emptied.nextId_grantAll _ _)⟩

end Lived

omit [HostFunctions η] in
theorem recalled_eq_some {is : List Instance} {n : Nat} {x : String} {c : Int}
    (h : recalled is n x = some c) : ∃ i ∈ is, i.id = n ∧ i.scope.triggered? x = some c := by
  obtain ⟨i, hi, hc⟩ := Option.bind_eq_some_iff.1 h
  exact ⟨i, List.mem_of_find?_eq_some hi, by simpa using List.find?_some hi, hc⟩

/-- What stories remember lies before some time. -/
def Bounded (is : List Instance) (now : Int) : Prop :=
  ∀ i ∈ is, ∀ x, ∀ c ∈ i.scope.triggered? x, c ≤ now

/-- The story of some id starts in a tick at a time after the beginning of the tick, and the message
with which it starts is neither sent to it nor posted by it besides. -/
def StartsLate (h : Host η) (n : Nat) : Prop :=
  h.Starts h.opened n ∧ h.clock < h.reading n ∧ (n, startMessage) ∉ h.arrivals

omit [HostFunctions η] in
/-- No story starts late if the clock stands still in a tick. -/
theorem not_startsLate {h : Host η} (hstill : ∀ n, h.drift n = 0) (n : Nat) : ¬ h.StartsLate n := by
  rintro ⟨-, hlate, -⟩
  simp [reading, hstill] at hlate

/-- What stories remember of a message tells whether it came after a tick in which they were there, or
with a start that was late in that tick. -/
def Told (ts : List (Host η × Int)) (is : List Instance) : Prop :=
  ∀ s ∈ ts, ∀ i ∈ is, i.id < s.1.opened.nextId → ∀ x,
    (i.scope.triggered? x).any (s.1.clock < ·) = true ↔
      (∃ d ∈ ts, s.1.ticks < d.1.ticks ∧ (i.id, x) ∈ d.1.arrivals) ∨
        x = startMessage ∧ s.1.StartsLate i.id

theorem bounded_ran {h : Host η} (ho : h.Orderly) (hdrift : ∀ n, 0 ≤ h.drift n)
    (hb : Bounded h.instances h.clock) (delta : Int) : Bounded (h.ran delta) h.opened.clock := by
  intro i hi x c hc
  have hrecall := recalled_ran ho delta i.id x
  rw [recalled_of_mem (ho.ascending_ran delta) hi, hc] at hrecall
  split at hrecall
  · obtain rfl := Option.some.inj hrecall
    exact clock_le_opened hdrift
  · split at hrecall
    · next hstart =>
      obtain rfl := Option.some.inj hrecall
      exact reading_le_opened hdrift hstart.2.2
    · obtain ⟨j, hj, -, hold⟩ := recalled_eq_some hrecall.symm
      exact Int.le_trans (hb j hj x c hold) (clock_le_opened hdrift)

/-- The stories that run in a tick were there before it or have started in it. -/
theorem mem_of_ran {h : Host η} {delta : Int} {i : Instance} (hi : i ∈ h.ran delta)
    (hid : i.id < h.nextId) : ∃ j ∈ h.instances, j.id = i.id := by
  have hmem : i.id ∈ h.opened.instances.map (·.id) := h.ids_ran delta ▸ List.mem_map_of_mem hi
  obtain ⟨newer, hinstances, hnewer⟩ := h.emptied.instances_grantAll h.clock h.board.requests
  rw [opened, hinstances, List.map_append, List.mem_append] at hmem
  rcases hmem with hmem | hmem
  · obtain ⟨j', hj', hji⟩ := List.mem_map.1 hmem
    obtain ⟨j, hj, rfl⟩ := List.mem_map.1 hj'
    rw [(j.remains_receiveAll _ _).id] at hji
    exact ⟨j, hj, hji⟩
  · obtain ⟨j, hj, hji⟩ := List.mem_map.1 hmem
    have hnew : h.nextId ≤ j.id := (hnewer j hj).1
    omega

theorem recalled_le {is : List Instance} {now : Int} (hb : Bounded is now) (n : Nat) (x : String) :
    ¬ (recalled is n x).any (now < ·) = true := by
  intro hany
  obtain ⟨c, hc, hlt⟩ := (Option.any_eq_true _ _).1 hany
  obtain ⟨i, hi, -, hold⟩ := recalled_eq_some hc
  exact absurd (hb i hi x c hold) (by simpa using hlt)

/-- A tick comes after those before it, so what came in it came after them. -/
theorem told_ran {ts : List (Host η × Int)} {h : Host η} (ho : h.Orderly)
    (hpast : ∀ p ∈ ts, p.1.clock < h.clock ∧ p.1.ticks < h.ticks ∧ p.1.opened.nextId ≤ h.nextId)
    (hb : Bounded h.instances h.clock) (ht : Told ts h.instances) (delta : Int) :
    Told ((h, delta) :: ts) (h.ran delta) := by
  intro s hs i hi hborn x
  have hrecall := recalled_ran ho delta i.id x
  rw [recalled_of_mem (ho.ascending_ran delta) hi] at hrecall
  rw [hrecall]
  rcases List.mem_cons.1 hs with rfl | hs
  · -- Nothing has come since this tick, so only a late start can be later than it.
    have hnone : ¬ ∃ d ∈ (h, delta) :: ts, h.ticks < d.1.ticks ∧ (i.id, x) ∈ d.1.arrivals := by
      rintro ⟨d, hd, hlater, -⟩
      rcases List.mem_cons.1 hd with rfl | hd
      · exact Nat.lt_irrefl _ hlater
      · exact Nat.lt_asymm hlater (hpast d hd).2.1
    rw [or_iff_right hnone]
    by_cases hcame : (i.id, x) ∈ h.arrivals
    · rw [if_pos hcame]
      refine iff_of_false (by simp) ?_
      rintro ⟨rfl, hlate⟩
      exact hlate.2.2 hcame
    · rw [if_neg hcame]
      by_cases hstart : x = startMessage ∧ h.Starts h.opened i.id
      · obtain ⟨rfl, hstarts⟩ := hstart
        simp [StartsLate, hstarts, hcame]
      · rw [if_neg hstart]
        refine iff_of_false (recalled_le hb i.id x) ?_
        rintro ⟨rfl, hlate⟩
        exact hstart ⟨rfl, hlate.1⟩
  · obtain ⟨hclock, hticks, hid⟩ := hpast s hs
    by_cases hcame : (i.id, x) ∈ h.arrivals
    · rw [if_pos hcame]
      refine iff_of_true (by simpa using hclock) (.inl ⟨(h, delta), List.mem_cons_self, hticks, hcame⟩)
    · have hbefore : i.id < h.nextId := Nat.lt_of_lt_of_le hborn hid
      have hold : ¬ (x = startMessage ∧ h.Starts h.opened i.id) :=
        fun hstart => Nat.not_lt.2 hstart.2.1 hbefore
      obtain ⟨j, hj, hji⟩ := mem_of_ran hi hbefore
      have htold := ht s hs j hj (hji ▸ hborn) x
      rw [if_neg hcame, if_neg hold, ← hji, recalled_of_mem ho.ascending hj, htold, hji]
      refine or_congr_left ⟨?_, ?_⟩
      · rintro ⟨d, hd, hafter, harrived⟩
        exact ⟨d, List.mem_cons_of_mem _ hd, hafter, harrived⟩
      · rintro ⟨d, hd, hafter, harrived⟩
        rcases List.mem_cons.1 hd with rfl | hd
        · exact absurd harrived hcame
        · exact ⟨d, hd, hafter, harrived⟩

namespace Lived
variable {ts : List (Host η × Int)} {h : Host η}

theorem bounded (hl : Lived ts h) : Bounded h.instances h.clock := by
  induction hl with
  | new => simp [Bounded]
  | later _ hnow ih => exact fun i hi x c hc => Int.le_trans (ih i hi x c hc) hnow
  | @call _ h hl c hc ih =>
    have hquiet := quiet_obey hl.drift hc
    intro i hi x c hx
    rcases hquiet.instances i hi with ⟨j, hj, -, hscope, -⟩ | ⟨hreading, r, hs⟩
    · exact Int.le_trans (ih j hj x c (hscope ▸ hx)) hquiet.clock
    · rw [(started?_some hs).2.2] at hx
      split at hx
      · obtain rfl := Option.some.inj hx
        exact hreading
      · cases hx
  | @tick _ h hl _ delta ih =>
    rw [clock_tick, instances_tick]
    exact fun i hi => bounded_ran hl.orderly hl.drift ih delta i (List.mem_filter.1 hi).1

theorem told (hl : Lived ts h) : Told ts h.instances := by
  induction hl with
  | new => simp [Told]
  | later _ _ ih => exact ih
  | @call _ h hl c hc ih =>
    intro s hs i hi hborn x
    rcases (quiet_obey hl.drift hc).instances i hi with ⟨j, hj, hid, hscope, -⟩ | ⟨-, r, hstarted⟩
    · have hold := ih s hs j hj (hid ▸ hborn) x
      rwa [hid, hscope]
    · -- A story that is new was not there in any tick.
      have hold := (hl.past s hs).2.2
      have hnew := (started?_some hstarted).1
      omega
  | @tick _ h hl hlater delta ih =>
    have hpast := fun p hp => And.intro (hlater p hp) (hl.past p hp).2
    rw [instances_tick]
    exact fun s hs i hi => told_ran hl.orderly hpast hl.bounded ih delta s hs i (List.mem_filter.1 hi).1

end Lived

/-! ### Careers -/

/-- A turn in the life of a host: the host that was given the tick, its length, and what was found in
the turn. -/
structure Sitting (η : Type) where
  host : Host η
  delta : Int
  seat : Instance.Seat (Surroundings η)

/-- The last command that began in a turn. -/
def Sitting.began? (x : Sitting η) : Option Command := lastBegan? x.seat.tick.events

/-- What a look at a wait comes to in a turn, in some block and on some stage. -/
def Sitting.verdict (x : Sitting η) (q : Queue) (s : Stage (Surroundings η))
    (wait : Await Operand) (watch : Watch) : Verdict :=
  (wait.map (q.read x.seat.moment s)).verdict watch x.seat.moment.now x.seat.moment.delta s

/-- The turns of one handler of the story of some id, the last one first, from its beginning on. -/
inductive Career (ts : List (Host η × Int)) (n : Nat) : List (Sitting η) → Runner → Prop
  | begins {t : Template} {m : Message} {r : Runner} (hr : Instance.activate? t m = some r) :
      Career ts n [] r
  | sits {past : List (Sitting η)} {x : Sitting η} (h : Career ts n past x.seat.runner)
      (htick : (x.host, x.delta) ∈ ts) (hseats : x.host.Seats x.delta n x.seat)
      (hlater : ∀ y ∈ past, y.host.ticks < x.host.ticks) : Career ts n (x :: past) x.seat.left

namespace Career
variable {ts : List (Host η × Int)} {n : Nat} {past : List (Sitting η)} {r : Runner}

theorem mono {ts' : List (Host η × Int)} (hsub : ∀ p ∈ ts, p ∈ ts') (h : Career ts n past r) :
    Career ts' n past r := by
  induction h with
  | begins hr => exact .begins hr
  | sits _ htick hseats hlater ih => exact .sits ih (hsub _ htick) hseats hlater

/-- A wait for a message that is under way has noted the time of the tick in which it began, and
nothing has begun after it. It was run in that tick, and was pending. -/
theorem began (h : Career ts n past r) {wait : Await Operand} {watch : Watch}
    (hw : r.queue.waiting = some (.goal wait watch)) (hgoal : wait.goal.sinceStart = true) :
    ∃ first, past.find? (·.began?.isSome) = some first ∧ first.began? = some (.await wait) ∧
      watch.start = some first.host.clock ∧
        ∃ q s, Queue.Looks first.seat.moment (.goal wait {}) q s
          { first.seat.runner.queue with deferred := false } first.seat.stage ∧
            first.verdict q s wait {} = .pending := by
  induction h generalizing watch with
  | begins hr =>
    obtain ⟨block, -, rfl⟩ := Option.map_eq_some_iff.1 hr
    cases hw
  | @sits past x _ _ hseats _ ih =>
    rcases Queue.waiting_of_tick _ _ _ _ hw hgoal with
      ⟨hlast, hstart, hlook⟩ | ⟨hlast, old, hold, hstart, -⟩
    · have hbegan : x.began? = some (.await wait) := hlast
      exact ⟨x, by simp [hbegan], hbegan, hseats.now ▸ hstart, hlook⟩
    · have hbegan : x.began? = none := hlast
      obtain ⟨first, hfind, hfirst, hnoted, hlook⟩ := ih hold
      exact ⟨first, by simpa [hbegan] using hfind, hfirst, by simpa [hnoted] using hstart, hlook⟩

end Career

namespace Lived
variable {ts : List (Host η × Int)} {h : Host η}

end Lived

/-! ### Waits for a message -/

section
variable {ts : List (Host η × Int)} {h : Host η} (hl : Lived ts h) {n : Nat} {x : Sitting η}
  (htick : (x.host, x.delta) ∈ ts) (hseats : x.host.Seats x.delta n x.seat)
include hl htick hseats

variable {past : List (Sitting η)} (hpast : Career ts n past x.seat.runner)
  (hlater : ∀ y ∈ past, y.host.ticks < x.host.ticks)
include hpast hlater

end

/-- A story that waits for a message. -/
def listener : Template :=
  ⟨"listener", false, (∅ : Table (List Command)).insert "start"
    [.await ⟨.message [Operand.literal (.text "go")], {}⟩]⟩

/-- A host in which the listener has been started. The clock goes on by three milliseconds for every
story that starts. -/
def listening : Host NoFunctions :=
  ({ library := (∅ : Library).insert "listener" listener, functions := ⟨⟩, drift := fun _ => 3 } :
    Host NoFunctions).obey (.start "listener")

/-- The host after a tick, in which the listener was sent its message. -/
def called : Host NoFunctions := ((listening.asOf 10).tick 10).1.obey (.send "go" [] false)

end StoryScript.Host
