import StoryScript.Proofs.Reach
import StoryScript.Proofs.TurnOrder

/-! What is always so of the stories of a host. Every handler at work and every message that waits
belongs to a handler of the story, a message waits only for a handler that is at work, and a handler
that has had a turn has commands left. The ids of stories ascend, and none is given twice. -/
namespace StoryScript

/-! ### One story -/

namespace Instance

/-- A story in which every handler is one of its own, and no message waits in vain. -/
structure Staffed (i : Instance) : Prop where
  /-- What is at work are handlers of the story. -/
  answers : ∀ r ∈ i.runners, i.template.answers r.message.id
  /-- What waits for a handler is sent to it, and the handler is one of the story. -/
  waiting : ∀ id, ∀ m ∈ i.queued.of id, m.id = id ∧ i.template.answers id
  /-- A handler for which messages wait is at work. -/
  busy : ∀ id, i.queued.of id ≠ [] → i.isBusy id = true

theorem Keeps.staffed {i : Instance} {J : Journal} (h : i.Keeps J) (hlive : i.terminated = false) :
    i.Staffed := by
  obtain ⟨R, Q, posts, hJ, -, hleft⟩ := h
  obtain ⟨rfl, rfl, -⟩ := hleft hlive
  refine ⟨fun r hr => hJ.answers _ (List.mem_map_of_mem hr), fun id m hm => ?_, fun id hq => ?_⟩
  · obtain ⟨hid, -, ha⟩ := hJ.waiting id m hm
    exact ⟨hid, ha⟩
  · exact isBusy_iff.2 (hJ.busy id hq)

/-- The first message that waits for a handler begins when it is let in. -/
theorem Staffed.activates {i : Instance} (h : i.Staffed) {id : String} {m : Message} {Q : Waitlist}
    (hp : i.queued.pop? id = some (m, Q)) : ∃ r, activate? i.template m = some r := by
  have hmem : m ∈ i.queued.of id := by
    rw [Waitlist.of_of_pop? hp, if_pos rfl]
    exact List.mem_cons_self
  obtain ⟨rfl, ha⟩ := h.waiting id m hmem
  obtain ⟨block, hb⟩ := Option.isSome_iff_exists.1 ha
  exact ⟨_, by rw [activate?, hb]; rfl⟩

/-- A message is lost on a story that was terminated. -/
theorem deliver_of_terminated {i : Instance} (hover : i.terminated = true) (m : Message) (now : Int) :
    i.deliver m now = i := by
  simp [deliver, fate, hover, take]

theorem staffed_deliver {i : Instance} {J : Journal} (hk : i.Keeps J) (h : i.Staffed) (m : Message)
    (now : Int) : (i.deliver m now).Staffed := by
  cases hlive : i.terminated with
  | true => rwa [deliver_of_terminated hlive]
  | false =>
    obtain ⟨K, hK⟩ := (i.remains_deliver m now).keeps J hk
    exact hK.staffed (by simp [hlive])

theorem staffed_receive {i : Instance} {J : Journal} (hk : i.Keeps J) (h : i.Staffed) (now : Int)
    (r : Request) : (i.receive now r).Staffed := by
  cases r with
  | send m args concurrent => exact staffed_deliver hk h _ now
  | stop id | pause id paused =>
    simp only [receive]
    split
    · exact ⟨h.answers, h.waiting, h.busy⟩
    · exact h
  | start | pauseHandlers => exact h

variable {ω : Type} [World ω]

/-- Nothing happens in the tick of a story that was terminated. -/
theorem account_of_terminated {i : Instance} (hover : i.terminated = true) (b : Beat) (steps : Nat)
    (w : ω) : i.account b steps w = ⟨i, w, [], []⟩ := by
  simp [account, hover]

/-- A story that is terminated in its tick is left without handlers and messages. -/
theorem runAll_of_terminates {t : Template} {b : Beat} (steps : Nat) (seen : List Runner)
    (Q : Waitlist) (s : Stage ω) (todo : List Runner)
    (h : (Turn.effects (runAll t b steps seen Q s todo).turns).any Effect.terminates = true) :
    (runAll t b steps seen Q s todo).runners = [] ∧ (runAll t b steps seen Q s todo).queued = ∅ := by
  fun_induction runAll t b steps seen Q s todo with
  | case1 => simp [Turn.effects] at h
  | case2 _ _ _ _ _ _ _ ih => exact ih h
  | case3 => exact ⟨rfl, rfl⟩
  | case4 steps seen Q s r todo hpaused shift hgoes =>
    rename_i ih
    have hends : (effectsOf shift.turn.events).any Effect.terminates = false := by
      simpa [endsStory] using hgoes
    exact ih (by simpa [Round.after, hends] using h)

theorem emptied_account {i : Instance} (hlive : i.terminated = false) (b : Beat) (steps : Nat) (w : ω)
    (h : (i.account b steps w).inst.terminated = true) :
    (i.account b steps w).inst.runners = [] ∧ (i.account b steps w).inst.queued = ∅ := by
  unfold account at h ⊢
  split at h
  · exact absurd h (by simp [hlive])
  · next hidle =>
    have hcame := (terminated_deliverPosted i b.now).trans hlive
    rw [if_neg hidle]
    dsimp only at h ⊢
    rw [terminated_settle _ _ hcame] at h
    have hqueued (r : Round ω) : ((i.deliverPosted b.now).1.settle r).queued = r.queued := by
      unfold settle
      split <;> rfl
    rw [runners_settle, hqueued]
    exact runAll_of_terminates _ _ _ _ _ h

theorem staffed_account {i : Instance} {J : Journal} (hk : i.Keeps J) (h : i.Staffed) (b : Beat)
    (steps : Nat) (w : ω) : (i.account b steps w).inst.Staffed := by
  obtain ⟨K, hK⟩ := (i.remains_account b steps w).keeps J hk
  cases hafter : (i.account b steps w).inst.terminated with
  | false => exact hK.staffed hafter
  | true =>
    cases hlive : i.terminated with
    | true => rwa [account_of_terminated hlive]
    | false =>
      obtain ⟨hrunners, hqueued⟩ := emptied_account hlive b steps w hafter
      exact ⟨by simp [hrunners], by simp [hqueued], by simp [hqueued]⟩

/-! ### Turns -/

/-- A handler that was not held back in a tick and is still at work has commands left. -/
theorem isEmpty_runAll {t : Template} {b : Beat} (steps : Nat) (seen : List Runner) (Q : Waitlist)
    (s : Stage ω) (todo : List Runner) (h : ∀ r ∈ seen, b.holds r = false → r.queue.isEmpty = false) :
    ∀ r ∈ (runAll t b steps seen Q s todo).runners, b.holds r = false → r.queue.isEmpty = false := by
  fun_induction runAll t b steps seen Q s todo with
  | case1 => exact h
  | case2 steps seen Q s r todo hpaused ih =>
    refine ih fun r' hr' hfree => ?_
    rcases List.mem_append.1 hr' with hr' | hr'
    · exact h r' hr' hfree
    · obtain rfl := List.mem_singleton.1 hr'
      rw [Beat.holds, hpaused] at hfree
      cases hfree
  | case3 => simp
  | case4 steps seen Q s r todo hpaused shift hgoes =>
    rename_i ih
    refine ih fun r' hr' hfree => ?_
    rcases List.mem_append.1 hr' with hr' | hr'
    · exact h r' hr' hfree
    · -- The handler stays just because it has commands left.
      simp only [shift, takeTurn] at hr'
      split at hr'
      · simp at hr'
      · next hmore =>
        obtain rfl := List.mem_singleton.1 hr'
        simpa using hmore

/-- The handler that a message begins, if it begins one. -/
def Fate.begun : Fate → List Runner
  | .begins r => [r]
  | .lost | .unanswered | .waits => []

omit [World ω] in
theorem runners_deliver (i : Instance) (m : Message) (now : Int) :
    (i.deliver m now).runners = i.runners ++ (i.fate m).begun := by
  unfold deliver
  cases i.fate m <;> simp [take, note, Fate.begun]

omit [World ω] in
theorem runners_deliverAll (now : Int) (i : Instance) (ms : List Message) :
    (deliverAll now i ms).1.runners =
      i.runners ++ (deliverAll now i ms).2.flatMap (·.fate.begun) := by
  induction ms generalizing i with
  | nil => simp [deliverAll]
  | cons m ms ih => simp [deliverAll, ih, runners_deliver]

/-- What some handlers are marked with when they begin. -/
def unmarked (rs : List Runner) : List (Runner × Bool) := rs.map (·, false)

/-- A story and its handlers at work, each marked with whether it has had a turn. -/
inductive Served (ω : Type) [World ω] : Instance → List (Runner × Bool) → Prop
  | new (n : Nat) (t : Template) : Served ω { id := n, template := t } []
  | deliver {i : Instance} {L : List (Runner × Bool)} (h : Served ω i L) (m : Message) (now : Int) :
      Served ω (i.deliver m now) (L ++ unmarked (i.fate m).begun)
  | pause {i : Instance} {L : List (Runner × Bool)} (h : Served ω i L) (paused : Bool) :
      Served ω { i with paused } L
  | terminate {i : Instance} {L : List (Runner × Bool)} (h : Served ω i L) : Served ω i.terminate L
  /-- In a tick the handlers that are held back keep their marks, and all others have had a turn. -/
  | tick {i : Instance} {L L' : List (Runner × Bool)} (h : Served ω i L)
      (hlive : i.terminated = false) (hactive : i.paused = false) (b : Beat) (steps : Nat) (w : ω)
      (hleft : L'.map (·.1) = (i.account b steps w).inst.runners)
      (hheld : (i.account b steps w).inst.terminated = false → L'.filter (b.holds ·.1) =
        (L ++ unmarked ((i.account b steps w).arrivals.flatMap (·.fate.begun))).filter (b.holds ·.1))
      (hturn : ∀ x ∈ L', b.holds x.1 = false → x.2 = true) :
      Served ω (i.account b steps w).inst L'

theorem map_unmarked (rs : List Runner) : (unmarked rs).map (·.1) = rs := by
  simp [unmarked, Function.comp_def]

theorem Served.runners {i : Instance} {L : List (Runner × Bool)} (h : Served ω i L) :
    L.map (·.1) = i.runners := by
  induction h with
  | new => rfl
  | deliver _ m now ih => rw [List.map_append, ih, map_unmarked, runners_deliver]
  | pause _ _ ih | terminate _ ih => exact ih
  | tick _ _ _ _ _ _ hleft => exact hleft

theorem isEmpty_account {i : Instance} (hlive : i.terminated = false) (hactive : i.paused = false)
    (b : Beat) (steps : Nat) (w : ω) : ∀ r ∈ (i.account b steps w).inst.runners,
      b.holds r = false → r.queue.isEmpty = false := by
  have hidle : ¬ (i.terminated || i.paused) = true := by simp [hlive, hactive]
  unfold account
  rw [if_neg hidle]
  dsimp only
  rw [runners_settle]
  exact isEmpty_runAll _ _ _ _ _ (by simp)

/-- A handler that has had a turn has commands left. -/
theorem Served.isEmpty {i : Instance} {L : List (Runner × Bool)} (h : Served ω i L) :
    ∀ r, (r, true) ∈ L → r.queue.isEmpty = false := by
  have hold {L : List (Runner × Bool)} {rs : List Runner} {r : Runner}
      (hr : (r, true) ∈ L ++ unmarked rs) : (r, true) ∈ L := by
    simpa [unmarked] using hr
  induction h with
  | new => simp
  | deliver _ _ _ ih => exact fun r hr => ih r (hold hr)
  | pause _ _ ih | terminate _ ih => exact ih
  | @tick i L L' _ hlive hactive b steps w hleft hheld hturn ih =>
    intro r hr
    have hmem : r ∈ (i.account b steps w).inst.runners := hleft ▸ List.mem_map_of_mem hr
    cases hfree : b.holds r with
    | false => exact isEmpty_account hlive hactive b steps w r hmem hfree
    | true =>
      cases hafter : (i.account b steps w).inst.terminated with
      | true =>
        rw [(emptied_account hlive b steps w hafter).1] at hmem
        cases hmem
      | false =>
        have hkept : (r, true) ∈ L'.filter (b.holds ·.1) := List.mem_filter.2 ⟨hr, hfree⟩
        rw [hheld hafter] at hkept
        exact ih r (hold (List.mem_filter.1 hkept).1)

/-- Handlers can be marked anew where those that are held back have their marks. -/
theorem exists_marks (p : Runner → Bool) (rs : List Runner) (F : List (Runner × Bool))
    (h : rs.filter p = F.map (·.1)) :
    ∃ L : List (Runner × Bool), L.map (·.1) = rs ∧ L.filter (p ·.1) = F ∧
      ∀ x ∈ L, p x.1 = false → x.2 = true := by
  induction rs generalizing F with
  | nil =>
    obtain rfl : F = [] := by simpa using h.symm
    exact ⟨[], rfl, rfl, by simp⟩
  | cons r rs ih =>
    cases hp : p r with
    | false =>
      rw [List.filter_cons_of_neg (by simp [hp])] at h
      obtain ⟨L, hL, hF, hturn⟩ := ih F h
      refine ⟨(r, true) :: L, by simp [hL], by simp [hp, hF], ?_⟩
      exact List.forall_mem_cons.2 ⟨fun _ => rfl, hturn⟩
    | true =>
      rw [List.filter_cons_of_pos hp] at h
      cases F with
      | nil => cases h
      | cons x F =>
        obtain ⟨rfl, hF⟩ := List.cons_eq_cons.1 h
        obtain ⟨L, hL, hF, hturn⟩ := ih F hF
        refine ⟨x :: L, by simp [hL], by simp [hp, hF], ?_⟩
        exact List.forall_mem_cons.2 ⟨fun hfree => by simp [hp] at hfree, hturn⟩

/-- What a tick does to the handlers that are held back in it: they are left as they were, behind
them come those that begin with what was posted. -/
theorem holds_account {i : Instance} {J : Journal} (hk : i.Keeps J) (hlive : i.terminated = false)
    (hactive : i.paused = false) (b : Beat) (steps : Nat) (w : ω)
    (hafter : (i.account b steps w).inst.terminated = false) :
    (i.account b steps w).inst.runners.filter b.holds =
      (i.runners ++ (i.account b steps w).arrivals.flatMap (·.fate.begun)).filter b.holds := by
  obtain ⟨R, Q, posts, hJ, -, hleft⟩ := hk
  obtain ⟨rfl, rfl, -⟩ := hleft hlive
  have hidle : ¬ (i.terminated || i.paused) = true := by simp [hlive, hactive]
  have hcame := history_deliverPosted hlive b.now hJ
  have hterminated := (terminated_deliverPosted i b.now).trans hlive
  have hrunners : (i.deliverPosted b.now).1.runners =
      i.runners ++ (i.deliverPosted b.now).2.flatMap (·.fate.begun) := runners_deliverAll b.now _ _
  unfold account at hafter ⊢
  rw [if_neg hidle] at hafter ⊢
  dsimp only at hafter ⊢
  rw [terminated_settle _ _ hterminated] at hafter
  rw [runners_settle, ← hrunners]
  obtain ⟨vs, hgoes⟩ := goes_runAll hafter
  exact hgoes.held fun id m hm => (hcame.waiting id m hm).1

theorem Served.account {i : Instance} {L : List (Runner × Bool)} (h : Served ω i L) {J : Journal}
    (hk : i.Keeps J) (b : Beat) (steps : Nat) (w : ω) :
    ∃ L', Served ω (i.account b steps w).inst L' := by
  by_cases hidle : (i.terminated || i.paused) = true
  · have hsame : (i.account b steps w).inst = i := by simp [Instance.account, hidle]
    exact ⟨L, hsame.symm ▸ h⟩
  obtain ⟨hlive, hactive⟩ : i.terminated = false ∧ i.paused = false := by simpa using hidle
  cases hafter : (i.account b steps w).inst.terminated with
  | true =>
    have hnone := (emptied_account hlive b steps w hafter).1
    exact ⟨[], .tick h hlive hactive b steps w hnone.symm (by simp [hafter]) (by simp)⟩
  | false =>
    have hheld := holds_account hk hlive hactive b steps w hafter
    rw [← h.runners, ← map_unmarked (List.flatMap _ _), ← List.map_append, List.filter_map] at hheld
    obtain ⟨L', hleft, hkept, hturn⟩ := exists_marks b.holds _ _ hheld
    exact ⟨L', .tick h hlive hactive b steps w hleft (fun _ => hkept) hturn⟩

end Instance

/-! ### All stories -/

namespace Host
variable {η : Type}

/-- What is so of every story when it starts, and stays so when a request is granted to it and in its
tick, is so of all stories of a host. -/
theorem Reached.forall_instances [HostFunctions η] {P : Instance → Prop}
    (hnew : ∀ n t now,
      P (({ id := n, template := t } : Instance).deliver ⟨startMessage, [], false⟩ now))
    (hreceive : ∀ i now r, P i → P (i.receive now r))
    (haccount : ∀ i b steps (w : Surroundings η), P i → P (i.account b steps w).inst) {h : Host η}
    (hr : h.Reached) : ∀ i ∈ h.instances, P i := by
  have hstarted (h : Host η) (r : Request) (i : Instance) (hs : h.started? r = some i) : P i := by
    obtain ⟨id, t, -, -, rfl⟩ := started?_eq_some hs
    exact hnew _ _ _
  have hrun {b : Instance.Beat} {steps : Nat} {w : Surroundings η} {is : List Instance}
      (hh : ∀ i ∈ is, P i) : ∀ i ∈ (runInstances b steps w is).1, P i := by
    induction is generalizing w with
    | nil => simp [runInstances]
    | cons i is ih =>
      obtain ⟨hi, his⟩ := List.forall_mem_cons.1 hh
      exact List.forall_mem_cons.2 ⟨haccount i b steps w hi, ih his⟩
  induction hr with
  | new => simp
  | @call h _ now c ih =>
    cases c with
    | start id =>
      rw [obey_start]
      exact forall_grant hstarted hreceive (h := h.asOf now) ih _ _
    | stop id => exact forall_grant hstarted hreceive (h := h.asOf now) ih now (.stop id)
    | send m args concurrent => exact ih
    | tick delta =>
      intro i hi
      rw [obey, instances_tick] at hi
      have hopened :=
        forall_grantAll hstarted hreceive (h := (h.asOf now).emptied) ih now h.board.requests
      exact hrun hopened i (List.mem_filter.1 hi).1

/-! ### Ids -/

/-- What becomes of a host whose ids are given once: no story is found later under an id that was
given before, unless it is what became of the story that had it. -/
structure Succeeds (h h' : Host η) : Prop where
  nextId : h.nextId ≤ h'.nextId
  remains : ∀ i' ∈ h'.instances, i'.id < h.nextId → ∃ i ∈ h.instances, Instance.Remains i i'

theorem Succeeds.of_same {h h' : Host η} (hnextId : h'.nextId = h.nextId)
    (hinstances : h'.instances = h.instances) : Succeeds h h' :=
  ⟨Nat.le_of_eq hnextId.symm, fun i hi _ => ⟨i, hinstances ▸ hi, .refl i⟩⟩

theorem Succeeds.trans {h h' h'' : Host η} (a : Succeeds h h') (b : Succeeds h' h'') :
    Succeeds h h'' := by
  refine ⟨Nat.le_trans a.nextId b.nextId, fun i'' hi'' hid => ?_⟩
  obtain ⟨i', hi', hr'⟩ := b.remains i'' hi'' (Nat.lt_of_lt_of_le hid a.nextId)
  obtain ⟨i, hi, hr⟩ := a.remains i' hi' (hr'.id ▸ hid)
  exact ⟨i, hi, hr.trans hr'⟩

theorem succeeds_grant (h : Host η) (now : Int) (r : Request) : Succeeds h (h.grant now r).1 := by
  refine ⟨h.nextId_le_grant now r, fun i' hi' hid => ?_⟩
  rcases mem_grant hi' with ⟨i, hi, rfl⟩ | hs
  · exact ⟨i, hi, i.remains_receive now r⟩
  · obtain ⟨id, t, -, -, rfl⟩ := started?_eq_some hs
    rw [(h.remains_newcomer t).id] at hid
    exact absurd hid (Nat.lt_irrefl _)

theorem succeeds_grantAll (h : Host η) (now : Int) (rs : List Request) :
    Succeeds h (h.grantAll now rs).1 := by
  induction rs generalizing h with
  | nil => exact .of_same rfl rfl
  | cons r rs ih => exact (h.succeeds_grant now r).trans (ih _)

section
variable [HostFunctions η]

theorem succeeds_tick (h : Host η) (delta : Int) : Succeeds h (h.tick delta).1 := by
  have hemptied : Succeeds h h.emptied := .of_same rfl rfl
  have hopened : Succeeds h.emptied h.opened := h.emptied.succeeds_grantAll h.clock h.board.requests
  refine (hemptied.trans hopened).trans ⟨Nat.le_refl _, fun i' hi' _ => ?_⟩
  rw [instances_tick] at hi'
  exact Instance.exists_of_forall₂ (forall₂_runInstances _ _ _ _) i' (List.mem_filter.1 hi').1

theorem succeeds_obey (h : Host η) (c : Call) : Succeeds h (h.obey c) := by
  cases c with
  | start id =>
    rw [obey_start]
    exact h.succeeds_grant _ _
  | stop id => exact h.succeeds_grant h.clock (.stop id)
  | send m args concurrent => exact .of_same rfl rfl
  | tick delta => exact h.succeeds_tick delta

/-- Hosts that calls lead to from some host. -/
inductive Leads (h : Host η) : Host η → Prop
  | refl : Leads h h
  | call {h' : Host η} (hl : Leads h h') (now : Int) (c : Call) : Leads h ((h'.asOf now).obey c)

theorem Leads.succeeds {h h' : Host η} (hl : Leads h h') : Succeeds h h' := by
  induction hl with
  | refl => exact .of_same rfl rfl
  | @call h' _ now c ih =>
    have hclock : Succeeds h' (h'.asOf now) := .of_same rfl rfl
    exact ih.trans (hclock.trans ((h'.asOf now).succeeds_obey c))

/-! ### What is always so -/

/-- What is always so of the stories of a host. -/
structure Sound (h : Host η) : Prop where
  /-- Stories come in the order of their ids. -/
  ascending : h.instances.Pairwise (·.id < ·.id)
  below : ∀ i ∈ h.instances, i.id < h.nextId
  /-- No id is given twice. -/
  succeeds : ∀ h', Leads h h' → Succeeds h h'
  filed : ∀ i ∈ h.instances, h.library.find? i.storyId = some i.template
  staffed : ∀ i ∈ h.instances, i.Staffed
  /-- A message that is let in always begins its handler. -/
  activates : ∀ i ∈ h.instances, ∀ id m Q, i.queued.pop? id = some (m, Q) →
    ∃ r, Instance.activate? i.template m = some r
  /-- However the handlers at work came to be marked with whether they have had a turn, those that
  have had one have commands left. -/
  served : ∀ i ∈ h.instances, (∃ L, Instance.Served (Surroundings η) i L) ∧
    ∀ L, Instance.Served (Surroundings η) i L →
      L.map (·.1) = i.runners ∧ ∀ r, (r, true) ∈ L → r.queue.isEmpty = false
  /-- No story that is over is there after a tick. -/
  cleared : ∀ now delta, ∀ i ∈ ((h.asOf now).tick delta).1.instances, i.isFinished = false

theorem Reached.served {h : Host η} (hr : h.Reached) : ∀ i ∈ h.instances,
    i.Staffed ∧ (∃ J, i.Keeps J) ∧ ∃ L, Instance.Served (Surroundings η) i L := by
  refine hr.forall_instances (fun n t now => ?_) (fun i now r => ?_) (fun i b steps w => ?_)
  · have hk := Instance.keeps_new n t
    obtain ⟨K, hK⟩ := (Instance.remains_deliver { id := n, template := t } _ now).keeps [] hk
    exact ⟨Instance.staffed_deliver hk (hk.staffed rfl) _ _, ⟨_, hK⟩, _,
      (Instance.Served.new n t).deliver _ now⟩
  · rintro ⟨hs, ⟨J, hk⟩, L, hL⟩
    obtain ⟨K, hK⟩ := (i.remains_receive now r).keeps J hk
    refine ⟨Instance.staffed_receive hk hs now r, ⟨_, hK⟩, ?_⟩
    cases r with
    | send m args concurrent => exact ⟨_, hL.deliver _ now⟩
    | stop id =>
      simp only [Instance.receive]
      split
      · exact ⟨L, hL.terminate⟩
      · exact ⟨L, hL⟩
    | pause id paused =>
      simp only [Instance.receive]
      split
      · exact ⟨L, hL.pause paused⟩
      · exact ⟨L, hL⟩
    | start | pauseHandlers => exact ⟨L, hL⟩
  · rintro ⟨hs, ⟨J, hk⟩, L, hL⟩
    obtain ⟨K, hK⟩ := (i.remains_account b steps w).keeps J hk
    exact ⟨Instance.staffed_account hk hs b steps w, ⟨_, hK⟩, hL.account hk b steps w⟩

/-- The stories of every host that calls can lead to are in order. -/
theorem Reached.sound {h : Host η} (hr : h.Reached) : h.Sound := by
  have ho := hr.orderly
  refine ⟨ho.ascending, ho.below, fun h' hl => hl.succeeds, ho.filed, fun i hi => (hr.served i hi).1,
    fun i hi id m Q hp => (hr.served i hi).1.activates hp,
    fun i hi => ⟨(hr.served i hi).2.2, fun L hL => ⟨hL.runners, hL.isEmpty⟩⟩,
    fun now delta i hi => ?_⟩
  rw [instances_tick] at hi
  simpa using (List.mem_filter.1 hi).2

end

/-- A story that rings for a while. -/
def bell : Template :=
  ⟨"bell", true, (∅ : Table (List Command)).insert "ring" [.wait (Operand.literal (.int 20))]⟩

/-- A host in which the bell has been started. -/
def hung : Host NoFunctions :=
  ({ library := (∅ : Library).insert "bell" bell, functions := ⟨⟩ } : Host NoFunctions).obey
    (.start "bell")

/-- A host in which the bell was sent two messages. -/
def ringing : Host NoFunctions :=
  (((hung.asOf 0).obey (.send "ring" [] false)).asOf 0).obey (.send "ring" [] false)

theorem reached_ringing : ringing.Reached := by
  have hbuilt : Library.Built ((∅ : Library).insert "bell" bell) :=
    .add bell .empty (by simp [Library.add, bell, Table.contains])
  exact .call (.call (.call (.new _ hbuilt _ 0 _ defaultSteps) 0 _) 0 _) 0 _

/-- After a tick the bell rings for the first message, and the second one waits. -/
theorem sound_ringing :
    let h := ((ringing.asOf 10).obey (.tick 10))
    h.Reached ∧ h.Sound ∧
      (h.instances.any fun i => i.isBusy "ring" && (i.queued.of "ring").length = 1) = true := by
  have hr : ((ringing.asOf 10).obey (.tick 10)).Reached := .call reached_ringing 10 (.tick 10)
  exact ⟨hr, hr.sound, by decide +kernel⟩

end Host
end StoryScript
