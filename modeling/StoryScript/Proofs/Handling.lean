import StoryScript.Proofs.Turns

/-! What becomes of the messages to a running story: they are each handled once, in their turn, and
with their own arguments. -/
namespace StoryScript.Instance
variable {ω : Type} [World ω]

/-! ### Activations -/

/-- What a block can have come to by ticks that all had the same arguments. -/
inductive Carried (ω : Type) [World ω] (block : List Command) (args : List Value) : Queue → Prop
  | fresh : Carried ω block args (.ofBlock block)
  | tick {q : Queue} (m : Moment) (n : Nat) (s : Stage ω) : Carried ω block args q →
      m.args = args → Carried ω block args (q.tick m n s).queue

/-- A handler at work on a message has run with the arguments of that message only. -/
def OwnRun (ω : Type) [World ω] (t : Template) (r : Runner) : Prop :=
  ∃ block, t.handler? r.message.id = some block ∧ Carried ω block r.message.args r.queue

/-- A turn is that of a handler at work, and has the arguments of its message. -/
def OwnTurn (ω : Type) [World ω] (t : Template) (turn : Turn) : Prop :=
  ∃ (r : Runner) (n : Nat) (s : Stage ω), OwnRun ω t r ∧ turn.message = r.message ∧
    turn.moment.args = r.message.args ∧ turn.events = (r.queue.tick turn.moment n s).events

theorem ownRun_of_activate? {t : Template} {m : Message} {r : Runner} (h : activate? t m = some r) :
    OwnRun ω t r := by
  obtain ⟨block, hb, rfl⟩ := Option.map_eq_some_iff.1 h
  exact ⟨block, hb, .fresh⟩

theorem ownRun_left {t : Template} {x : Seat ω} (h : OwnRun ω t x.runner)
    (hargs : x.moment.args = x.runner.message.args) : OwnRun ω t x.left := by
  obtain ⟨block, hb, hq⟩ := h
  exact ⟨block, hb, hq.tick _ _ _ hargs⟩

theorem ownTurn_of_takes {t : Template} {x : Seat ω} {turn : Turn} (h : OwnRun ω t x.runner)
    (hargs : x.moment.args = x.runner.message.args) (hx : x.Takes turn) : OwnTurn ω t turn :=
  ⟨x.runner, x.steps, x.stage, h, hx.message, hx.moment ▸ hargs, hx.moment ▸ hx.events⟩

theorem own_account {i : Instance} (h : ∀ r ∈ i.runners, OwnRun ω i.template r) (b : Beat)
    (steps : Nat) (w : ω) :
    (∀ r ∈ (i.account b steps w).inst.runners, OwnRun ω i.template r) ∧
      ∀ turn ∈ (i.account b steps w).turns, OwnTurn ω i.template turn := by
  have hargs (x : Seat ω) (hx : i.Seats b steps w x) : x.moment.args = x.runner.message.args :=
    congrArg Moment.args hx.seated.moment
  obtain ⟨hrunners, hturns⟩ := carried_account (fun _ _ hr => ownRun_of_activate? hr) h
    (fun _ hr => hr) b steps w fun x hx hr => ownRun_left hr (hargs x hx)
  refine ⟨hrunners, fun turn hturn => ?_⟩
  obtain ⟨x, hx, htakes, hr⟩ := hturns turn hturn
  exact ownTurn_of_takes hr (hargs x hx) htakes

theorem ownRun_run {i : Instance} (h : ∀ r ∈ i.runners, OwnRun ω i.template r)
    (ops : List (Operation ω)) :
    ∀ r ∈ (i.run ops).1.runners, OwnRun ω (i.run ops).1.template r := by
  induction ops generalizing i with
  | nil => exact h
  | cons o ops ih =>
    have ho : ∀ r ∈ (i.perform o).1.runners, OwnRun ω (i.perform o).1.template r := by
      rw [template_perform]
      cases o with
      | deliver m now => exact carried_deliver (fun _ _ hr => ownRun_of_activate? hr) h m now
      | post id args => exact h
      | pause paused => exact h
      | tick b steps w => exact (own_account h b steps w).1
    exact ih ho

/-! ### What becomes of the messages -/

/-- The messages to the handlers of a story are each handled once, and in their turn. -/
structure Handles (i : Instance) (J : Journal) : Prop where
  /-- What came to a handler has begun or waits. -/
  count : i.terminated = false → ∀ id, i.template.answers id →
    Message.countTo id (J.of .came) = Message.countTo id (J.of .began) + (i.queued.of id).length
  /-- Plain messages to a handler begin in the order in which they come, the others of them wait. -/
  plain : ∀ id, i.template.answers id → ∃ rest,
    (J.of .came).filter (Message.plainTo id) = (J.of .began).filter (Message.plainTo id) ++ rest ∧
      (i.terminated = false → rest = i.queued.of id)
  /-- Concurrent messages to a handler begin in the order in which they come, and none waits. -/
  concurrent : ∀ id, i.template.answers id →
    (J.of .came).filter (Message.concurrentTo id) = (J.of .began).filter (Message.concurrentTo id)
  /-- The handlers at work are those that have begun and are not over, one for each message. -/
  working : i.terminated = false → (J.of .began).Perm (J.of .ended ++ i.atWork)
  /-- A handler is run with the arguments of a message that began and is not over. -/
  ran : J.Always fun before o => o.occasion = .ran →
    ∃ others, (before.of .began).Perm (before.of .ended ++ o.message :: others)
  /-- What is posted is fetched in the order in which it was posted, the rest is kept. -/
  posts : ∃ rest, J.of .posted = J.of .fetched ++ rest ∧ (i.terminated = false → rest = i.posted)

theorem Keeps.handles {i : Instance} {J : Journal} (h : i.Keeps J) : i.Handles J := by
  obtain ⟨R, Q, posts, hJ, hposts, hleft⟩ := h
  refine ⟨fun hlive id hid => ?_, fun id hid => ?_, fun id hid => hJ.concurrent hid,
    fun hlive => ?_, hJ.always_ran, posts, hposts, fun hlive => (hleft hlive).2.2⟩
  · rw [← (hleft hlive).2.1]
    exact hJ.countTo_came hid
  · exact ⟨Q.of id, hJ.plain hid, fun hlive => by rw [(hleft hlive).2.1]⟩
  · rw [← (hleft hlive).1]
    exact hJ.running

/-- The messages that an operation fetches from the posts: a tick fetches them all, unless the story
is paused. -/
def Operation.fetches (o : Operation ω) (i : Instance) : List Message :=
  match o with
  | .tick _ _ _ => if i.paused then [] else i.posted
  | _ => []

/-- The messages that come with an operation. -/
def Operation.brings (o : Operation ω) (i : Instance) : List Message :=
  match o with
  | .deliver m _ => [m]
  | o => o.fetches i

theorem fetched_perform {i : Instance} (hi : i.terminated = false) (o : Operation ω) :
    (i.perform o).2.of .fetched = o.fetches i := by
  cases o with
  | deliver m now => simp [perform, Operation.fetches]
  | post id args => simp [perform, Operation.fetches]
  | pause paused => simp [perform, Operation.fetches]
  | tick b steps w =>
    simp only [perform, Operation.fetches]
    rw [fetched_of_account, arrivals_account, hi, Bool.false_or]

theorem came_perform {i : Instance} (hi : i.terminated = false) (o : Operation ω) :
    (i.perform o).2.of .came = o.brings i := by
  cases o with
  | deliver m now =>
    have hlost := fate_deliverAll hi now [m] ⟨m, i.fate m⟩ (by simp [deliverAll])
    simp only [perform, Operation.brings, of_arrival]
  | post id args => simp [perform, Operation.brings, Operation.fetches]
  | pause paused => simp [perform, Operation.brings, Operation.fetches]
  | tick b steps w =>
    simp only [perform, Operation.brings, Operation.fetches]
    rw [came_of_account, arrivals_account, hi, Bool.false_or]

/-- Whatever was done with a story, the messages to its handlers were each handled once, in their
turn, and with their own arguments. What was posted comes with the next tick of the story that finds
it not paused. -/
theorem run_handles (n : Nat) (t : Template) (ops : List (Operation ω)) :
    let (i, J) := ({ id := n, template := t } : Instance).run ops
    i.template = t ∧ i.Handles J ∧ (∀ r ∈ i.runners, OwnRun ω i.template r) ∧
      (∀ b steps, ∀ w : ω, ∀ turn ∈ (i.account b steps w).turns, OwnTurn ω i.template turn) ∧
      (i.terminated = false → ∀ o : Operation ω,
        (i.perform o).2.of .fetched = o.fetches i ∧ (i.perform o).2.of .came = o.brings i) := by
  have hkeeps := keeps_run (keeps_new n t) ops
  have hown := ownRun_run (ω := ω) (i := { id := n, template := t }) (by simp) ops
  exact ⟨template_run _ ops, hkeeps.handles, hown, fun b steps w => (own_account hown b steps w).2,
    fun hlive o => ⟨fetched_perform hlive o, came_perform hlive o⟩⟩

end StoryScript.Instance
