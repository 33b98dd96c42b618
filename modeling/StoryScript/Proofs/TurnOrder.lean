import StoryScript.Board
import StoryScript.Proofs.Turns

/-! The order of the turns in a tick of a story. The handlers at work are gone through in rounds: one
that is paused is passed over, any other gets its turn, and one that takes the place of another comes
last. So every handler that is not paused gets one turn, and what belongs to paused handlers is left
alone. -/
namespace StoryScript

/-! ### Messages that wait -/

/-- Every message waits under its own id. -/
def Waitlist.Filed (Q : Waitlist) : Prop := ∀ id, ∀ m ∈ Q.of id, m.id = id

namespace Waitlist
variable {Q Q' : Waitlist} {m : Message} {id : String}

theorem filed_empty : (∅ : Waitlist).Filed := by
  intro id m hm
  simp at hm

theorem Filed.push (h : Q.Filed) (m : Message) : (Q.push m).Filed := by
  intro id n hn
  rw [of_push] at hn
  split at hn
  · next hid =>
    rcases List.mem_append.1 hn with hn | hn
    · exact h id n hn
    · rw [List.mem_singleton.1 hn, hid]
  · exact h id n hn

theorem Filed.pop? (h : Q.Filed) (hp : Q.pop? id = some (m, Q')) : m.id = id ∧ Q'.Filed := by
  have hof := of_of_pop? hp
  have hself : Q.of id = m :: Q'.of id := by rw [hof id, if_pos rfl]
  refine ⟨h id m (hself ▸ .head _), fun j n hn => h j n ?_⟩
  rw [hof j]
  split
  · exact .tail _ hn
  · exact hn

end Waitlist

namespace Instance

theorem filed_deliver {i : Instance} (h : i.queued.Filed) (m : Message) (now : Int) :
    (i.deliver m now).queued.Filed := by
  unfold deliver
  cases i.fate m with
  | waits => exact h.push m
  | lost | unanswered | begins => exact h

theorem filed_deliverAll {i : Instance} (h : i.queued.Filed) (now : Int) (ms : List Message) :
    (deliverAll now i ms).1.queued.Filed := by
  induction ms generalizing i with
  | nil => exact h
  | cons m ms ih => exact ih (filed_deliver h m now)

theorem filed_deliverPosted {i : Instance} (h : i.queued.Filed) (now : Int) :
    (i.deliverPosted now).1.queued.Filed :=
  filed_deliverAll (i := { i with posted := [] }) h now i.posted

variable {ω : Type} [World ω]

/-- Whether a handler is held back in a tick. -/
def Beat.holds (b : Beat) (r : Runner) : Bool := b.paused.contains r.message.id

omit [World ω] in
theorem Beat.holds_congr (b : Beat) {r r' : Runner} (h : r'.message.id = r.message.id) :
    b.holds r' = b.holds r := by
  rw [holds, holds, h]

/-- The handlers that took the places of others, in the order of the turns in which those were over. -/
def released (t : Template) (ts : List Turn) : List Runner :=
  ts.filterMap fun turn => turn.next.bind (activate? t)

/-! ### One turn -/

/-- The handler after its turn, unless it is over. -/
def Seat.stays? (x : Seat ω) : Option Runner := if x.tick.queue.isEmpty then none else some x.left

section
variable {t : Template} {b : Beat} {steps : Nat} {Q : Waitlist} {s : Stage ω} {r : Runner}

/-- Who takes the place of a handler is told by its turn. -/
theorem next_bind : (takeTurn t b steps Q s r).turn.next.bind (activate? t) =
    (takeTurn t b steps Q s r).follows := by
  have hnext : (takeTurn t b steps Q s r).turn.next =
      (takeTurn t b steps Q s r).follows.map (·.message) := rfl
  rw [hnext]
  rcases follows_cases t b steps Q s r with ⟨-, hnone⟩ | ⟨m, -, hm⟩
  · rw [hnone]
    rfl
  · rw [hm]
    cases hr : activate? t m with
    | none => rfl
    | some r' =>
      obtain ⟨-, rfl⟩ := Template.answers_of_activate? hr
      exact hr

theorem released_cons (ts : List Turn) : released t ((takeTurn t b steps Q s r).turn :: ts) =
    (takeTurn t b steps Q s r).follows.toList ++ released t ts := by
  rw [released, List.filterMap_cons, next_bind]
  cases (takeTurn t b steps Q s r).follows <;> rfl

/-- A place is taken only when it is free. -/
theorem ended_of_next (h : (takeTurn t b steps Q s r).turn.next ≠ none) :
    (takeTurn t b steps Q s r).turn.ended = true := by
  by_contra hended
  apply h
  simp only [takeTurn, Bool.not_eq_true] at hended ⊢
  simp [hended]

theorem filed_takeTurn (h : Q.Filed) : (takeTurn t b steps Q s r).queued.Filed := by
  rcases follows_cases t b steps Q s r with ⟨hQ, -⟩ | ⟨m, hp, -⟩
  · rwa [hQ]
  · exact (h.pop? hp).2

/-- One that takes the place of a handler is of the same id. -/
theorem id_of_follows (h : Q.Filed) {r' : Runner}
    (hr' : r' ∈ (takeTurn t b steps Q s r).follows.toList) : r'.message.id = r.message.id := by
  rcases follows_cases t b steps Q s r with ⟨-, hnone⟩ | ⟨m, hp, hm⟩
  · simp [hnone] at hr'
  · obtain ⟨-, hmessage⟩ := Template.answers_of_activate? (hm ▸ Option.mem_toList.1 hr')
    rw [hmessage, (h.pop? hp).1]

/-- A turn leaves alone what waits for other handlers. -/
theorem queued_takeTurn {id : String} (hid : id ≠ r.message.id) :
    (takeTurn t b steps Q s r).queued.of id = Q.of id := by
  rcases follows_cases t b steps Q s r with ⟨hQ, -⟩ | ⟨m, hp, -⟩
  · rw [hQ]
  · rw [Waitlist.of_of_pop? hp id, if_neg hid]

/-- The messages that some handlers answer, of those to one handler. -/
def answered (id : String) (rs : List Runner) : List Message :=
  (rs.map (·.message)).filter (·.id = id)

variable (b steps s r) in
/-- What waited for a handler before a turn begins in it, or waits after it. -/
theorem of_takeTurn (h : Q.Filed) {id : String} (hid : t.answers id) :
    Q.of id = answered id (takeTurn t b steps Q s r).follows.toList ++
      (takeTurn t b steps Q s r).queued.of id := by
  rcases follows_cases t b steps Q s r with ⟨hQ, hnone⟩ | ⟨m, hp, hm⟩
  · simp [hQ, hnone, answered]
  · obtain ⟨hmid, -⟩ := h.pop? hp
    rw [Waitlist.of_of_pop? hp id, hm]
    cases hr : activate? t m with
    | none =>
      have hne : id ≠ r.message.id := by
        rintro rfl
        exact Template.not_answers_of_activate? hr (hmid ▸ hid)
      simp [hne, answered]
    | some r' =>
      obtain ⟨-, rfl⟩ := Template.answers_of_activate? hr
      by_cases hself : id = r.message.id
      · simp [hself, answered, hmid]
      · simp [hself, answered, hmid, Ne.symm hself]

end

/-! ### Rounds -/

/-- What is done in a round: a handler that is paused is passed over, or one gets its turn. -/
inductive Visit (ω : Type) where
  | passes (r : Runner)
  | takes (x : Seat ω)

namespace Visit

def runner : Visit ω → Runner
  | passes r => r
  | takes x => x.runner

def seat? : Visit ω → Option (Seat ω)
  | passes _ => none
  | takes x => some x

/-- The handler as it is left, unless it is over. -/
def stays? : Visit ω → Option Runner
  | passes r => some r
  | takes x => x.stays?

omit [World ω] in
@[simp] theorem runner_passes (r : Runner) : (passes r : Visit ω).runner = r := rfl

omit [World ω] in
@[simp] theorem runner_takes (x : Seat ω) : (takes x).runner = x.runner := rfl

@[simp] theorem stays?_passes (r : Runner) : (passes r : Visit ω).stays? = some r := rfl
@[simp] theorem stays?_takes (x : Seat ω) : (takes x).stays? = x.stays? := rfl

end Visit

/-- What is found in the turns of some visits. -/
def seatsOf (vs : List (Visit ω)) : List (Seat ω) := vs.filterMap Visit.seat?

omit [World ω] in
@[simp] theorem seatsOf_passes (r : Runner) (vs : List (Visit ω)) :
    seatsOf (.passes r :: vs) = seatsOf vs := rfl

omit [World ω] in
@[simp] theorem seatsOf_takes (x : Seat ω) (vs : List (Visit ω)) :
    seatsOf (.takes x :: vs) = x :: seatsOf vs := rfl

/-- Some rounds in which all handlers are gone through. Whoever takes the place of another comes
last. -/
inductive Goes (t : Template) (b : Beat) : List (Visit ω) → Nat → List Runner → Waitlist →
    Stage ω → List Runner → Round ω → Prop
  | finished {steps : Nat} {seen : List Runner} {Q : Waitlist} {s : Stage ω} :
      Goes t b [] steps seen Q s [] ⟨seen, Q, s, []⟩
  | passes {vs : List (Visit ω)} {steps : Nat} {seen todo : List Runner} {Q : Waitlist}
      {s : Stage ω} {r : Runner} {out : Round ω} (hp : b.holds r = true)
      (h : Goes t b vs steps (seen ++ [r]) Q s todo out) :
      Goes t b (.passes r :: vs) steps seen Q s (r :: todo) out
  | takes {vs : List (Visit ω)} {steps : Nat} {seen todo : List Runner} {Q : Waitlist}
      {s : Stage ω} {r : Runner} {out : Round ω} (hp : b.holds r = false)
      (h : Goes t b vs (takeTurn t b steps Q s r).steps
        (seen ++ (takeTurn t b steps Q s r).stays.toList) (takeTurn t b steps Q s r).queued
        (takeTurn t b steps Q s r).stage (todo ++ (takeTurn t b steps Q s r).follows.toList) out) :
      Goes t b (.takes ⟨r, b.moment r.message, steps, s⟩ :: vs) steps seen Q s (r :: todo)
        (out.after (takeTurn t b steps Q s r).turn)

/-- Turns of which every one begins with the steps and on the stage that the one before it left. -/
inductive Onward : Nat → Stage ω → List (Seat ω) → Stage ω → Prop
  | finished {steps : Nat} {s : Stage ω} : Onward steps s [] s
  | turn {x : Seat ω} {xs : List (Seat ω)} {s : Stage ω}
      (h : Onward x.tick.steps x.tick.stage xs s) : Onward x.steps x.stage (x :: xs) s

section
variable {t : Template} {b : Beat} {vs : List (Visit ω)} {steps : Nat} {seen todo : List Runner}
  {Q : Waitlist} {s : Stage ω} {out : Round ω}

/-- The handlers are gone through in rounds, unless one of them terminates the story. -/
theorem goes_runAll
    (hgoes : (Turn.effects (runAll t b steps seen Q s todo).turns).any Effect.terminates = false) :
    ∃ vs, Goes t b vs steps seen Q s todo (runAll t b steps seen Q s todo) := by
  fun_induction runAll t b steps seen Q s todo with
  | case1 => exact ⟨[], .finished⟩
  | case2 steps seen Q s r todo hpaused ih =>
    obtain ⟨vs, h⟩ := ih hgoes
    exact ⟨_, .passes hpaused h⟩
  | case3 steps seen Q s r todo hpaused shift hends =>
    simp only [effects_cons, List.any_append, Bool.or_eq_false_iff] at hgoes
    exact absurd hends (by simpa [endsStory] using hgoes.1)
  | case4 steps seen Q s r todo hpaused shift hends ih =>
    simp only [Round.after, effects_cons, List.any_append, Bool.or_eq_false_iff] at hgoes
    obtain ⟨vs, h⟩ := ih hgoes.2
    exact ⟨_, .takes (by simpa [Beat.holds] using hpaused) h⟩

namespace Goes

/-- The handlers are visited one after another, those that take the places of others last. -/
theorem visits (h : Goes t b vs steps seen Q s todo out) :
    vs.map (·.runner) = todo ++ released t out.turns := by
  induction h with
  | finished => rfl
  | passes _ _ ih => simp [ih]
  | takes _ _ ih => simp [ih, Round.after, released_cons]

/-- The handlers that get their turns are those that are not paused. -/
theorem seats (h : Goes t b vs steps seen Q s todo out) :
    (seatsOf vs).map (·.runner) = (vs.map (·.runner)).filter (!b.holds ·) := by
  induction h with
  | finished => rfl
  | passes hp _ ih => simp [hp, ih]
  | takes hp _ ih => simp [hp, ih]

theorem turns (h : Goes t b vs steps seen Q s todo out) :
    List.Forall₂ Seat.Takes (seatsOf vs) out.turns := by
  induction h with
  | finished => exact .nil
  | passes _ _ ih => exact ih
  | takes _ _ ih => exact .cons ⟨rfl, rfl, rfl⟩ ih

theorem moments (h : Goes t b vs steps seen Q s todo out) :
    ∀ x ∈ seatsOf vs, x.moment = b.moment x.runner.message := by
  induction h with
  | finished => simp [seatsOf]
  | passes _ _ ih => exact ih
  | takes _ _ ih => exact List.forall_mem_cons.2 ⟨rfl, ih⟩

theorem onward (h : Goes t b vs steps seen Q s todo out) :
    Onward steps s (seatsOf vs) out.stage := by
  induction h with
  | finished => exact .finished
  | passes _ _ ih => exact ih
  | @takes _ steps _ _ _ s r _ _ _ ih =>
    exact Onward.turn (x := ⟨r, b.moment r.message, steps, s⟩) ih

theorem ended (h : Goes t b vs steps seen Q s todo out) :
    ∀ turn ∈ out.turns, turn.next ≠ none → turn.ended = true := by
  induction h with
  | finished => simp
  | passes _ _ ih => exact ih
  | takes _ _ ih => exact List.forall_mem_cons.2 ⟨ended_of_next, ih⟩

theorem runners (h : Goes t b vs steps seen Q s todo out) :
    out.runners = seen ++ vs.filterMap Visit.stays? := by
  induction h with
  | finished => simp
  | passes _ _ ih => simp [ih]
  | @takes vs steps seen todo Q s r out _ _ ih =>
    have hstays : (takeTurn t b steps Q s r).stays =
        Visit.stays? (.takes ⟨r, b.moment r.message, steps, s⟩) := rfl
    rw [Round.after, ih, hstays, List.filterMap_cons]
    cases Visit.stays? (.takes (⟨r, b.moment r.message, steps, s⟩ : Seat ω)) <;> simp

/-- Whatever waits for a handler can lengthen the rounds by one at most. -/
theorem length_le (h : Goes t b vs steps seen Q s todo out) : vs.length ≤ todo.length + Q.size := by
  induction h with
  | finished => simp
  | passes _ _ ih =>
    simp only [List.length_cons]
    omega
  | @takes _ steps _ _ Q s r _ _ _ ih =>
    -- What is added to the handlers to come is taken from what waits.
    have hsize := size_takeTurn t b steps Q s r
    simp only [List.length_append, List.length_cons] at ih ⊢
    omega

/-- Nothing that is released is paused, because its place was not. -/
theorem released_free (h : Goes t b vs steps seen Q s todo out) (hQ : Q.Filed) :
    ∀ r ∈ released t out.turns, b.holds r = false := by
  induction h with
  | finished => simp [released]
  | passes _ _ ih => exact ih hQ
  | takes hp _ ih =>
    rw [Round.after, released_cons]
    intro r' hr'
    rcases List.mem_append.1 hr' with hr' | hr'
    · rw [b.holds_congr (id_of_follows hQ hr'), hp]
    · exact ih (filed_takeTurn hQ) r' hr'

/-- Every handler that gets its turn is free, and so is what is left in its place. -/
theorem held (h : Goes t b vs steps seen Q s todo out) (hQ : Q.Filed) :
    out.runners.filter b.holds = (seen ++ todo).filter b.holds := by
  induction h with
  | finished => simp
  | passes _ _ ih => simpa using ih hQ
  | @takes _ steps _ _ Q s r _ hp _ ih =>
    have hstays : (takeTurn t b steps Q s r).stays.toList.filter b.holds = [] := by
      refine List.filter_eq_nil_iff.2 fun r' hr' => ?_
      have hid : r'.message.id = r.message.id := by rw [stays_takeTurn hr', Seat.left]
      simp [b.holds_congr hid, hp]
    have hfollows : (takeTurn t b steps Q s r).follows.toList.filter b.holds = [] := by
      refine List.filter_eq_nil_iff.2 fun r' hr' => ?_
      simp [b.holds_congr (id_of_follows hQ hr'), hp]
    have hrest := ih (filed_takeTurn hQ)
    simpa [Round.after, hstays, hfollows, hp] using hrest

theorem queued (h : Goes t b vs steps seen Q s todo out) {id : String}
    (hid : b.paused.contains id = true) : out.queued.of id = Q.of id := by
  induction h with
  | finished => rfl
  | passes _ _ ih => exact ih
  | takes hp _ ih =>
    refine ih.trans (queued_takeTurn ?_)
    rintro rfl
    exact absurd hid (Bool.eq_false_iff.1 hp)

/-- What waits for a handler begins in the order in which it came, and the rest still waits. -/
theorem waiting (h : Goes t b vs steps seen Q s todo out) (hQ : Q.Filed) {id : String}
    (hid : t.answers id) : Q.of id = answered id (released t out.turns) ++ out.queued.of id := by
  induction h with
  | finished => rfl
  | passes _ _ ih => exact ih hQ
  | @takes _ steps _ _ Q s r _ _ _ ih =>
    rw [of_takeTurn b steps s r hQ hid, ih (filed_takeTurn hQ), Round.after, released_cons]
    simp [answered]

end Goes

end

/-! ### The turns of a tick -/

/-- The turns of a tick of a story whose messages have come. Every handler at work that is not paused
has one turn, and so has every one that takes the place of another, after them. -/
structure InTurn (i : Instance) (b : Beat) (steps : Nat) (w : ω) (a : Account ω)
    (vs : List (Visit ω)) : Prop where
  rounds : Goes i.template b vs steps [] i.queued ⟨i.scope, w⟩ i.runners
    ⟨a.inst.runners, a.inst.queued, ⟨a.inst.scope, a.world⟩, a.turns⟩
  length_le : vs.length ≤ i.runners.length + i.queued.size
  visits : vs.map (·.runner) = i.runners ++ released i.template a.turns
  once : (seatsOf vs).map (·.runner) =
    i.runners.filter (!b.holds ·) ++ released i.template a.turns
  /-- The turns that are told are those that begin with what is found, one after another. -/
  turns : List.Forall₂ Seat.Takes (seatsOf vs) a.turns
  moments : ∀ x ∈ seatsOf vs, x.moment = ⟨b.now, b.delta, .absent, x.runner.message.args⟩
  onward : Onward steps ⟨i.scope, w⟩ (seatsOf vs) ⟨a.inst.scope, a.world⟩
  /-- A place is taken in the turn in which its handler is over, -/
  ended : ∀ turn ∈ a.turns, turn.next ≠ none → turn.ended = true
  /-- by the first message that waits for it. -/
  waiting : ∀ id, i.template.answers id →
    i.queued.of id = answered id (released i.template a.turns) ++ a.inst.queued.of id
  /-- What is left are the handlers that were passed over, and those that are not over after their
  turns. -/
  runners : a.inst.runners = vs.filterMap Visit.stays?
  held : a.inst.runners.filter b.holds = i.runners.filter b.holds
  queued : ∀ id, b.paused.contains id = true → a.inst.queued.of id = i.queued.of id

theorem Goes.inTurn {i : Instance} {b : Beat} {steps : Nat} {w : ω} {a : Account ω}
    {vs : List (Visit ω)} (hQ : i.queued.Filed)
    (h : Goes i.template b vs steps [] i.queued ⟨i.scope, w⟩ i.runners
      ⟨a.inst.runners, a.inst.queued, ⟨a.inst.scope, a.world⟩, a.turns⟩) :
    InTurn i b steps w a vs := by
  have hall : (released i.template a.turns).filter (!b.holds ·) = released i.template a.turns :=
    List.filter_eq_self.2 fun r hr => by simp [h.released_free hQ r hr]
  have honce := h.seats
  rw [h.visits, List.filter_append, hall] at honce
  exact ⟨h, h.length_le, h.visits, honce, h.turns, h.moments, h.onward, h.ended,
    fun id hid => h.waiting hQ hid, h.runners, h.held hQ, fun id hid => h.queued hid⟩

theorem filed_runAll {t : Template} {b : Beat} {steps : Nat} {seen todo : List Runner} {Q : Waitlist}
    {s : Stage ω} (hQ : Q.Filed) : (runAll t b steps seen Q s todo).queued.Filed := by
  fun_induction runAll t b steps seen Q s todo with
  | case1 => exact hQ
  | case2 _ _ _ _ _ _ _ ih => exact ih hQ
  | case3 => exact Waitlist.filed_empty
  | case4 steps seen Q s r todo hpaused shift hends ih => exact ih (filed_takeTurn hQ)

theorem filed_perform {i : Instance} (h : i.queued.Filed) (o : Operation ω) :
    (i.perform o).1.queued.Filed := by
  cases o with
  | deliver m now => exact filed_deliver h m now
  | post | pause => exact h
  | tick b steps w =>
    have hcame := filed_deliverPosted h b.now
    simp only [perform, account]
    split
    · exact h
    · simp only [settle]
      split <;> exact filed_runAll hcame

/-- Whatever is done with a story, its messages wait under their own ids. -/
theorem filed_run {i : Instance} (h : i.queued.Filed) (ops : List (Operation ω)) :
    (i.run ops).1.queued.Filed := by
  induction ops generalizing i with
  | nil => exact h
  | cons o ops ih => exact ih (filed_perform h o)

/-- In a tick in which no handler terminates the story, every handler that is not paused has one
turn. -/
theorem account_inTurn {i : Instance} {b : Beat} {steps : Nat} {w : ω} (hlive : i.terminated = false)
    (hactive : i.paused = false) (hQ : i.queued.Filed)
    (hgoes : (Turn.effects (i.account b steps w).turns).any Effect.terminates = false) :
    ∃ vs, InTurn (i.deliverPosted b.now).1 b steps w (i.account b steps w) vs := by
  have hcame := filed_deliverPosted hQ b.now
  simp only [account, hlive, hactive, Bool.or_self, Bool.false_eq_true, if_false] at hgoes ⊢
  generalize (i.deliverPosted b.now).1 = d at hcame hgoes ⊢
  obtain ⟨vs, h⟩ := goes_runAll hgoes
  obtain ⟨-, hqueued, -⟩ := settle_of_live d _ hgoes
  refine ⟨vs, Goes.inTurn hcame ?_⟩
  simpa only [runners_settle, hqueued, scope_settle] using h

/-- A story that tells who rings, and lights a lamp for a while. -/
def porch : Template :=
  ⟨"porch", true, ((∅ : Table (List Command)).insert "bell"
    [.act (.log [some (.argument 0)])]).insert "lamp" [.wait (Operand.literal (.int 100))]⟩

/-- Two ring the bell, the second of them while the first is heard. -/
def doorstep : Instance :=
  (({ id := 1, template := porch } : Instance).run (ω := Surroundings NoFunctions)
    [.deliver ⟨"bell", [.int 1], false⟩ 0, .deliver ⟨"lamp", [], false⟩ 0,
      .deliver ⟨"bell", [.int 2], false⟩ 0]).1

/-- The second one is heard after the first, and the lamp is left alone. -/
theorem account_inTurn_doorstep :
    let b : Beat := ⟨10, 10, ["lamp"]⟩
    let a := doorstep.account b 100 (⟨{}, ⟨⟩⟩ : Surroundings NoFunctions)
    (∃ vs, InTurn (doorstep.deliverPosted b.now).1 b 100 ⟨{}, ⟨⟩⟩ a vs) ∧
      a.turns.map (·.message.id) = ["bell", "bell"] ∧ a.inst.atWork.map (·.id) = ["lamp"] := by
  intro b a
  have hQ : doorstep.queued.Filed := filed_run Waitlist.filed_empty _
  have hgoes : (Turn.effects a.turns).any Effect.terminates = false := by decide +kernel
  exact ⟨account_inTurn rfl rfl hQ hgoes, by decide +kernel, by decide +kernel⟩

end Instance
end StoryScript
