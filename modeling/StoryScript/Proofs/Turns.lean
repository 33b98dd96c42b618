import Mathlib.Data.List.Basic
import StoryScript.Proofs.Delivery

/-! The turns of the handlers of a story. A handler that gets its turn finds its block as it was left
by its last turn, or as it begins; so what is so of every block that begins, and stays so in every
turn, is so of every handler whenever it is its turn. -/
namespace StoryScript.Instance
variable {ω : Type} [World ω]

/-- What a handler finds when it is its turn. -/
structure Seat (ω : Type) where
  runner : Runner
  moment : Moment
  steps : Nat
  stage : Stage ω

def Seat.tick (x : Seat ω) : Tick ω := x.runner.queue.tick x.moment x.steps x.stage

/-- The handler as its turn leaves it. -/
def Seat.left (x : Seat ω) : Runner := { x.runner with queue := x.tick.queue }

/-- Whether a turn is the one that begins with what is found. -/
structure Seat.Takes (x : Seat ω) (turn : Turn) : Prop where
  message : turn.message = x.runner.message
  moment : turn.moment = x.moment
  events : turn.events = x.tick.events

/-- What is found in the turns of some handlers, from some point of a tick on. -/
inductive Seated (t : Template) (b : Beat) (x : Seat ω) :
    Nat → Waitlist → Stage ω → List Runner → Prop
  | here {steps : Nat} {Q : Waitlist} {s : Stage ω} {r : Runner} {todo : List Runner}
      (hp : b.paused.contains r.message.id = false) (hx : x = ⟨r, b.moment r.message, steps, s⟩) :
      Seated t b x steps Q s (r :: todo)
  | paused {steps : Nat} {Q : Waitlist} {s : Stage ω} {r : Runner} {todo : List Runner}
      (hp : b.paused.contains r.message.id = true) (h : Seated t b x steps Q s todo) :
      Seated t b x steps Q s (r :: todo)
  | later {steps : Nat} {Q : Waitlist} {s : Stage ω} {r : Runner} {todo : List Runner}
      (hp : b.paused.contains r.message.id = false)
      (hgoes : endsStory (takeTurn t b steps Q s r).turn.events = false)
      (h : Seated t b x (takeTurn t b steps Q s r).steps (takeTurn t b steps Q s r).queued
        (takeTurn t b steps Q s r).stage (todo ++ (takeTurn t b steps Q s r).follows.toList)) :
      Seated t b x steps Q s (r :: todo)

theorem Seated.moment {t : Template} {b : Beat} {x : Seat ω} {steps : Nat} {Q : Waitlist}
    {s : Stage ω} {todo : List Runner} (h : Seated t b x steps Q s todo) :
    x.moment = b.moment x.runner.message := by
  induction h with
  | here _ hx =>
    subst hx
    rfl
  | paused _ _ ih | later _ _ _ ih => exact ih

/-- What is found in the turns of a story in its tick. -/
structure Seats (i : Instance) (b : Beat) (steps : Nat) (w : ω) (x : Seat ω) : Prop where
  live : i.terminated = false
  active : i.paused = false
  seated : Seated i.template b x steps (i.deliverPosted b.now).1.queued
    ⟨(i.deliverPosted b.now).1.scope, w⟩ (i.deliverPosted b.now).1.runners

/-! ### What is carried through turns -/

section
variable {t : Template} {b : Beat}

/-- A handler that stays after its turn is left by the turn. -/
theorem stays_takeTurn {steps : Nat} {Q : Waitlist} {s : Stage ω} {r r' : Runner}
    (h : r' ∈ (takeTurn t b steps Q s r).stays.toList) :
    r' = Seat.left ⟨r, b.moment r.message, steps, s⟩ := by
  simp only [takeTurn] at h
  split at h
  · simp at h
  · exact List.mem_singleton.1 h

/-- One that takes the place of a handler answers the first message that waited for it. -/
theorem follows_cases (t : Template) (b : Beat) (steps : Nat) (Q : Waitlist) (s : Stage ω)
    (r : Runner) :
    ((takeTurn t b steps Q s r).queued = Q ∧ (takeTurn t b steps Q s r).follows = none) ∨
      ∃ m, Q.pop? r.message.id = some (m, (takeTurn t b steps Q s r).queued) ∧
        (takeTurn t b steps Q s r).follows = activate? t m := by
  simp only [takeTurn]
  split
  · unfold release
    split
    · next m Q' hp => exact .inr ⟨m, hp, rfl⟩
    · exact .inl ⟨rfl, rfl⟩
  · exact .inl ⟨rfl, rfl⟩

/-- A handler that takes the place of another begins. -/
theorem follows_takeTurn {steps : Nat} {Q : Waitlist} {s : Stage ω} {r r' : Runner}
    (h : r' ∈ (takeTurn t b steps Q s r).follows.toList) : ∃ m, activate? t m = some r' := by
  rcases follows_cases t b steps Q s r with ⟨-, hnone⟩ | ⟨m, -, hm⟩
  · simp [hnone] at h
  · exact ⟨m, hm ▸ Option.mem_toList.1 h⟩

variable {Before After : Runner → Prop} (hfresh : ∀ m r, activate? t m = some r → Before r)
  (hkeep : ∀ r, Before r → After r)
include hfresh hkeep

/-- What is so of every handler before its turn, and what its turn makes of that, is so of all of
them in their turns and after the tick. -/
theorem carried_runAll (steps : Nat) (seen : List Runner) (Q : Waitlist) (s : Stage ω)
    (todo : List Runner)
    (hturn : ∀ x, Seated t b x steps Q s todo → Before x.runner → After x.left)
    (hseen : ∀ r ∈ seen, After r) (htodo : ∀ r ∈ todo, Before r) :
    (∀ r ∈ (runAll t b steps seen Q s todo).runners, After r) ∧
      ∀ turn ∈ (runAll t b steps seen Q s todo).turns,
        ∃ x : Seat ω, Seated t b x steps Q s todo ∧ x.Takes turn ∧ Before x.runner := by
  have htakes (steps : Nat) (Q : Waitlist) (s : Stage ω) (r : Runner) :
      Seat.Takes ⟨r, b.moment r.message, steps, s⟩ (takeTurn t b steps Q s r).turn := ⟨rfl, rfl, rfl⟩
  fun_induction runAll t b steps seen Q s todo with
  | case1 => exact ⟨hseen, by simp⟩
  | case2 steps seen Q s r todo hpaused ih =>
    obtain ⟨hr, hrest⟩ := List.forall_mem_cons.1 htodo
    have hseen' : ∀ r' ∈ seen ++ [r], After r' := by
      simpa [or_imp, forall_and] using ⟨hseen, hkeep r hr⟩
    obtain ⟨hrunners, hturns⟩ := ih (fun x hx => hturn x (.paused hpaused hx)) hseen' hrest
    refine ⟨hrunners, fun turn hmem => ?_⟩
    obtain ⟨x, hx, hP⟩ := hturns turn hmem
    exact ⟨x, .paused hpaused hx, hP⟩
  | case3 steps seen Q s r todo hpaused shift =>
    have hp : b.paused.contains r.message.id = false := by simpa using hpaused
    refine ⟨by simp, fun turn hmem => ?_⟩
    obtain rfl := List.mem_singleton.1 hmem
    exact ⟨_, .here hp rfl, htakes steps Q s r, htodo r (by simp)⟩
  | case4 steps seen Q s r todo hpaused shift hgoes =>
    rename_i ih
    have hp : b.paused.contains r.message.id = false := by simpa using hpaused
    have hends : endsStory shift.turn.events = false := by simpa using hgoes
    obtain ⟨hr, hrest⟩ := List.forall_mem_cons.1 htodo
    have hseen' : ∀ r' ∈ seen ++ shift.stays.toList, After r' := by
      intro r' hr'
      rcases List.mem_append.1 hr' with hr' | hr'
      · exact hseen r' hr'
      · rw [stays_takeTurn hr']
        exact hturn _ (.here hp rfl) hr
    have htodo' : ∀ r' ∈ todo ++ shift.follows.toList, Before r' := by
      intro r' hr'
      rcases List.mem_append.1 hr' with hr' | hr'
      · exact hrest r' hr'
      · obtain ⟨m, hm⟩ := follows_takeTurn hr'
        exact hfresh m r' hm
    obtain ⟨hrunners, hturns⟩ := ih (fun x hx => hturn x (.later hp hends hx)) hseen' htodo'
    refine ⟨hrunners, List.forall_mem_cons.2 ⟨?_, fun turn hmem => ?_⟩⟩
    · exact ⟨_, .here hp rfl, htakes steps Q s r, hr⟩
    · obtain ⟨x, hx, hP⟩ := hturns turn hmem
      exact ⟨x, .later hp hends hx, hP⟩

end

section
variable {i : Instance} {Before After : Runner → Prop}
  (hfresh : ∀ m r, activate? i.template m = some r → Before r) (h : ∀ r ∈ i.runners, Before r)
include hfresh h

omit [World ω] in
theorem carried_deliver (m : Message) (now : Int) : ∀ r ∈ (i.deliver m now).runners, Before r := by
  unfold deliver fate
  split
  · exact h
  · split
    · exact h
    · next r hr =>
      split
      · exact h
      · intro r' hr'
        rcases List.mem_append.1 hr' with hr' | hr'
        · exact h r' hr'
        · obtain rfl := List.mem_singleton.1 hr'
          exact hfresh m r' hr

omit [World ω] in
theorem carried_deliverAll (now : Int) (ms : List Message) :
    ∀ r ∈ (deliverAll now i ms).1.runners, Before r := by
  induction ms generalizing i with
  | nil => exact h
  | cons m ms ih =>
    have hm := carried_deliver hfresh h m now
    rw [← template_deliver i m now] at hfresh
    exact ih hfresh hm

theorem carried_account (hkeep : ∀ r, Before r → After r) (b : Beat) (steps : Nat) (w : ω)
    (hturn : ∀ x, i.Seats b steps w x → Before x.runner → After x.left) :
    (∀ r ∈ (i.account b steps w).inst.runners, After r) ∧
      ∀ turn ∈ (i.account b steps w).turns,
        ∃ x : Seat ω, i.Seats b steps w x ∧ x.Takes turn ∧ Before x.runner := by
  have htemplate := template_deliverPosted i b.now
  have hcame : ∀ r ∈ (i.deliverPosted b.now).1.runners, Before r :=
    carried_deliverAll (i := { i with posted := [] }) hfresh h b.now i.posted
  unfold account
  split
  · exact ⟨fun r hr => hkeep r (h r hr), by simp⟩
  · next hidle =>
    obtain ⟨hlive, hactive⟩ : i.terminated = false ∧ i.paused = false := by simpa using hidle
    obtain ⟨hrunners, hturns⟩ := carried_runAll hfresh hkeep steps []
      (i.deliverPosted b.now).1.queued ⟨(i.deliverPosted b.now).1.scope, w⟩
      (i.deliverPosted b.now).1.runners (fun x hx => hturn x ⟨hlive, hactive, hx⟩) (by simp) hcame
    simp only [htemplate, runners_settle]
    refine ⟨hrunners, fun turn hmem => ?_⟩
    obtain ⟨x, hx, htakes⟩ := hturns turn hmem
    exact ⟨x, ⟨hlive, hactive, hx⟩, htakes⟩

end
end StoryScript.Instance
