import StoryScript.Proofs.Replay

/-! Waits for a message, tick by tick. A wait notes the time at which it is first run and keeps it
until it is over, so the time that it compares with is that of the tick in which it began. -/
namespace StoryScript

def Event.began? : Event → Option Command
  | began c => some c
  | _ => none

namespace Event

@[simp] theorem began?_effect (e : Effect) : (effect e).began? = none := rfl
@[simp] theorem began?_began (c : Command) : (began c).began? = some c := rfl
@[simp] theorem began?_entered : entered.began? = none := rfl
@[simp] theorem began?_left (b : Bool) : (left b).began? = none := rfl
@[simp] theorem began?_round (v : Value) : (round v).began? = none := rfl

end Event

/-- The commands that began among some events. -/
def beganOf (es : List Event) : List Command := es.filterMap Event.began?

@[simp] theorem beganOf_nil : beganOf [] = [] := rfl

@[simp] theorem beganOf_append (es fs : List Event) : beganOf (es ++ fs) = beganOf es ++ beganOf fs :=
  List.filterMap_append

@[simp] theorem beganOf_cons (e : Event) (es : List Event) :
    beganOf (e :: es) = e.began?.toList ++ beganOf es := by
  cases e <;> rfl

theorem beganOf_eq_nil {es : List Event} (h : ∀ e ∈ es, e.began? = none) : beganOf es = [] :=
  List.filterMap_eq_nil_iff.2 h

@[simp] theorem beganOf_map_effect (fx : List Effect) : beganOf (fx.map .effect) = [] := by
  apply beganOf_eq_nil
  intro e he
  obtain ⟨f, -, rfl⟩ := List.mem_map.1 he
  rfl

@[simp] theorem beganOf_replicate {e : Event} (he : e.began? = none) (n : Nat) :
    beganOf (List.replicate n e) = [] :=
  beganOf_eq_nil fun _ h => List.eq_of_mem_replicate h ▸ he

/-- The last command that began among some events. -/
def lastBegan? (es : List Event) : Option Command := (beganOf es).getLast?

theorem lastBegan?_eq_none {es : List Event} (h : beganOf es = []) : lastBegan? es = none := by
  rw [lastBegan?, h, List.getLast?_nil]

@[simp] theorem lastBegan?_nil : lastBegan? [] = none := rfl

@[simp] theorem lastBegan?_append (es fs : List Event) :
    lastBegan? (es ++ fs) = (lastBegan? fs).or (lastBegan? es) := by
  simp [lastBegan?, List.getLast?_append]

@[simp] theorem lastBegan?_cons (e : Event) (es : List Event) :
    lastBegan? (e :: es) = (lastBegan? es).or e.began? := by
  have he : lastBegan? [e] = e.began? := by cases e <;> rfl
  rw [← he, ← lastBegan?_append, List.singleton_append]

@[simp] theorem lastBegan?_map_effect (fx : List Effect) : lastBegan? (fx.map .effect) = none :=
  lastBegan?_eq_none (beganOf_map_effect fx)

/-- What a look at the goal of a wait comes to, on some stage. -/
def Await.verdict {ω : Type} [World ω] (a : Await Value) (watch : Watch) (now delta : Int)
    (s : Stage ω) : Verdict :=
  (watch.poll a.goal.sinceStart now delta a.outcomes.limit (a.goal.met s)).1

section
variable {ω : Type} [World ω]

@[simp] theorem Goal.sinceStart_map {α β : Type} (f : α → β) (g : Goal α) :
    (g.map f).sinceStart = g.sinceStart := by
  cases g <;> rfl

theorem Watch.start_poll (w : Watch) (now delta limit : Int) (met : Option Int → Bool) :
    (w.poll true now delta limit met).2.start = some (w.start.getD now) := by
  simp only [poll, if_true]
  split <;> rfl

namespace Queue
variable {m : Moment} {n : Nat} {q : Queue} {s : Stage ω} {t : Tick ω}

omit [World ω] in
@[simp] theorem beganOf_suspend (q : Queue) (n : Nat) (s : Stage ω) :
    beganOf (q.suspend n s).events = [] :=
  beganOf_replicate rfl _

omit [World ω] in
@[simp] theorem lastBegan?_suspend (q : Queue) (n : Nat) (s : Stage ω) :
    lastBegan? (q.suspend n s).events = none :=
  lastBegan?_eq_none (beganOf_suspend q n s)

/-- In the rest of a tick a command that waits is run, in some block and on some stage. -/
inductive Looks (m : Moment) (w : Waiting) (q' : Queue) (s' : Stage ω) : Queue → Stage ω → Prop
  | here (hw : q'.waiting = some w) : Looks m w q' s' q' s'
  | met {q : Queue} {s s₁ : Stage ω} {w₁ w₂ : Waiting} {fx : List Effect} (hw : q.waiting = some w₁)
      (hr : w₁.run m.now m.delta (q.read m s) s = (false, w₂, s₁, fx))
      (hc : w₁.command.chains = true) (h : Looks m w q' s' { q with waiting := none } s₁) :
      Looks m w q' s' q s
  | round {q q₁ q₂ : Queue} {s : Stage ω} {v : Value} (hw : q.waiting = none)
      (hs : (settle q.rest q.loops).2 = (q₁, .round v q₂)) (h : Looks m w q' s' q₂ s) :
      Looks m w q' s' q s
  | acts {q q₁ q₂ : Queue} {s s₁ : Stage ω} {a : Action Operand} {fx : List Effect}
      (hw : q.waiting = none) (hs : (settle q.rest q.loops).2 = (q₁, .command (.act a) q₂))
      (hr : (a.map (q₂.read m s)).run s = (s₁, fx)) (hc : a.chains = true)
      (h : Looks m w q' s' q₂ s₁) : Looks m w q' s' q s
  | waits {q q₁ q₂ : Queue} {s : Stage ω} {c : Command} {w₁ : Waiting} (hw : q.waiting = none)
      (hs : (settle q.rest q.loops).2 = (q₁, .command c q₂)) (hc : c.waiting? = some w₁)
      (h : Looks m w q' s' { q₂ with waiting := some w₁ } s) : Looks m w q' s' q s
  | repeats {q q₁ q₂ : Queue} {s : Stage ω} {range : Range Operand} {body : List Command}
      (hw : q.waiting = none)
      (hs : (settle q.rest q.loops).2 = (q₁, .command (.repeat range body) q₂))
      (h : Looks m w q' s' { q₂ with loops := .ofRange range body (q₂.read m s) :: q₂.loops } s) :
      Looks m w q' s' q s

/-- Where a wait that is under way after a tick has come from: it began in the tick, nothing began
after it, and it was pending when it was run; or it was under way before, nothing began, and it was
pending when it was run first of all. -/
theorem waiting_of_runs (h : Runs m n q s t) {wait : Await Operand} {watch : Watch}
    (hw : t.queue.waiting = some (.goal wait watch)) (hgoal : wait.goal.sinceStart = true) :
    (lastBegan? t.events = some (.await wait) ∧ watch.start = some m.now ∧
        ∃ q' s', Looks m (.goal wait {}) q' s' q s ∧
          (wait.map (q'.read m s')).verdict {} m.now m.delta s' = .pending) ∨
      (lastBegan? t.events = none ∧ ∃ old : Watch, q.waiting = some (.goal wait old) ∧
        watch.start = some (old.start.getD m.now) ∧
          (wait.map (q.read m s)).verdict old m.now m.delta s = .pending) := by
  have hleft {q q' : Queue} {es : List Event} {next : Next}
      (hs : settle q.rest q.loops = (es, q', next)) : q'.waiting = none := by
    have hnone := (waiting_settle q.rest q.loops).1
    rwa [hs] at hnone
  induction h with
  | @pending _ q s s' w w' fx hw' hr =>
    obtain rfl : w' = .goal wait watch := Option.some.inj hw
    refine .inr ⟨by simp, ?_⟩
    cases w with
    | time limit elapsed =>
      simp only [Waiting.run, Prod.mk.injEq] at hr
      cases hr.2.1
    | goal wait' old =>
      simp only [Waiting.run, Prod.mk.injEq, Waiting.goal.injEq] at hr
      obtain ⟨hpending, ⟨rfl, hwatch⟩, -⟩ := hr
      have hsince : (wait'.map (q.read m s)).goal.sinceStart = true := by
        simpa [Await.map] using hgoal
      refine ⟨old, hw', ?_, by simpa [Await.run, Await.verdict] using hpending⟩
      rw [← hwatch, Await.run, hsince]
      exact old.start_poll _ _ _ _
  | stops => cases hw
  | met hw' hr hc _ ih =>
    rcases ih hw with ⟨hlast, hstart, q', s', hlook, hpending⟩ | ⟨-, old, hold, -⟩
    · exact .inl ⟨by simp [hlast], hstart, q', s', .met hw' hr hc hlook, hpending⟩
    · cases hold
  | done _ hs | spentCommand _ hs | spentRound _ hs =>
    simp [hleft hs] at hw
  | round hw' hs _ ih =>
    rcases ih hw with ⟨hlast, hstart, q', s', hlook, hpending⟩ | ⟨-, old, hold, -⟩
    · exact .inl ⟨by simp [hlast], hstart, q', s', .round hw' (congrArg Prod.snd hs) hlook, hpending⟩
    · simp [waiting_of_round hs] at hold
  | acts hw' hs hr hc _ ih =>
    rcases ih hw with ⟨hlast, hstart, q', s', hlook, hpending⟩ | ⟨-, old, hold, -⟩
    · exact .inl ⟨by simp [hlast], hstart, q', s', .acts hw' (congrArg Prod.snd hs) hr hc hlook,
        hpending⟩
    · simp [waiting_of_command hs] at hold
  | ends _ hs => simp [waiting_of_command hs] at hw
  | @waits _ _ _ _ _ _ c w t hw' hs hc _ ih =>
    rcases ih hw with ⟨hlast, hstart, q', s', hlook, hpending⟩ | ⟨hlast, old, hold, hstart, hpending⟩
    · exact .inl ⟨by simp [hlast], hstart, q', s', .waits hw' (congrArg Prod.snd hs) hc hlook,
        hpending⟩
    · -- The wait has just begun, so it had noted no time before.
      obtain rfl : w = .goal wait old := Option.some.inj hold
      cases c <;> cases hc
      exact .inl ⟨by simp [hlast], hstart, _, _, .waits hw' (congrArg Prod.snd hs) rfl (.here rfl),
        hpending⟩
  | repeats hw' hs _ ih =>
    rcases ih hw with ⟨hlast, hstart, q', s', hlook, hpending⟩ | ⟨-, old, hold, -⟩
    · exact .inl ⟨by simp [hlast], hstart, q', s', .repeats hw' (congrArg Prod.snd hs) hlook,
        hpending⟩
    · simp [waiting_of_command hs] at hold

theorem waiting_of_tick (q : Queue) (m : Moment) (n : Nat) (s : Stage ω) {wait : Await Operand}
    {watch : Watch} (hw : (q.tick m n s).queue.waiting = some (.goal wait watch))
    (hgoal : wait.goal.sinceStart = true) :
    (lastBegan? (q.tick m n s).events = some (.await wait) ∧ watch.start = some m.now ∧
        ∃ q' s', Looks m (.goal wait {}) q' s' { q with deferred := false } s ∧
          (wait.map (q'.read m s')).verdict {} m.now m.delta s' = .pending) ∨
      (lastBegan? (q.tick m n s).events = none ∧ ∃ old : Watch, q.waiting = some (.goal wait old) ∧
        watch.start = some (old.start.getD m.now) ∧
          (wait.map (q.read m s)).verdict old m.now m.delta s = .pending) := by
  obtain ⟨t, ht, htick⟩ := runs_tick q m n s
  rw [htick] at hw ⊢
  have hentered : lastBegan? (List.replicate q.loops.length .entered) = none :=
    lastBegan?_eq_none (beganOf_replicate rfl _)
  rcases waiting_of_runs ht hw hgoal with ⟨hlast, hrest⟩ | ⟨hlast, hrest⟩
  · exact .inl ⟨by simp [hentered, hlast], hrest⟩
  · exact .inr ⟨by simp [hentered, hlast], hrest⟩

variable {w : Waiting} {q' : Queue} {s' : Stage ω}

/-- The command that is run in a tick was under way and is run before all else, or has just begun. -/
theorem Looks.cases (h : Looks m w q' s' q s) :
    (q' = q ∧ s' = s ∧ q.waiting = some w) ∨ ∃ c : Command, c.waiting? = some w := by
  induction h with
  | here hw => exact .inl ⟨rfl, rfl, hw⟩
  | met _ _ _ _ ih =>
    rcases ih with ⟨-, -, hw⟩ | hnew
    · cases hw
    · exact .inr hnew
  | @round q q₁ q₂ s v _ hs _ ih =>
    have hq₂ : q₂.waiting = none := waiting_of_round (Prod.ext rfl hs)
    rcases ih with ⟨-, -, hw⟩ | hnew
    · simp [hq₂] at hw
    · exact .inr hnew
  | @acts q q₁ q₂ _ _ _ _ _ hs _ _ _ ih | @repeats q q₁ q₂ _ _ _ _ hs _ ih =>
    have hq₂ : q₂.waiting = none := waiting_of_command (Prod.ext rfl hs)
    rcases ih with ⟨-, -, hw⟩ | hnew
    · simp [hq₂] at hw
    · exact .inr hnew
  | waits _ _ hc _ ih =>
    rcases ih with ⟨-, -, hw⟩ | hnew
    · obtain rfl := Option.some.inj hw
      exact .inr ⟨_, hc⟩
    · exact .inr hnew

/-- When messages came is the same wherever a command is run in a tick. -/
theorem Looks.triggers (h : Looks m w q' s' q s) : s'.scope.triggers = s.scope.triggers := by
  induction h with
  | here => rfl
  | @met q s s₁ w₁ w₂ fx hw hr hc h ih =>
    have hreplay := w₁.replay_run m.now m.delta (q.read m s) s
    rw [hr] at hreplay
    rw [ih, show s₁ = s.replayAll fx from hreplay, Stage.triggers_replayAll]
  | @acts q q₁ q₂ s s₁ a fx hw hs hr hc h ih =>
    have hreplay := (a.map (q₂.read m s)).replay_run s
    rw [hr] at hreplay
    rw [ih, show s₁ = s.replayAll fx from hreplay, Stage.triggers_replayAll]
  | round _ _ _ ih | waits _ _ _ _ ih | repeats _ _ _ ih => exact ih

end Queue
end
end StoryScript
