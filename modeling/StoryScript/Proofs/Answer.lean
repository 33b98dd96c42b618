import StoryScript.Proofs.Frame
import StoryScript.Proofs.Nesting

/-! What a tick answers. A tick is pending when it was cut short, or when a command ended it and
others are left; either way that is whether anything is left of the block. -/
namespace StoryScript

/-- Whether a tick is cut short by the event that comes last in it: by a command that stays pending,
or by one for whose beginning no step is left. -/
def Event.suspends : Event → Bool
  | left pending => pending
  | effect (.warned (.stepsSpent _)) => true
  | _ => false

/-- What a tick answers: that it was cut short, or ended by a command after which others come. -/
def Tick.pending {ω : Type} (t : Tick ω) : Bool :=
  t.events.getLast?.any Event.suspends || t.queue.deferred && !t.queue.rest.isEmpty

theorem suspends_append {es : List Event} (h : es.getLast?.any Event.suspends = false)
    (fs : List Event) :
    (es ++ fs).getLast?.any Event.suspends = fs.getLast?.any Event.suspends := by
  rw [List.getLast?_append]
  cases fs.getLast? with
  | none => simpa using h
  | some e => rfl

theorem Tick.pending_after {ω : Type} {es : List Event}
    (h : es.getLast?.any Event.suspends = false) (t : Tick ω) :
    (t.after es).pending = t.pending := by
  simp only [Tick.pending, Tick.events_after, Tick.queue_after, suspends_append h]

namespace Queue

theorem suspends_settle {rest : List Command} {ls : List Loop} {es : List Event} {q : Queue}
    {next : Next} (hs : settle rest ls = (es, q, next)) :
    es.getLast?.any Event.suspends = false := by
  induction ls generalizing es with
  | nil => cases rest <;> (cases hs; rfl)
  | cons l ls ih =>
    simp only [settle] at hs
    split at hs
    · cases hs
      rfl
    · split at hs
      · cases hs
        rfl
      · rcases hrest : settle rest ls with ⟨es', q', next'⟩
        rw [hrest] at hs
        cases hs
        have hleft : ([.left false] : List Event).getLast?.any Event.suspends = false := rfl
        exact (suspends_append hleft es').trans (ih hrest)

theorem loops_of_round {rest : List Command} {ls : List Loop} {es : List Event} {q q' : Queue}
    {v : Value} (hs : settle rest ls = (es, q, .round v q')) : q.loops ≠ [] := by
  induction ls generalizing es with
  | nil => cases rest <;> cases hs
  | cons l ls ih =>
    simp only [settle] at hs
    split at hs
    · cases hs
    · split at hs
      · cases hs
        simp
      · rcases hrest : settle rest ls with ⟨es', q'', next'⟩
        rw [hrest] at hs
        cases hs
        exact ih hrest

section
variable {ω : Type} {q : Queue} {es : List Event} {e : Event}

/-- A tick that ends inside of a repetition answers that it was cut short. -/
theorem pending_suspend (h : q.loops ≠ []) (n : Nat) (s : Stage ω) :
    (q.suspend n s).pending = true := by
  simp [Tick.pending, suspend, List.getLast?_replicate, h, Event.suspends]

theorem pending_cut (he : e.suspends = true) (n : Nat) (s : Stage ω) :
    ((q.suspend n s).after (es ++ [e])).pending = true := by
  cases hloops : q.loops with
  | nil => simp [Tick.pending, suspend, hloops, he]
  | cons l ls =>
    have hsuspend := pending_suspend (q := q) (by simp [hloops]) n s
    simp only [Tick.pending, suspend, hloops, Tick.events_after, List.getLast?_append] at hsuspend ⊢
    simp [List.getLast?_replicate, Event.suspends]

theorem pending_ended (he : e.suspends = false) (n : Nat) (s : Stage ω) :
    ((suspend { q with deferred := q.loops.isEmpty } n s).after (es ++ [e])).pending =
      (!q.loops.isEmpty || !q.rest.isEmpty) := by
  cases hloops : q.loops with
  | nil => simp [Tick.pending, suspend, he]
  | cons l ls =>
    have hlast : (es ++ [e]).getLast?.any Event.suspends = false := by simpa using he
    rw [Tick.pending_after hlast, pending_suspend (by simp)]
    rfl

theorem isEmpty_of_waiting {w : Waiting} (h : q.waiting = some w) : q.isEmpty = false := by
  simp [isEmpty, size, isBusy, h]

theorem isEmpty_of_not_waiting (h : q.waiting = none) :
    q.isEmpty = (q.loops.isEmpty && q.rest.isEmpty) := by
  obtain ⟨rest, loops, w, d⟩ := q
  subst h
  cases loops <;> cases rest <;> rfl

end

variable {ω : Type} [World ω] {m : Moment}

/-- A tick answers whether anything is left of the block. -/
theorem pending_runs {n : Nat} {q : Queue} {s : Stage ω} {t : Tick ω} (h : Runs m n q s t)
    (hq : q.deferred = false) : t.pending = !t.queue.isEmpty := by
  have hran (fx : List Effect) :
      (.entered :: fx.map .effect ++ [.left false] : List Event).getLast?.any Event.suspends =
        false := by rw [List.getLast?_concat]; rfl
  induction h with
  | @pending n q s s' w w' fx hw hr =>
    rw [pending_cut rfl, Tick.queue_after, queue_suspend, isEmpty_of_waiting rfl]
    rfl
  | @stops n q s s' w w' fx hw hr hc =>
    rw [pending_ended (q := { q with waiting := none }) rfl, Tick.queue_after, queue_suspend,
      isEmpty_of_not_waiting rfl, Bool.not_and]
  | met hw hr hc ht ih => exact (Tick.pending_after (hran _) _).trans (ih hq)
  | done hw hs =>
    obtain rfl := settle_nothing hs
    rw [Tick.pending_after (suspends_settle hs)]
    rfl
  | @spentCommand q q' q'' s es c hw hs =>
    have hcut : ((q'.suspend 0 s).after ([] ++ [.effect (.warned (.stepsSpent c.name))])).pending =
        true := pending_cut rfl 0 s
    rw [List.nil_append] at hcut
    rw [Tick.pending_after (suspends_settle hs), hcut, Tick.queue_after, Tick.queue_after,
      queue_suspend, isEmpty_settle hs (by simp)]
    rfl
  | @spentRound q q' q'' s es v hw hs =>
    rw [Tick.pending_after (suspends_settle hs), pending_suspend (loops_of_round hs),
      Tick.queue_after, queue_suspend, isEmpty_settle hs (by simp)]
    rfl
  | round hw hs ht ih =>
    rw [Tick.pending_after (suspends_settle hs), Tick.pending_after rfl]
    exact ih (underWay_of_round hs).2
  | acts hw hs hr hc ht ih =>
    rw [Tick.pending_after (suspends_settle hs), Tick.pending_after rfl,
      Tick.pending_after (hran _)]
    exact ih (underWay_of_command hs).2
  | @ends n q q' q'' s s' es c fx hw hs hr hc =>
    rw [Tick.pending_after (suspends_settle hs), Tick.pending_after rfl, pending_ended rfl]
    have hw' : q''.waiting = none := waiting_of_command hs
    simp only [Tick.queue_after, queue_suspend]
    rw [isEmpty_of_not_waiting (q := { q'' with deferred := q''.loops.isEmpty }) hw', Bool.not_and]
  | waits hw hs hc ht ih =>
    rw [Tick.pending_after (suspends_settle hs), Tick.pending_after rfl]
    exact ih (underWay_of_command hs).2
  | repeats hw hs ht ih =>
    rw [Tick.pending_after (suspends_settle hs), Tick.pending_after rfl, Tick.pending_after rfl]
    exact ih (underWay_of_command hs).2

theorem pending_tick (q : Queue) (m : Moment) (n : Nat) (s : Stage ω) :
    (q.tick m n s).pending = !(q.tick m n s).queue.isEmpty := by
  obtain ⟨t, ht, htick⟩ := runs_tick q m n s
  have hentered : (List.replicate q.loops.length Event.entered).getLast?.any Event.suspends =
      false := by
    rw [List.getLast?_replicate]
    split <;> rfl
  rw [htick, Tick.pending_after hentered, Tick.queue_after]
  exact pending_runs ht rfl

end Queue
end StoryScript
