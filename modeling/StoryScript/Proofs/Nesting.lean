import StoryScript.Board
import StoryScript.Proofs.Tick

/-! Which commands the events of a tick concern. A command that begins stands inside of those that
have begun before it and are not over, and the command that is left is always the innermost. So the
trace of a tick, read from the commands that were under way before it, tells which of them were over
in it; and a command that ends the tick is the last of which anything is told. -/
namespace StoryScript

/-- The command of a repetition under way. -/
def Loop.command (l : Loop) : Command := .repeat l.range l.body

/-- The commands inside of which a tick stands after some events, from the innermost on, if it stood
inside of some before them. -/
def inside (cs : List Command) : List Event → Option (List Command)
  | [] => some cs
  | .began c :: es => inside (c :: cs) es
  | .left _ :: es =>
    match cs with
    | [] => none
    | _ :: around => inside around es
  | .effect _ :: es | .entered :: es | .round _ :: es => inside cs es

namespace Queue

/-- The commands that have begun and are not over, from the innermost on. -/
def underWay (q : Queue) : List Command :=
  (q.waiting.map Waiting.command).toList ++ q.loops.map Loop.command

/-- The traces that begin inside of some commands, and after which some commands are under way. A
command that is over lets the tick go on if it chains. One that does not, or is pending, leaves the
commands around it pending. The block is deferred if it was ended by one of its own commands. -/
inductive Traces : List Command → List Event → List Command → Bool → Prop
  | done : Traces [] [] [] false
  | began {cs left : List Command} {es : List Event} {d : Bool} (c : Command)
      (h : Traces (c :: cs) es left d) : Traces cs (.began c :: es) left d
  | entered {cs left : List Command} {es : List Event} {d : Bool} (h : Traces cs es left d) :
      Traces cs (.entered :: es) left d
  | effect {cs left : List Command} {es : List Event} {d : Bool} (e : Effect)
      (h : Traces cs es left d) : Traces cs (.effect e :: es) left d
  | round {cs left : List Command} {es : List Event} {d : Bool} (v : Value)
      (h : Traces cs es left d) : Traces cs (.round v :: es) left d
  | chains {c : Command} {cs left : List Command} {es : List Event} {d : Bool}
      (hc : c.chains = true) (h : Traces cs es left d) : Traces (c :: cs) (.left false :: es) left d
  | ends {c : Command} (cs : List Command) (hc : c.chains = false) :
      Traces (c :: cs) (.left false :: List.replicate cs.length (.left true)) cs cs.isEmpty
  | pending (cs : List Command) : Traces cs (List.replicate cs.length (.left true)) cs false

namespace Traces
variable {cs left : List Command} {es : List Event} {d : Bool}

theorem inside_replicate (cs : List Command) :
    inside cs (List.replicate cs.length (.left true)) = some [] := by
  induction cs with
  | nil => rfl
  | cons c cs ih => exact ih

/-- Every command inside of which a tick stands is left in it. -/
theorem inside_eq (h : Traces cs es left d) : inside cs es = some [] := by
  induction h with
  | done => rfl
  | began _ _ ih | entered _ ih | effect _ _ ih | round _ _ ih | chains _ _ ih => exact ih
  | ends => exact inside_replicate _
  | pending => exact inside_replicate _

/-- What follows when a command is over that ends the tick: the commands around it are left pending,
and nothing else is told. -/
theorem after_ends (h : Traces cs es left d) {before after : List Event} {c : Command}
    {around : List Command} (he : es = before ++ .left false :: after)
    (hin : inside cs before = some (c :: around)) (hc : c.chains = false) :
    after = List.replicate around.length (.left true) ∧ left = around ∧ d = around.isEmpty := by
  have hpending {n : Nat} {before : List Event}
      (he : List.replicate n (.left true) = before ++ .left false :: after) : False := by
    have hmem : Event.left false ∈ before ++ .left false :: after := by simp
    rw [← he] at hmem
    cases (List.mem_replicate.1 hmem).2
  induction h generalizing before with
  | done => simp at he
  | began c' _ ih =>
    rcases List.cons_eq_append_iff.1 he with ⟨-, he⟩ | ⟨before, rfl, hes⟩
    · cases he
    · exact ih hes hin
  | entered _ ih | effect _ _ ih | round _ _ ih =>
    rcases List.cons_eq_append_iff.1 he with ⟨-, he⟩ | ⟨before, rfl, hes⟩
    · cases he
    · exact ih hes hin
  | chains hchains _ ih =>
    rcases List.cons_eq_append_iff.1 he with ⟨rfl, -⟩ | ⟨before, rfl, hes⟩
    · obtain ⟨rfl, rfl⟩ := List.cons_eq_cons.1 (Option.some.inj hin)
      rw [hc] at hchains
      cases hchains
    · exact ih hes hin
  | ends =>
    rcases List.cons_eq_append_iff.1 he with ⟨rfl, he⟩ | ⟨before, rfl, hes⟩
    · obtain ⟨rfl, rfl⟩ := List.cons_eq_cons.1 (Option.some.inj hin)
      obtain ⟨-, rfl⟩ := List.cons_eq_cons.1 he
      exact ⟨rfl, rfl, rfl⟩
    · exact (hpending hes).elim
  | pending => exact (hpending he).elim

/-- A command is run before it is left. -/
theorem ran {p : Bool} (fx : List Effect) (h : Traces cs (.left p :: es) left d) :
    Traces cs (.entered :: fx.map .effect ++ [.left p] ++ es) left d := by
  refine .entered ?_
  induction fx with
  | nil => exact h
  | cons e fx ih => exact .effect e ih

end Traces

/-- Repetitions that are over are left before the tick goes on. -/
theorem traces_settle {q q' : Queue} {next : Next} {es fs : List Event} {left : List Command}
    {d : Bool} (hw : q.waiting = none) (hs : settle q.rest q.loops = (es, q', next))
    (h : Traces q'.underWay fs left d) : Traces q.underWay (es ++ fs) left d := by
  obtain ⟨rest, ls, _, deferred⟩ := q
  subst hw
  induction ls generalizing es with
  | nil => cases rest <;> (cases hs; exact h)
  | cons l ls ih =>
    simp only [settle] at hs
    split at hs
    · cases hs
      exact h
    · split at hs
      · cases hs
        exact h
      · rcases hrest : settle rest ls with ⟨es', q'', next'⟩
        rw [hrest] at hs
        cases hs
        exact .chains rfl (ih hrest)

/-- What comes next in a block begins inside of the commands that are under way in it. -/
theorem underWay_settle (rest : List Command) (ls : List Loop) :
    (settle rest ls).2.1.deferred = false ∧
      match (settle rest ls).2.2 with
      | .nothing => (settle rest ls).2.1.underWay = []
      | .command _ q | .round _ q =>
        q.underWay = (settle rest ls).2.1.underWay ∧ q.deferred = false := by
  induction ls with
  | nil => cases rest <;> simp [settle, underWay]
  | cons l ls ih =>
    simp only [settle]
    split
    · exact ⟨rfl, rfl, rfl⟩
    · split
      · exact ⟨rfl, rfl, rfl⟩
      · exact ih

theorem underWay_of_command {rest : List Command} {ls : List Loop} {es : List Event} {q q' : Queue}
    {c : Command} (hs : settle rest ls = (es, q, .command c q')) :
    q'.underWay = q.underWay ∧ q'.deferred = false := by
  have h := (underWay_settle rest ls).2
  rwa [hs] at h

theorem underWay_of_round {rest : List Command} {ls : List Loop} {es : List Event} {q q' : Queue}
    {v : Value} (hs : settle rest ls = (es, q, .round v q')) :
    q'.underWay = q.underWay ∧ q'.deferred = false := by
  have h := (underWay_settle rest ls).2
  rwa [hs] at h

variable {ω : Type} [World ω] {m : Moment}

theorem underWay_of_waiting {q : Queue} {w : Waiting} (hw : q.waiting = some w) :
    q.underWay = w.command :: q.loops.map Loop.command := by
  simp [underWay, hw]

theorem underWay_of_not_waiting {q : Queue} (hw : q.waiting = none) :
    q.underWay = q.loops.map Loop.command := by
  simp [underWay, hw]

theorem underWay_push {q : Queue} (hw : q.waiting = none) (l : Loop) :
    { q with loops := l :: q.loops }.underWay = l.command :: q.underWay := by
  simp [underWay, hw]

theorem command_run {w w' : Waiting} {now delta : Int} {read : Operand → Value} {p : Bool}
    {s s' : Stage ω} {fx : List Effect} (h : w.run now delta read s = (p, w', s', fx)) :
    w'.command = w.command := by
  cases w <;> (cases h; rfl)

omit [World ω] in
/-- A tick that ends where it stands leaves everything pending that is under way. -/
theorem traces_suspend {q q' : Queue} {next : Next} {es : List Event}
    (hs : settle q.rest q.loops = (es, q', next)) (n : Nat) (s : Stage ω) :
    Traces q'.underWay (q'.suspend n s).events q'.underWay q'.deferred := by
  have hw := (waiting_settle q.rest q.loops).1
  have hd := (underWay_settle q.rest q.loops).1
  rw [hs] at hw hd
  have h := Traces.pending (q'.loops.map Loop.command)
  rw [List.length_map] at h
  rwa [hd, underWay_of_not_waiting hw]

/-- The rest of a tick is traced from the commands that are under way in it. -/
theorem traces_runs {n : Nat} {q : Queue} {s : Stage ω} {t : Tick ω} (h : Runs m n q s t)
    (hq : q.deferred = false) : Traces q.underWay t.events t.queue.underWay t.queue.deferred := by
  induction h with
  | @pending n q s s' w w' fx hw hr =>
    have hstay : ({ q with waiting := some w' } : Queue).underWay = q.underWay := by
      rw [underWay_of_waiting hw, underWay_of_waiting rfl, command_run hr]
    have hleft := Traces.pending q.underWay
    rw [underWay_of_waiting hw, List.length_cons, List.length_map] at hleft
    rw [Tick.queue_after, queue_suspend, hstay, underWay_of_waiting hw, hq]
    exact Traces.ran fx hleft
  | @stops n q s s' w w' fx hw hr hc =>
    have hleft := Traces.ends (q.loops.map Loop.command) hc
    rw [List.length_map, List.isEmpty_map] at hleft
    rw [underWay_of_waiting hw]
    exact Traces.ran fx hleft
  | @met n q s s' w w' fx t hw hr hc ht ih =>
    have hrest := Traces.chains hc (ih hq)
    rw [underWay_of_waiting hw]
    exact Traces.ran fx hrest
  | @done n q q' s es hw hs => exact traces_settle hw hs (traces_suspend hs n s)
  | spentCommand hw hs => exact traces_settle hw hs (.effect _ (traces_suspend hs 0 _))
  | spentRound hw hs => exact traces_settle hw hs (traces_suspend hs 0 _)
  | round hw hs ht ih =>
    obtain ⟨hsame, hd⟩ := underWay_of_round hs
    exact traces_settle hw hs (.round _ (hsame ▸ ih hd))
  | @acts n q q' q'' s s' es a fx t hw hs hr hc ht ih =>
    obtain ⟨hsame, hd⟩ := underWay_of_command hs
    have hrest := Traces.chains (c := .act a) hc (ih hd)
    rw [hsame] at hrest
    exact traces_settle hw hs (.began _ (.ran fx hrest))
  | @ends n q q' q'' s s' es a fx hw hs hr hc =>
    obtain ⟨hsame, -⟩ := underWay_of_command hs
    have hw' := underWay_of_not_waiting (waiting_of_command hs)
    have hleft := Traces.ends (c := .act a) (q''.loops.map Loop.command) hc
    rw [List.length_map, List.isEmpty_map] at hleft
    refine traces_settle hw hs (.began _ ?_)
    rw [← hsame, hw']
    have hafter : ({ q'' with deferred := q''.loops.isEmpty } : Queue).underWay =
        q''.loops.map Loop.command := hw'
    rw [Tick.queue_after, Tick.queue_after, Tick.queue_after, queue_suspend, hafter]
    exact Traces.ran fx hleft
  | @waits n q q' q'' s es c w t hw hs hc ht ih =>
    obtain ⟨hsame, hd⟩ := underWay_of_command hs
    have hwait : ({ q'' with waiting := some w } : Queue).underWay = c :: q''.underWay := by
      rw [underWay_of_waiting rfl, Command.command_of_waiting? hc,
        underWay_of_not_waiting (waiting_of_command hs)]
    have hrest := ih hd
    rw [hwait, hsame] at hrest
    exact traces_settle hw hs (.began c hrest)
  | @repeats n q q' q'' s es range body t hw hs ht ih =>
    obtain ⟨hsame, hd⟩ := underWay_of_command hs
    have hrest := ih hd
    rw [underWay_push (waiting_of_command hs), hsame] at hrest
    exact traces_settle hw hs (.began _ (.entered hrest))

/-- A tick enters the repetitions under way again, and is then traced from what was under way. -/
theorem traces_tick (q : Queue) (m : Moment) (n : Nat) (s : Stage ω) :
    Traces q.underWay (q.tick m n s).events (q.tick m n s).queue.underWay
      (q.tick m n s).queue.deferred := by
  obtain ⟨t, ht, htick⟩ := runs_tick q m n s
  have hrest : Traces q.underWay t.events t.queue.underWay t.queue.deferred :=
    traces_runs (q := { q with deferred := false }) ht rfl
  rw [htick]
  induction q.loops.length with
  | zero => exact hrest
  | succ k ih => exact .entered ih

/-- Every command inside of which a tick stands is left in it. Once a command is over in it that ends
the tick, at whatever depth, nothing begins any more, is run or starts another round: the commands
around it are left pending, and they are what is under way after the tick. -/
theorem tick_ends (q : Queue) (m : Moment) (n : Nat) (s : Stage ω) :
    let t := q.tick m n s
    inside q.underWay t.events = some [] ∧
      ∀ before after c around, t.events = before ++ .left false :: after →
        inside q.underWay before = some (c :: around) → c.chains = false →
          after = List.replicate around.length (.left true) ∧ t.queue.underWay = around ∧
            t.queue.deferred = around.isEmpty := by
  intro t
  have h := traces_tick q m n s
  exact ⟨h.inside_eq, fun _ _ _ _ he hin hc => h.after_ends he hin hc⟩

/-- Two repetitions, one in the other, whose last round ends in a wait, and what comes after them. -/
def lull : Queue :=
  ofBlock [.repeat (.times (Operand.literal (.int 1)))
    [.repeat (.times (Operand.literal (.int 1))) [.wait (Operand.literal (.int 5))]],
    .act (.log [Operand.literal (.text "done")])]

/-- The wait is over in the first tick, and both repetitions are left pending. -/
theorem lull_ends :
    let t := lull.tick ⟨0, 5, .absent, []⟩ 100 (⟨∅, {}, ⟨⟩⟩ : Stage (Surroundings NoFunctions))
    ∃ around, inside lull.underWay (t.events.take 8) =
        some (.wait (Operand.literal (.int 5)) :: around) ∧
      t.events = t.events.take 8 ++ .left false :: t.events.drop 9 ∧
      t.events.drop 9 = List.replicate around.length (.left true) ∧ around.length = 2 ∧
      t.queue.underWay = around ∧ t.queue.rest.length = 1 := by
  intro t
  have hin : ∃ around, inside lull.underWay (t.events.take 8) =
      some (.wait (Operand.literal (.int 5)) :: around) ∧ around.length = 2 := ⟨_, rfl, rfl⟩
  have he : t.events = t.events.take 8 ++ .left false :: t.events.drop 9 := rfl
  obtain ⟨around, hin, hlength⟩ := hin
  obtain ⟨hafter, hleft, -⟩ := (tick_ends lull ⟨0, 5, .absent, []⟩ 100 _).2 _ _ _ _ he hin rfl
  exact ⟨around, hin, he, hafter, hlength, hleft, rfl⟩

end Queue
end StoryScript
