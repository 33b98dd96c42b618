import StoryScript.Proofs.Answer
import StoryScript.Proofs.Trail

/-! What is done with the commands of a block over any number of ticks. Each command begins once,
after the command before it is over; in every tick it is run at most once, until it is over, and is
not touched after that; and the same holds of the copies of commands that repetitions make for their
rounds. What is left of the block is always its commands from some place on. -/
namespace StoryScript
namespace Queue

/-! ### Ticks under any circumstances -/

/-- What a tick is run with. -/
structure Setting (ω : Type) where
  moment : Moment
  steps : Nat
  stage : Stage ω

section
variable {ω : Type} [World ω]

/-- Ticks of a block one after another, each in a setting of its own. -/
def ticks (q : Queue) : List (Setting ω) → List (Tick ω)
  | [] => []
  | x :: r =>
    let t := q.tick x.moment x.steps x.stage
    t :: t.queue.ticks r

/-- The block after some ticks. -/
def after (q : Queue) : List (Setting ω) → Queue
  | [] => q
  | x :: r => (q.tick x.moment x.steps x.stage).queue.after r

end

/-- The commands of the block itself that are not over. -/
def remaining (q : Queue) : List Command := q.underWay.getLast?.toList ++ q.rest

/-! ### Where a block stands -/

/-- The commands of the innermost round, or else of the block, that have not begun. -/
def restOf (rest : List Command) : List Loop → List Command
  | [] => rest
  | l :: _ => l.rest

/-- The place where a block stands, when its repetitions under way are as given and some commands of
the innermost round are not over. A repetition that has begun no round has none. -/
inductive Stands (cs rest : List Command) :
    Nat × Nat → Address → List Loop → List Command → Prop
  | block {k : Nat} {left : List Command} (h : cs.drop k = left) : Stands cs rest (0, k) [] [] left
  | round {p q : Nat × Nat} {a : Address} {l : Loop} {ls : List Loop} {left : List Command}
      (houter : Stands cs rest q a ls (l.command :: restOf rest ls))
      (hleft : p = (0, 0) ∧ left = [] ∨
        0 < p.1 ∧ p.2 ≤ l.body.length ∧ l.body.drop p.2 = left) :
      Stands cs rest p (q :: a) (l :: ls) left

theorem of_drop_eq_cons {c : Command} {cs left : List Command} {k : Nat}
    (h : cs.drop k = c :: left) : cs[k]? = some c ∧ cs.drop (k + 1) = left := by
  constructor
  · rw [← List.head?_drop, h, List.head?_cons]
  · rw [← List.drop_drop, h, List.drop_one, List.tail_cons]

namespace Stands
variable {cs rest left : List Command} {p q : Nat × Nat} {a : Address} {l : Loop} {ls : List Loop}
  {c : Command}

theorem commandAt? (h : Stands cs rest p a ls (c :: left)) :
    StoryScript.commandAt? cs (p :: a) = some c := by
  generalize hR : c :: left = R at h
  induction h generalizing c left with
  | @block k R h =>
    subst hR
    exact (of_drop_eq_cons h).1
  | @round p q a l ls R houter hleft ih =>
    subst hR
    have hbody : blockAt cs (q :: a) = l.body := blockAt_of_repeat (ih rfl)
    obtain ⟨-, h⟩ | ⟨-, -, h⟩ := hleft
    · cases h
    · simpa only [StoryScript.commandAt?, hbody] using (of_drop_eq_cons h).1

/-- The next command of the innermost round is taken off. -/
theorem next (h : Stands cs rest p a ls (c :: left)) : Stands cs rest (p.1, p.2 + 1) a ls left := by
  cases h with
  | block h => exact .block (of_drop_eq_cons h).2
  | round houter hleft =>
    obtain ⟨-, h⟩ | ⟨hpos, hle, h⟩ := hleft
    · cases h
    · refine .round houter (.inr ⟨hpos, ?_, (of_drop_eq_cons h).2⟩)
      have hlength := congrArg List.length h
      simp only [List.length_drop, List.length_cons] at hlength
      omega

theorem blockAt_eq (h : Stands cs rest p (q :: a) (l :: ls) left) :
    blockAt cs (q :: a) = l.body := by
  cases h with
  | round houter hleft => exact blockAt_of_repeat houter.commandAt?

/-- A round without commands that are not over is at its end. -/
theorem at_end (h : Stands cs rest p (q :: a) (l :: ls) []) :
    p.1 = 0 ∨ p.2 = (blockAt cs (q :: a)).length := by
  rw [h.blockAt_eq]
  cases h with
  | round houter hleft =>
    obtain ⟨rfl, -⟩ | ⟨-, hle, h⟩ := hleft
    · exact .inl rfl
    · exact .inr (Nat.le_antisymm hle (List.drop_eq_nil_iff.1 h))

theorem length_eq (h : Stands cs rest p a ls left) : a.length = ls.length := by
  induction h with
  | block => rfl
  | round houter hleft ih => simp [ih]

end Stands

/-! ### Ticks of a block lead on -/

/-- Where a block stands in a tick, before the command that waits is entered. -/
structure StandsAt (cs : List Command) (q : Queue) (z : Trail) : Prop where
  ahead : z.ahead = (q.waiting.map fun _ => (0, 0)).toList
  stands : Stands cs q.rest z.place z.around q.loops
    ((q.waiting.map Waiting.command).toList ++ restOf q.rest q.loops)

theorem standsAt_ofBlock (cs : List Command) : StandsAt cs (ofBlock cs) .start :=
  ⟨rfl, .block rfl⟩

/-- What a block has come to when repetitions that are over were left. -/
def Comes (cs : List Command) (p : Nat × Nat) (a : Address) : Next → Prop
  | .nothing => a = []
  | .command c q => Stands cs q.rest p a q.loops (c :: restOf q.rest q.loops)
  | .round _ q => a ≠ [] ∧ (p.1 = 0 ∨ p.2 = (blockAt cs a).length) ∧
      Stands cs q.rest (p.1 + 1, 0) a q.loops (restOf q.rest q.loops)

theorem leads_settle {cs rest : List Command} {p : Nat × Nat} {a : Address} {ls : List Loop}
    {es : List Event} {q : Queue} {next : Next} (hs : settle rest ls = (es, q, next))
    (h : Stands cs rest p a ls (restOf rest ls)) :
    ∃ p' a', Trail.Leads cs ⟨p, a, []⟩ es ⟨p', a', []⟩ ∧
      Stands cs q.rest p' a' q.loops (restOf q.rest q.loops) ∧ Comes cs p' a' next := by
  induction ls generalizing p a es with
  | nil =>
    cases h with
    | block h =>
      cases rest with
      | nil =>
        cases hs
        exact ⟨_, _, .nil _, .block h, rfl⟩
      | cons c r =>
        cases hs
        exact ⟨_, _, .nil _, .block h, .block h⟩
  | cons l ls ih =>
    obtain ⟨range, body, items, item, lrest⟩ := l
    have hover := h
    cases h with
    | @round p q a l ls left houter hleft =>
      cases lrest with
      | cons c r =>
        cases hs
        exact ⟨_, _, .nil _, .round houter hleft, .round houter hleft⟩
      | nil =>
        simp only [settle] at hs
        split at hs
        · cases hs
          refine ⟨_, _, .nil _, .round houter hleft, by simp, hover.at_end, .round houter (.inr ?_)⟩
          exact ⟨Nat.succ_pos _, Nat.zero_le _, rfl⟩
        · rcases hrest : settle rest ls with ⟨es', q', next'⟩
          rw [hrest] at hs
          cases hs
          obtain ⟨p', a', hleads, hstands, hcomes⟩ := ih hrest houter.next
          exact ⟨p', a', .cons rfl hover.at_end hleads, hstands, hcomes⟩

end Queue

/-! ### Between ticks -/

namespace Trail

/-- The trail outside of all commands, inside of which it has come to a place. -/
def outOf : Nat × Nat → Address → List (Nat × Nat) → Trail
  | p, [], ahead => ⟨p, [], ahead⟩
  | p, q :: a, ahead => outOf q a (p :: ahead)

def outside (z : Trail) : Trail := outOf z.place z.around z.ahead

variable {cs : List Command}

/-- A tick that ends leaves all commands pending in which it stands. -/
theorem leads_outside (z : Trail) :
    Leads cs z (List.replicate z.around.length (.left true)) z.outside := by
  obtain ⟨p, a, ahead⟩ := z
  induction a generalizing p ahead with
  | nil => exact .nil _
  | cons q a ih => exact .cons rfl trivial (ih q (p :: ahead))

/-- The next tick enters them again. -/
theorem leads_inside (z : Trail) :
    Leads cs z.outside (List.replicate z.around.length .entered) z := by
  obtain ⟨p, a, ahead⟩ := z
  induction a generalizing p ahead with
  | nil => exact .nil _
  | cons q a ih =>
    have hlast : Leads cs ⟨q, a, p :: ahead⟩ [.entered] ⟨p, q :: a, ahead⟩ :=
      .cons rfl trivial (.nil _)
    have h := (ih q (p :: ahead)).append hlast
    rwa [← List.replicate_succ'] at h

end Trail

namespace Queue
open Trail (Leads)

/-- A command is run where it has been entered. -/
theorem leads_ran {cs : List Command} {z' : Trail} {p q : Nat × Nat} {a : Address}
    {ahead : List (Nat × Nat)} {b : Bool} {es : List Event} (fx : List Effect)
    (h : Leads cs ⟨q, p :: a, ahead⟩ (.left b :: es) z') :
    Leads cs ⟨p, a, q :: ahead⟩ (.entered :: fx.map .effect ++ [.left b] ++ es) z' := by
  have heffects : Leads cs ⟨q, p :: a, ahead⟩ _ ⟨q, p :: a, ahead⟩ := .effects _ fx
  have hrun := heffects.append h
  have henter : Leads cs ⟨p, a, q :: ahead⟩ [.entered] ⟨q, p :: a, ahead⟩ :=
    .cons rfl trivial (.nil _)
  simpa using henter.append hrun

variable {ω : Type} {m : Moment} {cs : List Command}

theorem leads_suspend {q : Queue} {z : Trail} (h : StandsAt cs q z) (n : Nat) (s : Stage ω) :
    Leads cs z (q.suspend n s).events z.outside := by
  have hleft : Leads cs z _ z.outside := z.leads_outside
  rwa [h.stands.length_eq] at hleft

theorem StandsAt.of_waiting {q : Queue} {z : Trail} {w : Waiting} (h : StandsAt cs q z)
    (hw : q.waiting = some w) : ∃ p a, z = ⟨p, a, [(0, 0)]⟩ ∧
      Stands cs q.rest p a q.loops (w.command :: restOf q.rest q.loops) := by
  obtain ⟨p, a, ahead⟩ := z
  obtain ⟨rfl, hstands⟩ := h
  exact ⟨p, a, by rw [hw]; rfl, by rwa [hw] at hstands⟩

theorem StandsAt.of_not_waiting {q : Queue} {z : Trail} (h : StandsAt cs q z)
    (hw : q.waiting = none) : ∃ p a, z = ⟨p, a, []⟩ ∧
      Stands cs q.rest p a q.loops (restOf q.rest q.loops) := by
  obtain ⟨p, a, ahead⟩ := z
  obtain ⟨rfl, hstands⟩ := h
  exact ⟨p, a, by rw [hw]; rfl, by rwa [hw] at hstands⟩

theorem Stands.standsAt {q : Queue} {p : Nat × Nat} {a : Address} (hw : q.waiting = none)
    (h : Stands cs q.rest p a q.loops (restOf q.rest q.loops)) : StandsAt cs q ⟨p, a, []⟩ :=
  ⟨by rw [hw]; rfl, by rwa [hw]⟩

/-- Repetitions that are over are left, and the block stands where the next command or round is
due. -/
theorem StandsAt.settle {q q' : Queue} {z : Trail} {next : Next} {es : List Event}
    (h : StandsAt cs q z) (hw : q.waiting = none) (hs : settle q.rest q.loops = (es, q', next)) :
    ∃ p a, Leads cs z es ⟨p, a, []⟩ ∧ StandsAt cs q' ⟨p, a, []⟩ ∧ Comes cs p a next := by
  obtain ⟨p, a, rfl, hstands⟩ := h.of_not_waiting hw
  obtain ⟨p', a', hleads, hstands', hcomes⟩ := leads_settle hs hstands
  have hw' := (waiting_settle q.rest q.loops).1
  rw [hs] at hw'
  exact ⟨p', a', hleads, hstands'.standsAt hw', hcomes⟩

variable [World ω]

/-- The rest of a tick leads from where a block stands to where it stands after the tick. -/
theorem leads_runs {n : Nat} {q : Queue} {s : Stage ω} {t : Tick ω} {z : Trail}
    (h : Runs m n q s t) (hz : StandsAt cs q z) :
    ∃ z' : Trail, Leads cs z t.events z'.outside ∧ StandsAt cs t.queue z' := by
  induction h generalizing z with
  | @pending n q s s' w w' fx hw hr =>
    obtain ⟨p, a, rfl, hstands⟩ := hz.of_waiting hw
    have hz' : StandsAt cs { q with waiting := some w' } ⟨p, a, [(0, 0)]⟩ :=
      ⟨rfl, by simpa [command_run hr] using hstands⟩
    exact ⟨_, leads_ran fx (.cons rfl trivial (leads_suspend hz' n s')), hz'⟩
  | @stops n q s s' w w' fx hw hr hc =>
    obtain ⟨p, a, rfl, hstands⟩ := hz.of_waiting hw
    have hz' : StandsAt cs { q with waiting := none, deferred := q.loops.isEmpty }
        ⟨(p.1, p.2 + 1), a, []⟩ := hstands.next.standsAt rfl
    exact ⟨_, leads_ran fx (.cons rfl (.inl rfl) (leads_suspend hz' n s')), hz'⟩
  | @met n q s s' w w' fx t hw hr hc ht ih =>
    obtain ⟨p, a, rfl, hstands⟩ := hz.of_waiting hw
    obtain ⟨z', hleads, hz'⟩ := ih (hstands.next.standsAt rfl)
    exact ⟨z', leads_ran fx (.cons rfl (.inl rfl) hleads), hz'⟩
  | @done n q q' s es hw hs =>
    obtain ⟨p, a, hleads, hz', -⟩ := hz.settle hw hs
    exact ⟨_, hleads.append (leads_suspend hz' n s), hz'⟩
  | @spentCommand q q' q'' s es c hw hs =>
    obtain ⟨p, a, hleads, hz', -⟩ := hz.settle hw hs
    exact ⟨_, hleads.append (.cons rfl trivial (leads_suspend hz' 0 s)), hz'⟩
  | @spentRound q q' q'' s es v hw hs =>
    obtain ⟨p, a, hleads, hz', -⟩ := hz.settle hw hs
    exact ⟨_, hleads.append (leads_suspend hz' 0 s), hz'⟩
  | @round n q q' q'' s es v t hw hs ht ih =>
    obtain ⟨p, a, hleads, -, hne, hover, hstands⟩ := hz.settle hw hs
    obtain ⟨x, a, rfl⟩ := List.exists_cons_of_ne_nil hne
    obtain ⟨z', hrest, hz'⟩ := ih (hstands.standsAt (waiting_of_round hs))
    exact ⟨z', hleads.append (.cons rfl hover hrest), hz'⟩
  | @acts n q q' q'' s s' es c fx t hw hs hr hc ht ih =>
    obtain ⟨p, a, hleads, -, hstands⟩ := hz.settle hw hs
    obtain ⟨z', hrest, hz'⟩ := ih (hstands.next.standsAt (waiting_of_command hs))
    exact ⟨z', hleads.append (.cons rfl hstands.commandAt?
      (leads_ran fx (.cons rfl (.inl rfl) hrest))), hz'⟩
  | @ends n q q' q'' s s' es c fx hw hs hr hc =>
    obtain ⟨p, a, hleads, -, hstands⟩ := hz.settle hw hs
    have hw' : q''.waiting = none := waiting_of_command hs
    have hz' : StandsAt cs { q'' with deferred := q''.loops.isEmpty } ⟨(p.1, p.2 + 1), a, []⟩ :=
      hstands.next.standsAt hw'
    exact ⟨_, hleads.append (.cons rfl hstands.commandAt?
      (leads_ran fx (.cons rfl (.inl rfl) (leads_suspend hz' n s')))), hz'⟩
  | @waits n q q' q'' s es c w t hw hs hc ht ih =>
    obtain ⟨p, a, hleads, -, hstands⟩ := hz.settle hw hs
    obtain ⟨z', hrest, hz'⟩ := ih (z := ⟨p, a, [(0, 0)]⟩)
      ⟨rfl, by simpa [Command.command_of_waiting? hc, Comes] using hstands⟩
    exact ⟨z', hleads.append (.cons rfl hstands.commandAt? hrest), hz'⟩
  | @repeats n q q' q'' s es range body t hw hs ht ih =>
    obtain ⟨p, a, hleads, -, hstands⟩ := hz.settle hw hs
    have hw' : q''.waiting = none := waiting_of_command hs
    have hinside : Stands cs q''.rest (0, 0) (p :: a)
        (.ofRange range body (q''.read m s) :: q''.loops) [] := .round hstands (.inl ⟨rfl, rfl⟩)
    obtain ⟨z', hrest, hz'⟩ := ih (z := ⟨(0, 0), p :: a, []⟩)
      (hinside.standsAt (q := { q'' with loops := _ }) hw')
    exact ⟨z', hleads.append (.cons rfl hstands.commandAt? (.cons rfl trivial hrest)), hz'⟩

/-- A tick leads from where a block was left to where it is left. -/
theorem leads_tick {q : Queue} {z : Trail} (hz : StandsAt cs q z) (m : Moment) (n : Nat)
    (s : Stage ω) : ∃ z' : Trail, Leads cs z.outside (q.tick m n s).events z'.outside ∧
      StandsAt cs (q.tick m n s).queue z' := by
  obtain ⟨t, ht, htick⟩ := runs_tick q m n s
  have hz0 : StandsAt cs { q with deferred := false } z := ⟨hz.ahead, hz.stands⟩
  obtain ⟨z', hleads, hz'⟩ := leads_runs ht hz0
  have henter : Leads cs z.outside _ z := z.leads_inside
  rw [hz.stands.length_eq] at henter
  rw [htick]
  exact ⟨z', henter.append hleads, hz'⟩

/-! ### The lives of commands -/

/-- What is left pending in a tick is left at its end. -/
theorem Traces.exists_append {us left : List Command} {es : List Event} {d : Bool}
    (h : Traces us es left d) :
    ∃ fs k, es = fs ++ List.replicate k (.left true) ∧ fs.countP Event.leavesPending = 0 := by
  induction h with
  | done => exact ⟨[], 0, rfl, rfl⟩
  | began c _ ih =>
    obtain ⟨fs, k, rfl, hfs⟩ := ih
    exact ⟨.began c :: fs, k, rfl, by simpa [Event.leavesPending] using hfs⟩
  | entered _ ih =>
    obtain ⟨fs, k, rfl, hfs⟩ := ih
    exact ⟨.entered :: fs, k, rfl, by simpa [Event.leavesPending] using hfs⟩
  | effect e _ ih =>
    obtain ⟨fs, k, rfl, hfs⟩ := ih
    exact ⟨.effect e :: fs, k, rfl, by simpa [Event.leavesPending] using hfs⟩
  | round v _ ih =>
    obtain ⟨fs, k, rfl, hfs⟩ := ih
    exact ⟨.round v :: fs, k, rfl, by simpa [Event.leavesPending] using hfs⟩
  | chains _ _ ih =>
    obtain ⟨fs, k, rfl, hfs⟩ := ih
    exact ⟨.left false :: fs, k, rfl, by simpa [Event.leavesPending] using hfs⟩
  | ends us _ => exact ⟨[.left false], us.length, rfl, rfl⟩
  | pending us => exact ⟨[], us.length, rfl, rfl⟩

/-- A command is entered at most once in a tick: it would have to be left pending before it is
entered again. -/
theorem entered_once {cs us left : List Command} {L log : List Entry} {z : Trail}
    {es : List Event} {d : Bool} (hz : z.Tells cs (L ++ log))
    (hlog : log.map (·.2) = es) (htraces : Traces us es left d) (a : Address) :
    (touches a log).countP Event.enters ≤ 1 := by
  cases hc : commandAt? cs a with
  | none =>
    have hnone := hz.touches_eq_nil hc
    simp only [touches_append, List.append_eq_nil_iff] at hnone
    simp [hnone.2]
  | some c =>
    obtain ⟨fs, k, rfl, hfs⟩ := htraces.exists_append
    obtain ⟨l₁, l₂, rfl, rfl, hl₂⟩ := List.map_eq_append_iff.1 hlog
    obtain ⟨n, hlife⟩ := hz.exists_life hc
    simp only [touches_append, ← List.append_assoc] at hlife
    have hbefore := entered_of_life ((List.prefix_append _ _).trans
      ((List.prefix_append _ _).trans hlife))
    have hupto := entered_of_life ((List.prefix_append _ _).trans hlife)
    have hpending : (touches a l₁).countP Event.leavesPending = 0 := by
      simp only [List.countP_eq_zero, List.mem_map] at hfs ⊢
      intro e he
      obtain ⟨x, hx, rfl⟩ := List.mem_map.1 he
      exact hfs _ ⟨x, (List.mem_filter.1 hx).1, rfl⟩
    have hend : (touches a l₂).countP Event.enters = 0 := by
      simp only [List.countP_eq_zero]
      intro e he
      obtain ⟨x, hx, rfl⟩ := List.mem_map.1 he
      have hleft := List.mem_map_of_mem (f := (·.2)) (List.mem_filter.1 hx).1
      rw [hl₂] at hleft
      simp [List.eq_of_mem_replicate hleft, Event.enters]
    simp only [List.countP_append] at hupto
    simp only [touches_append, List.countP_append]
    omega

theorem Stands.exists_place {cs rest left : List Command} {p : Nat × Nat} {a : Address}
    {ls : List Loop} (h : Stands cs rest p a ls left) (ahead : List (Nat × Nat)) :
    ∃ k, (Trail.outOf p a ahead).place = (0, k) ∧ (Trail.outOf p a ahead).around = [] ∧
      cs.drop k = match ls.getLast? with
        | none => left
        | some l => l.command :: rest := by
  induction h generalizing ahead with
  | @block k left h => exact ⟨k, rfl, rfl, h⟩
  | @round p q a l ls left houter hleft ih =>
    obtain ⟨k, hplace, haround, hdrop⟩ := ih (p :: ahead)
    refine ⟨k, hplace, haround, ?_⟩
    cases ls with
    | nil => exact hdrop
    | cons l' ls => rwa [List.getLast?_cons_cons]

/-- What is left of a block that stands somewhere. -/
theorem StandsAt.remaining_eq {cs : List Command} {q : Queue} {z : Trail} (h : StandsAt cs q z) :
    ∃ k, z.outside.place = (0, k) ∧ z.outside.around = [] ∧ q.remaining = cs.drop k := by
  obtain ⟨k, hplace, haround, hdrop⟩ := h.stands.exists_place z.ahead
  refine ⟨k, hplace, haround, ?_⟩
  rw [hdrop, remaining, underWay, List.getLast?_append, List.getLast?_map]
  cases hlast : q.loops.getLast? with
  | none =>
    rw [List.getLast?_eq_none_iff.1 hlast, restOf]
    cases q.waiting <;> rfl
  | some l => rfl

/-- The lives of the commands of a block and of their copies, in ticks the events of which are
ascribed to them. -/
structure Lifecycle (cs : List Command) (logs : List (List Entry)) : Prop where
  /-- A command begins, is run while it is pending, and is not touched after it is over. -/
  lives : ∀ a c, commandAt? cs a = some c → ∃ n, touches a logs.flatten <+: life c n
  /-- Only commands of the block are touched. -/
  known : ∀ a, commandAt? cs a = none → touches a logs.flatten = []
  /-- In every tick a command is run at most once. -/
  once : ∀ log ∈ logs, ∀ a, (touches a log).countP Event.enters ≤ 1
  /-- Commands of one round begin one after another, and none is passed over. -/
  due : Throughout (Due cs) logs.flatten

variable {ω : Type} [World ω]

theorem exists_ascription {cs : List Command} {q : Queue} {z : Trail} {L : List Entry}
    (hz : StandsAt cs q z) (hL : z.outside.Tells cs L) (xs : List (Setting ω)) :
    ∃ logs z', z.outside.ascribeAll? ((q.ticks xs).map Tick.events) = some (logs, z'.outside) ∧
      z'.outside.Tells cs (L ++ logs.flatten) ∧ StandsAt cs (q.after xs) z' ∧
      ∀ log ∈ logs, ∀ a, (touches a log).countP Event.enters ≤ 1 := by
  induction xs generalizing q z L with
  | nil => exact ⟨[], z, rfl, by simpa using hL, hz, by simp⟩
  | cons x xs ih =>
    obtain ⟨z₁, hleads, hz₁⟩ := leads_tick hz x.moment x.steps x.stage
    obtain ⟨log, hlog, hL₁⟩ := hleads.ascribe hL
    obtain ⟨logs, z', hlogs, hL', hz', honce⟩ := ih hz₁ hL₁
    refine ⟨log :: logs, z', ?_, by simpa using hL', hz', ?_⟩
    · simp [ticks, Trail.ascribeAll?, hlog, hlogs]
    · rintro l (_ | ⟨_, hl⟩) a
      · have htraces := traces_tick q x.moment x.steps x.stage
        exact entered_once hL₁ (Trail.map_snd_ascribe hlog) htraces a
      · exact honce l hl a

theorem pending_ticks (q : Queue) (xs : List (Setting ω)) :
    ∀ t ∈ q.ticks xs, t.pending = !t.queue.isEmpty := by
  induction xs generalizing q with
  | nil => simp [ticks]
  | cons x xs ih =>
    rintro t (_ | ⟨_, ht⟩)
    · exact pending_tick q x.moment x.steps x.stage
    · exact ih _ t ht

omit [World ω] in
/-- A command of the block itself is over if and only if it comes before the place where the block
is left. -/
theorem over_iff {cs : List Command} {L : List Entry} {z : Trail} {k : Nat} (hz : z.Tells cs L)
    (hplace : z.place = (0, k)) (haround : z.around = []) (i : Nat) :
    ([(0, i)], .left false) ∈ L ↔ i < k := by
  have hfrontier : z.frontier = z.ahead.reverse ++ [(0, k)] := by
    rw [Trail.frontier, hplace, haround]
  constructor
  · intro hmem
    have htouch : Event.left false ∈ touches [(0, i)] L :=
      List.mem_map.2 ⟨_, List.mem_filter.2 ⟨hmem, by simp [Event.isTouch]⟩, rfl⟩
    by_cases hin : Around [(0, i)] z.frontier
    · obtain ⟨c, n, -, htouches⟩ := hz.underWay _ hin
      have hrun : Event.left false ∈ pendingRuns n := by simpa [htouches, haround] using htouch
      rcases eq_of_mem_pendingRuns hrun with h | h <;> cases h
    · rcases hz.others _ hin with hnone | ⟨⟨p, q, s, hp, hq, hlt⟩, -⟩
      · simp [hnone] at htouch
      · rw [hfrontier] at hq
        have hs : s = [] := by simpa using hp.length_le
        subst hs
        obtain rfl : p = (0, i) := by simpa using hp.eq_of_length rfl
        have hlast := (List.suffix_of_suffix_length_le hq (List.suffix_append _ _) (by simp))
        obtain rfl : q = (0, k) := by simpa using hlast.eq_of_length rfl
        simpa [Earlier] using hlt
  · intro hi
    exact (hz.past 0 k [] (hfrontier ▸ List.suffix_append _ _)).2 i hi

/-- A block goes through any ticks command by command, under whatever circumstances each tick is run.
What is left of it is its commands from the first on that is not over, and each tick answers whether
anything is left. -/
theorem ticks_lifecycle (cs : List Command) (xs : List (Setting ω)) :
    ∃ logs z, Trail.start.ascribeAll? (((ofBlock cs).ticks xs).map Tick.events) = some (logs, z) ∧
      Lifecycle cs logs ∧
      (∃ k, ((ofBlock cs).after xs).remaining = cs.drop k ∧
        ∀ i, ([(0, i)], .left false) ∈ logs.flatten ↔ i < k) ∧
      ∀ t ∈ (ofBlock cs).ticks xs, t.pending = !t.queue.isEmpty := by
  obtain ⟨logs, z, hlogs, hz, hstands, honce⟩ :=
    exists_ascription (standsAt_ofBlock cs) (Trail.tells_start cs) xs
  rw [List.nil_append] at hz
  obtain ⟨k, hplace, haround, hremaining⟩ := hstands.remaining_eq
  have hlives : Lifecycle cs logs :=
    ⟨fun _ _ => hz.exists_life, fun _ => hz.touches_eq_nil, honce, hz.due⟩
  exact ⟨logs, z.outside, hlogs, hlives, ⟨k, hremaining, over_iff hz hplace haround⟩,
    pending_ticks _ xs⟩

end Queue
end StoryScript
