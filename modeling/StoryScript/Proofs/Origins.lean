import StoryScript.Proofs.Loading
import StoryScript.Proofs.Nesting
import StoryScript.Proofs.Schedule
import StoryScript.Proofs.Turns

/-! Where the effects of a story come from. Every effect is made by a command of the story, or tells
that the steps of a tick are spent. So what the commands of a kind make, of whatever they run upon, is
all that a story of such commands is seen to do. -/
namespace StoryScript

/-- What is so of a command and of the commands inside it. -/
def Command.All (P : Command → Prop) (c : Command) : Prop := ∀ d ∈ c.preorder, P d

/-- What is so of all the commands of a block under way. -/
structure Queue.All (P : Command → Prop) (q : Queue) : Prop where
  rest : ∀ c ∈ q.rest, c.All P
  loops : ∀ l ∈ q.loops, (∀ c ∈ l.body, c.All P) ∧ ∀ c ∈ l.rest, c.All P
  waiting : ∀ w ∈ q.waiting, P w.command

def Queue.Next.All (P : Command → Prop) : Queue.Next → Prop
  | .nothing => True
  | .command c q => c.All P ∧ q.All P
  | .round _ q => q.All P

/-- The commands of a kind make only effects of a kind. -/
structure Makes (ω : Type) [World ω] (P : Command → Prop) (Q : Effect → Prop) : Prop where
  act : ∀ a, P (.act a) → ∀ c (s : Stage ω), ∀ e ∈ ((a.map (Operand.read (some c))).run s).2, Q e
  wait : ∀ w : Waiting, P w.command → ∀ now delta c (s : Stage ω),
    ∀ e ∈ (w.run now delta (Operand.read (some c)) s).2.2.2, Q e
  spent : ∀ name, Q (.warned (.stepsSpent name))

section
variable {P : Command → Prop} {c : Command}

theorem Command.All.self (h : c.All P) : P c := h c (by rw [preorder_eq]; exact .head _)

theorem Command.All.body (h : c.All P) : ∀ d ∈ c.body, d.All P := by
  intro d hd e he
  refine h e ?_
  rw [preorder_eq]
  exact .tail _ (mem_preorderOf.2 ⟨d, hd, he⟩)

theorem Command.all_iff {cs : List Command} :
    (∀ c ∈ cs, c.All P) ↔ ∀ d ∈ preorderOf cs, P d := by
  simp only [mem_preorderOf, All]
  grind

theorem Command.waiting_all {w : Waiting} (h : c.All P) (hw : c.waiting? = some w) : P w.command :=
  command_of_waiting? hw ▸ h.self

end

namespace Queue
variable {P : Command → Prop} {Q : Effect → Prop} {ω : Type} [World ω]

theorem all_ofBlock {cs : List Command} (h : ∀ c ∈ cs, c.All P) : (ofBlock cs).All P :=
  ⟨h, by simp [ofBlock], by simp [ofBlock]⟩

theorem all_settle {rest : List Command} {ls : List Loop} (hr : ∀ c ∈ rest, c.All P)
    (hl : ∀ l ∈ ls, (∀ c ∈ l.body, c.All P) ∧ ∀ c ∈ l.rest, c.All P) :
    (settle rest ls).2.1.All P ∧ (settle rest ls).2.2.All P := by
  have idle : ∀ w ∈ (none : Option Waiting), P w.command := by simp
  induction ls with
  | nil =>
    cases rest with
    | nil => exact ⟨⟨hr, hl, idle⟩, trivial⟩
    | cons c r =>
      obtain ⟨hc, hr'⟩ := List.forall_mem_cons.1 hr
      exact ⟨⟨hr, hl, idle⟩, hc, hr', hl, idle⟩
  | cons l ls ih =>
    obtain ⟨⟨hbody, hrest⟩, hls⟩ := List.forall_mem_cons.1 hl
    simp only [settle]
    split
    · next c r hcr =>
      rw [hcr] at hrest
      obtain ⟨hc, hr'⟩ := List.forall_mem_cons.1 hrest
      refine ⟨⟨hr, hl, idle⟩, hc, hr, ?_, idle⟩
      exact List.forall_mem_cons.2 ⟨⟨hbody, hr'⟩, hls⟩
    · split
      · refine ⟨⟨hr, hl, idle⟩, hr, ?_, idle⟩
        exact List.forall_mem_cons.2 ⟨⟨hbody, hbody⟩, hls⟩
      · exact ih hls

/-- A block of commands of a kind makes effects of a kind, and is left as a block of such commands. -/
theorem all_runs (hm : Makes ω P Q) {m : Moment} {n : Nat} {q : Queue} {s : Stage ω} {t : Tick ω}
    (h : Runs m n q s t) (hq : q.All P) : t.queue.All P ∧ ∀ e ∈ effectsOf t.events, Q e := by
  have settled {q q' : Queue} {es : List Event} {next : Next} (hq : q.All P)
      (hs : settle q.rest q.loops = (es, q', next)) :
      q'.All P ∧ next.All P ∧ effectsOf es = [] := by
    have hall := all_settle hq.rest hq.loops
    have hunseen := effectsOf_settle q.rest q.loops
    rw [hs] at hall hunseen
    exact ⟨hall.1, hall.2, hunseen⟩
  have waited {q : Queue} {w w' : Waiting} {s s' : Stage ω} {pending : Bool} {fx : List Effect}
      (hq : q.All P) (hw : q.waiting = some w)
      (hr : w.run m.now m.delta (q.read m s) s = (pending, w', s', fx)) :
      P w'.command ∧ ∀ e ∈ fx, Q e := by
    have hfx := hm.wait w (hq.waiting w hw) m.now m.delta ⟨s.scope.vars, q.item m.iterator, m.args⟩ s
    change ∀ e ∈ (w.run m.now m.delta (q.read m s) s).2.2.2, Q e at hfx
    rw [hr] at hfx
    exact ⟨command_run hr ▸ hq.waiting w hw, hfx⟩
  have acted {q : Queue} {a : Action Operand} {s s' : Stage ω} {fx : List Effect} (ha : P (.act a))
      (hr : (a.map (q.read m s)).run s = (s', fx)) : ∀ e ∈ fx, Q e := by
    have hfx := hm.act a ha ⟨s.scope.vars, q.item m.iterator, m.args⟩ s
    change ∀ e ∈ ((a.map (q.read m s)).run s).2, Q e at hfx
    rwa [hr] at hfx
  induction h with
  | @pending n q s s' w w' fx hw hr =>
    obtain ⟨hcommand, hfx⟩ := waited hq hw hr
    exact ⟨⟨hq.rest, hq.loops, by simpa using hcommand⟩, by simpa using hfx⟩
  | stops hw hr _ =>
    exact ⟨⟨hq.rest, hq.loops, fun _ hw => nomatch hw⟩, by simpa using (waited hq hw hr).2⟩
  | met hw hr _ _ ih =>
    obtain ⟨hall, hfx'⟩ := ih ⟨hq.rest, hq.loops, fun _ hw => nomatch hw⟩
    obtain ⟨-, hfx⟩ := waited hq hw hr
    exact ⟨hall, by simpa [or_imp, forall_and] using ⟨hfx, hfx'⟩⟩
  | done _ hs =>
    obtain ⟨hq', -, hunseen⟩ := settled hq hs
    exact ⟨hq', by simp [hunseen]⟩
  | spentCommand _ hs =>
    obtain ⟨hq', -, hunseen⟩ := settled hq hs
    exact ⟨hq', by simpa [hunseen] using hm.spent _⟩
  | spentRound _ hs =>
    obtain ⟨hq', -, hunseen⟩ := settled hq hs
    exact ⟨hq', by simp [hunseen]⟩
  | round _ hs _ ih =>
    obtain ⟨-, hnext, hunseen⟩ := settled hq hs
    obtain ⟨hall, hfx⟩ := ih hnext
    exact ⟨hall, by simpa [hunseen] using hfx⟩
  | acts _ hs hr _ _ ih =>
    obtain ⟨-, ⟨hc, hq'⟩, hunseen⟩ := settled hq hs
    obtain ⟨hall, hfx'⟩ := ih hq'
    have hfx := acted hc.self hr
    exact ⟨hall, by simpa [hunseen, or_imp, forall_and] using ⟨hfx, hfx'⟩⟩
  | ends _ hs hr _ =>
    obtain ⟨-, ⟨hc, hq'⟩, hunseen⟩ := settled hq hs
    exact ⟨⟨hq'.rest, hq'.loops, hq'.waiting⟩, by simpa [hunseen] using acted hc.self hr⟩
  | @waits n q q' q'' s es c w t hw hs hc ht ih =>
    obtain ⟨-, ⟨hall, hq'⟩, hunseen⟩ := settled hq hs
    obtain ⟨hall, hfx⟩ := ih ⟨hq'.rest, hq'.loops, by simpa using Command.waiting_all hall hc⟩
    exact ⟨hall, by simpa [hunseen] using hfx⟩
  | @repeats n q q' q'' s es range body t hw hs ht ih =>
    obtain ⟨-, ⟨hc, hq'⟩, hunseen⟩ := settled hq hs
    have hloop : (∀ c ∈ body, c.All P) ∧ ∀ c ∈ ([] : List Command), c.All P :=
      ⟨hc.body, fun _ h => nomatch h⟩
    obtain ⟨hall, hfx⟩ := ih ⟨hq'.rest, List.forall_mem_cons.2 ⟨hloop, hq'.loops⟩, hq'.waiting⟩
    exact ⟨hall, by simpa [hunseen] using hfx⟩

theorem all_tick (hm : Makes ω P Q) {q : Queue} (hq : q.All P) (m : Moment) (n : Nat)
    (s : Stage ω) :
    (q.tick m n s).queue.All P ∧ ∀ e ∈ effectsOf (q.tick m n s).events, Q e := by
  obtain ⟨t, ht, htick⟩ := runs_tick q m n s
  obtain ⟨hall, hfx⟩ := all_runs hm ht ⟨hq.rest, hq.loops, hq.waiting⟩
  have hunseen := effectsOf_replicate (e := .entered) rfl q.loops.length
  rw [htick]
  exact ⟨hall, by simpa [hunseen] using hfx⟩

end Queue

/-! ### Stories -/

/-- What is so of all the commands of a story. -/
def Template.All (P : Command → Prop) (t : Template) : Prop :=
  ∀ message block, t.handler? message = some block → ∀ c ∈ block, c.All P

namespace Instance
variable {P : Command → Prop} {Q : Effect → Prop} {i : Instance}

/-- What is so of all the commands of a story and of those that are under way. -/
structure All (P : Command → Prop) (i : Instance) : Prop where
  template : i.template.All P
  runners : ∀ r ∈ i.runners, r.queue.All P

theorem all_activate? {t : Template} (ht : t.All P) (m : Message) (r : Runner)
    (h : activate? t m = some r) : r.queue.All P := by
  obtain ⟨block, hblock, rfl⟩ := Option.map_eq_some_iff.1 h
  exact Queue.all_ofBlock (ht _ _ hblock)

variable {ω : Type} [World ω]

/-- In its tick a story of commands of a kind makes only effects of a kind. -/
theorem all_account (hm : Makes ω P Q) (hi : i.All P) (b : Beat) (steps : Nat) (w : ω) :
    (i.account b steps w).inst.All P ∧ ∀ turn ∈ (i.account b steps w).turns,
      ∀ e ∈ effectsOf turn.events, Q e := by
  have ticked (x : Seat ω) (hx : x.runner.queue.All P) :=
    Queue.all_tick hm hx x.moment x.steps x.stage
  have carried : (∀ r ∈ (i.account b steps w).inst.runners, r.queue.All P) ∧
      ∀ turn ∈ (i.account b steps w).turns,
        ∃ x : Seat ω, i.Seats b steps w x ∧ x.Takes turn ∧ x.runner.queue.All P :=
    carried_account (all_activate? hi.template) hi.runners (fun _ h => h) b steps w
      fun x _ hx => (ticked x hx).1
  obtain ⟨hrunners, hturns⟩ := carried
  refine ⟨⟨?_, hrunners⟩, fun turn hturn => ?_⟩
  · have h := template_perform i (.tick b steps w)
    exact h ▸ hi.template
  · obtain ⟨x, -, htakes, hx⟩ := hturns turn hturn
    rw [htakes.events]
    exact (ticked x hx).2

theorem all_perform (hm : Makes ω P Q) (hi : i.All P) (o : Operation ω) : (i.perform o).1.All P := by
  cases o with
  | deliver m now =>
    refine ⟨template_deliver i m now ▸ hi.template, ?_⟩
    exact carried_deliver (all_activate? hi.template) hi.runners m now
  | post => exact ⟨hi.template, hi.runners⟩
  | pause => exact ⟨hi.template, hi.runners⟩
  | tick b steps w => exact (all_account hm hi b steps w).1

theorem all_run (hm : Makes ω P Q) (hi : i.All P) (ops : List (Operation ω)) :
    (i.run ops).1.All P := by
  induction ops generalizing i with
  | nil => exact hi
  | cons o ops ih => exact ih (all_perform hm hi o)

end Instance
end StoryScript
