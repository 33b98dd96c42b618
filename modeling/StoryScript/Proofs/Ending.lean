import Mathlib.Data.Multiset.DershowitzManna
import Mathlib.Data.Prod.Lex
import Mathlib.Order.WellFounded
import StoryScript.Proofs.Answer
import StoryScript.Proofs.Schedule
import StoryScript.Task

/-! Blocks come to their end. A block that waits for nothing but time is over after some ticks, if each
of them has a step to spend and takes some time. Every such tick takes something off what is left to
do: a command that has not begun may turn into any number of rounds or of units of time to wait, but
these are of a lesser kind, and so are the commands of a round beside the round. -/
namespace StoryScript

/-! ### What is left to do -/

mutual
/-- How deep repetitions are nested in a command. -/
def Command.depth : Command → Nat
  | .act _ | .wait _ | .await _ => 0
  | .repeat _ body => blockDepth body + 1

def Command.blockDepth : List Command → Nat
  | [] => 0
  | c :: r => max c.depth (blockDepth r)
end

open Command (anyAwaits blockDepth)

theorem Command.depth_le {c : Command} {cs : List Command} (h : c ∈ cs) :
    c.depth ≤ blockDepth cs := by
  induction cs with
  | nil => cases h
  | cons d cs ih =>
    rcases List.mem_cons.1 h with rfl | h
    · exact le_max_left _ _
    · exact (ih h).trans (le_max_right _ _)

/-- What is left to do by a command that has not begun. -/
def Command.burden (c : Command) : ℕ ×ₗ ℕ := toLex (c.depth + 1, 0)

/-- What is left to do by a repetition besides the commands of its round: so many rounds. -/
def Loop.burden (l : Loop) : ℕ ×ₗ ℕ := toLex (blockDepth l.body + 1, l.left.size)

/-- What is left to do by a command that waits. No time that it waits for is longer than this. -/
def Waiting.burden : Waiting → ℕ ×ₗ ℕ
  | .time _ elapsed => toLex (0, (Int64.maxValue.toInt - elapsed).toNat)
  | .goal _ _ => toLex (0, 0)

namespace Queue

def burdensOf (cs : List Command) : Multiset (ℕ ×ₗ ℕ) := ↑(cs.map Command.burden)

/-- All that is left to do by a block. -/
def burdens (q : Queue) : Multiset (ℕ ×ₗ ℕ) :=
  ↑(q.waiting.toList.map Waiting.burden) +
    ((q.loops.map fun l => l.burden ::ₘ burdensOf l.rest).sum + burdensOf q.rest)

/-- Less is left to do by a block than by another: for some of what was left there is only what is
less than it. -/
def Lighter (q' q : Queue) : Prop := q'.burdens.IsDershowitzMannaLT q.burdens

theorem wellFounded_lighter : WellFounded Lighter :=
  InvImage.wf burdens Multiset.wellFounded_isDershowitzMannaLT

theorem lighter_of_replaced {q' q : Queue} {X Y : Multiset (ℕ ×ₗ ℕ)} {z : ℕ ×ₗ ℕ}
    (hq' : q'.burdens = X + Y) (hq : q.burdens = z ::ₘ X) (hY : ∀ y ∈ Y, y < z) : Lighter q' q := by
  refine ⟨X, Y, {z}, by simp, hq', by rw [hq, add_comm, Multiset.singleton_add], fun y hy => ?_⟩
  exact ⟨z, Multiset.mem_singleton_self z, hY y hy⟩

/-- No more is left to do. -/
def NoHeavier (q' q : Queue) : Prop := q'.burdens = q.burdens ∨ Lighter q' q

theorem NoHeavier.trans_lighter {q₁ q₂ q₃ : Queue} (h : NoHeavier q₁ q₂) (h' : Lighter q₂ q₃) :
    Lighter q₁ q₃ := by
  rcases h with h | h
  · rwa [Lighter, h]
  · exact Multiset.IsDershowitzMannaLT.trans h h'

theorem Lighter.trans_noHeavier {q₁ q₂ q₃ : Queue} (h : Lighter q₁ q₂) (h' : NoHeavier q₂ q₃) :
    Lighter q₁ q₃ := by
  rcases h' with h' | h'
  · rwa [Lighter, ← h']
  · exact Multiset.IsDershowitzMannaLT.trans h h'

/-! ### What comes next -/

theorem burdens_loop (rest : List Command) (l : Loop) (ls : List Loop) (d d' : Bool) :
    burdens ⟨rest, l :: ls, none, d⟩ =
      l.burden ::ₘ (burdensOf l.rest + burdens ⟨rest, ls, none, d'⟩) := by
  simp [burdens, add_assoc]

theorem burdens_command (c : Command) (r : List Command) :
    burdensOf (c :: r) = c.burden ::ₘ burdensOf r := rfl

/-- A repetition that is over has nothing left to do. -/
theorem noHeavier_settle {rest : List Command} {ls : List Loop} {es : List Event} {q : Queue}
    {next : Next} (hs : settle rest ls = (es, q, next)) (d : Bool) :
    NoHeavier q ⟨rest, ls, none, d⟩ := by
  induction ls generalizing es with
  | nil => cases rest <;> (cases hs; exact .inl rfl)
  | cons l ls ih =>
    simp only [settle] at hs
    split at hs
    · cases hs
      exact .inl rfl
    · next hl =>
      split at hs
      · cases hs
        exact .inl rfl
      · rcases hrest : settle rest ls with ⟨es', q', next'⟩
        rw [hrest] at hs
        cases hs
        have hless : Lighter ⟨rest, ls, none, d⟩ ⟨rest, l :: ls, none, d⟩ :=
          lighter_of_replaced (Y := 0) (add_zero _).symm
            (by simpa [hl, burdensOf] using burdens_loop rest l ls d d) (by simp)
        exact .inr ((ih hrest).trans_lighter hless)

theorem burdens_of_command {rest : List Command} {ls : List Loop} {es : List Event} {q q' : Queue}
    {c : Command} (hs : settle rest ls = (es, q, .command c q')) :
    q.burdens = c.burden ::ₘ q'.burdens := by
  induction ls generalizing es with
  | nil =>
    cases rest with
    | nil => cases hs
    | cons c r =>
      cases hs
      simp [burdens, burdens_command]
  | cons l ls ih =>
    simp only [settle] at hs
    split at hs
    · next hl =>
      cases hs
      rw [burdens_loop _ _ _ _ false, burdens_loop _ _ _ _ false, hl, burdens_command,
        Multiset.cons_add, Multiset.cons_swap]
      rfl
    · split at hs
      · cases hs
      · rcases hrest : settle rest ls with ⟨es', q', next'⟩
        rw [hrest] at hs
        cases hs
        exact ih hrest

end Queue

theorem Items.size_of_next? {l r : Items} {v : Value} (h : l.next? = some (v, r)) :
    r.size < l.size := by
  cases l with
  | numbers i n =>
    simp only [next?] at h
    split at h
    · cases h
      simp only [size]
      omega
    · cases h
  | values l =>
    cases l with
    | nil => cases h
    | cons w l =>
      cases h
      simp [size]

theorem Command.burden_lt {c : Command} {cs : List Command} (h : c ∈ cs) {k : Nat} (hk : 0 < k) :
    c.burden < toLex (blockDepth cs + 1, k) := by
  have hdepth := depth_le h
  rw [burden, Prod.Lex.toLex_lt_toLex]
  omega

namespace Queue

/-- The commands of a round are less than the round. -/
theorem lighter_of_round {rest : List Command} {ls : List Loop} {es : List Event} {q q' : Queue}
    {v : Value} (hs : settle rest ls = (es, q, .round v q')) : Lighter q' q := by
  induction ls generalizing es with
  | nil => cases rest <;> cases hs
  | cons l ls ih =>
    simp only [settle] at hs
    split at hs
    · cases hs
    · next hl =>
      split at hs
      · next left hnext =>
        cases hs
        have hsize := Items.size_of_next? hnext
        have hq : burdens ⟨rest, l :: ls, none, false⟩ =
            l.burden ::ₘ burdens ⟨rest, ls, none, false⟩ := by
          simpa [hl, burdensOf] using burdens_loop rest l ls false false
        refine lighter_of_replaced (Y := toLex (blockDepth l.body + 1, left.size) ::ₘ
          burdensOf l.body) ?_ hq fun y hy => ?_
        · rw [burdens_loop _ _ _ _ false, Multiset.add_cons, add_comm (burdensOf l.body)]
          rfl
        · rcases Multiset.mem_cons.1 hy with rfl | hy
          · exact Prod.Lex.toLex_lt_toLex.2 (.inr ⟨rfl, hsize⟩)
          · obtain ⟨c, hc, rfl⟩ := List.mem_map.1 (Multiset.mem_coe.1 hy)
            exact Command.burden_lt hc (Nat.zero_lt_of_lt hsize)
      · rcases hrest : settle rest ls with ⟨es', q', next'⟩
        rw [hrest] at hs
        cases hs
        exact ih hrest

end Queue

/-- A time that is waited for fits into 64 bits, so some of it is over after every tick. -/
theorem Waiting.burden_run {ω : Type} [World ω] {w w' : Waiting} {now delta : Int}
    {read : Operand → Value} {s s' : Stage ω} {fx : List Effect} (hw : w.command.awaits = false)
    (hdelta : 0 < delta) (hr : w.run now delta read s = (true, w', s', fx)) :
    w'.burden < w.burden := by
  cases w with
  | goal => cases hw
  | time limit elapsed =>
    simp only [run, Prod.mk.injEq, decide_eq_true_eq] at hr
    obtain ⟨hpending, rfl, -⟩ := hr
    have hlimit := (read limit).toInt.toInt_le
    refine Prod.Lex.toLex_lt_toLex.2 (.inr ⟨rfl, ?_⟩)
    show (Int64.maxValue.toInt - (elapsed + delta)).toNat < (Int64.maxValue.toInt - elapsed).toNat
    omega

theorem Command.burden_of_waiting? {c : Command} {w : Waiting} (h : c.waiting? = some w) :
    w.burden < c.burden := by
  have hzero : (ofLex w.burden).1 = 0 := by cases w <;> rfl
  refine Prod.Lex.lt_iff.2 (.inl ?_)
  rw [hzero]
  exact Nat.succ_pos _

theorem Loop.burden_ofRange (range : Range Operand) (body : List Command) (read : Operand → Value) :
    (ofRange range body read).burden < (Command.repeat range body).burden := by
  refine Prod.Lex.toLex_lt_toLex.2 (.inl ?_)
  exact Nat.lt_succ_self _

namespace Queue

theorem burdens_waiting {q : Queue} (hw : q.waiting = none) (w : Waiting) :
    { q with waiting := some w }.burdens = w.burden ::ₘ q.burdens := by
  simp [burdens, hw]

theorem burdens_of_waiting {q : Queue} {w : Waiting} (hw : q.waiting = some w) :
    q.burdens = w.burden ::ₘ { q with waiting := none }.burdens := by
  simp [burdens, hw]

theorem burdens_push {q : Queue} (hw : q.waiting = none) (range : Range Operand)
    (body : List Command) (read : Operand → Value) :
    { q with loops := .ofRange range body read :: q.loops }.burdens =
      (Loop.ofRange range body read).burden ::ₘ q.burdens := by
  obtain ⟨rest, ls, _, d⟩ := q
  obtain rfl := hw
  simp [burdens_loop rest _ ls d d, Loop.ofRange, burdensOf]

/-- A command that has begun has less left to do than before. -/
theorem lighter_of_begun {q q' : Queue} {b c : ℕ ×ₗ ℕ} {X : Multiset (ℕ ×ₗ ℕ)} (h : b < c)
    (hq' : q'.burdens = b ::ₘ X) (hq : q.burdens = c ::ₘ X) : Lighter q' q := by
  refine lighter_of_replaced (Y := {b}) ?_ hq (by simpa using h)
  rw [hq', add_comm, Multiset.singleton_add]

theorem lighter_of_over {q q' : Queue} {c : ℕ ×ₗ ℕ} (h : q.burdens = c ::ₘ q'.burdens) :
    Lighter q' q :=
  lighter_of_replaced (Y := 0) (add_zero _).symm h (by simp)

theorem lighter_empty {q q' : Queue} (hq' : q'.burdens = 0) (hq : q.isEmpty = false) :
    Lighter q' q := by
  refine ⟨0, 0, q.burdens, fun hzero => ?_, by rw [hq', add_zero], by rw [zero_add], by simp⟩
  obtain ⟨rest, ls, w, d⟩ := q
  cases w <;> cases ls <;> cases rest <;> simp_all [burdens, burdensOf, isEmpty, size, isBusy]

variable {ω : Type} [World ω] {m : Moment} {n : Nat} {q : Queue} {s : Stage ω} {t : Tick ω}

/-- The rest of a tick leaves no more to do, and less if a command waits or a step is left. -/
theorem Runs.lighter (h : Runs m n q s t) (hq : q.Timed) (hdelta : 0 < m.delta) :
    NoHeavier t.queue q ∧ ((0 < n ∨ q.waiting ≠ none) ∧ q.isEmpty = false → Lighter t.queue q) := by
  have hless {q' q : Queue} {P : Prop} (h : Lighter q' q) : NoHeavier q' q ∧ (P → Lighter q' q) :=
    ⟨.inr h, fun _ => h⟩
  have hsettle {q q' : Queue} {es : List Event} {next : Next} (hw : q.waiting = none)
      (hs : settle q.rest q.loops = (es, q', next)) : NoHeavier q' q := by
    obtain ⟨rest, ls, _, d⟩ := q
    obtain rfl := hw
    exact noHeavier_settle hs d
  induction h with
  | @pending n q s s' w w' fx hw hr =>
    have hburden := Waiting.burden_run (hq.waiting w hw) hdelta hr
    have hw' : { q with waiting := some w' }.burdens = w'.burden ::ₘ
        { q with waiting := none }.burdens := burdens_waiting (q := { q with waiting := none }) rfl w'
    exact hless (lighter_of_begun hburden hw' (burdens_of_waiting hw))
  | stops hw hr hc => exact hless (lighter_of_over (burdens_of_waiting hw))
  | @met n q s s' w w' fx t hw hr hc ht ih =>
    obtain ⟨-, -, -, hc'⟩ := run_of_not_awaits (hq.waiting w hw) hr
    rw [hc] at hc'
    cases hc'
  | @done n q q' s es hw hs =>
    obtain rfl := settle_nothing hs
    exact ⟨hsettle hw hs, fun h => lighter_empty rfl h.2⟩
  | spentCommand hw hs | spentRound hw hs =>
    exact ⟨hsettle hw hs, fun h => (h.1.elim (Nat.lt_irrefl 0) fun h => h hw).elim⟩
  | round hw hs ht ih =>
    obtain ⟨-, hq'', -⟩ := settled (ω := ω) (m := m) hq hs
    have hround := (lighter_of_round hs).trans_noHeavier (hsettle hw hs)
    exact hless ((ih hq'').1.trans_lighter hround)
  | acts hw hs hr hc ht ih =>
    obtain ⟨-, ⟨-, hq''⟩, -⟩ := settled (ω := ω) (m := m) hq hs
    have hover := (lighter_of_over (burdens_of_command hs)).trans_noHeavier (hsettle hw hs)
    exact hless ((ih hq'').1.trans_lighter hover)
  | @ends n q q' q'' s s' es a fx hw hs hr hc =>
    have hover : Lighter q'' q' := lighter_of_over (burdens_of_command hs)
    exact hless (hover.trans_noHeavier (hsettle hw hs))
  | @waits n q q' q'' s es c w t hw hs hc ht ih =>
    obtain ⟨-, ⟨hc', hq''⟩, -⟩ := settled (ω := ω) (m := m) hq hs
    have hw' : w.command.awaits = false := by rw [Command.command_of_waiting? hc, hc']
    have hbegun := lighter_of_begun (Command.burden_of_waiting? hc)
      (burdens_waiting (waiting_of_command hs) w) (burdens_of_command hs)
    have hrest := ih ⟨hq''.rest, hq''.loops, by rintro _ ⟨⟩; exact hw'⟩
    exact hless (hrest.1.trans_lighter (hbegun.trans_noHeavier (hsettle hw hs)))
  | @repeats n q q' q'' s es range body t hw hs ht ih =>
    obtain ⟨-, ⟨hb, hq''⟩, -⟩ := settled (ω := ω) (m := m) hq hs
    have hbegun := lighter_of_begun (Loop.burden_ofRange range body (q''.read m s))
      (burdens_push (waiting_of_command hs) range body _) (burdens_of_command hs)
    have hrest := ih ⟨hq''.rest, List.forall_mem_cons.2 ⟨⟨rfl, hb⟩, hq''.loops⟩, hq''.waiting⟩
    exact hless (hrest.1.trans_lighter (hbegun.trans_noHeavier (hsettle hw hs)))

/-- A tick takes something off what is left to do, if it has a step to spend and takes some time. -/
theorem lighter_tick (hq : q.Timed) (hne : q.isEmpty = false) (hdelta : 0 < m.delta) (hn : 0 < n)
    (s : Stage ω) : Lighter (q.tick m n s).queue q := by
  obtain ⟨t, ht, htick⟩ := runs_tick q m n s
  rw [htick]
  exact (ht.lighter ⟨hq.rest, hq.loops, hq.waiting⟩ hdelta).2 ⟨.inl hn, hne⟩

/-! ### Histories -/

/-- A block that is left by one tick after another is over at some time, and stays so. -/
theorem exists_isEmpty {Q : ℕ → Queue} (hstart : (Q 0).Timed)
    (hstep : ∀ i, ∃ (m : Moment) (n : Nat) (s : Stage ω), 0 < m.delta ∧ 0 < n ∧
      Q (i + 1) = ((Q i).tick m n s).queue) :
    ∃ n, ∀ k, n ≤ k → (Q k).isEmpty = true := by
  have htimed : ∀ i, (Q i).Timed := by
    intro i
    induction i with
    | zero => exact hstart
    | succ i ih =>
      obtain ⟨m, n, s, -, -, hnext⟩ := hstep i
      rw [hnext]
      exact (outcome_tick ih m n s).1
  have hover : ∃ n, (Q n).isEmpty = true := by
    -- Of the blocks that are left, one has least to do; a tick would leave it even less.
    obtain ⟨_, ⟨n, rfl⟩, hleast⟩ := wellFounded_lighter.has_min (Set.range Q) ⟨Q 0, 0, rfl⟩
    refine ⟨n, ?_⟩
    by_contra hne
    obtain ⟨m, k, s, hdelta, hk, hnext⟩ := hstep n
    refine hleast (Q (n + 1)) ⟨n + 1, rfl⟩ ?_
    rw [hnext]
    exact lighter_tick (htimed n) (by simpa using hne) hdelta hk s
  obtain ⟨n, hn⟩ := hover
  refine ⟨n, fun k hk => ?_⟩
  induction k, hk using Nat.le_induction with
  | base => exact hn
  | succ k _ ih =>
    obtain ⟨m, j, s, -, -, hnext⟩ := hstep k
    rw [hnext, tick_of_isEmpty ih]
    rfl

theorem drive_concat (iterator : Value) (args : List Value) (q : Queue) (s : Stage ω)
    (ps : List Pulse) (p : Pulse) :
    (drive iterator args q s (ps ++ [p])).queue =
      ((drive iterator args q s ps).queue.tick ⟨p.now, p.delta, iterator, args⟩ p.steps
        (drive iterator args q s ps).stage).queue := by
  induction ps generalizing q s with
  | nil => rfl
  | cons p' ps ih => exact ih _ _

/-- A block that waits for nothing but time is over after some ticks, whatever their budgets and
lengths are, if each has a step to spend and takes some time. -/
theorem drive_ends {block : List Command} (h : anyAwaits block = false) (iterator : Value)
    (args : List Value) (s : Stage ω) {ps : ℕ → Pulse}
    (hps : ∀ i, 1 ≤ (ps i).steps ∧ 1 ≤ (ps i).delta) :
    ∃ n, ∀ k, n ≤ k →
      (drive iterator args (ofBlock block) s ((List.range k).map ps)).queue.isEmpty = true := by
  refine exists_isEmpty (ω := ω) (timed_ofBlock h) fun i => ?_
  obtain ⟨hsteps, hdelta⟩ := hps i
  let before := drive iterator args (ofBlock block) s ((List.range i).map ps)
  refine ⟨⟨(ps i).now, (ps i).delta, iterator, args⟩, (ps i).steps, before.stage, hdelta, hsteps, ?_⟩
  rw [List.range_succ, List.map_append, List.map_singleton]
  exact drive_concat iterator args (ofBlock block) s _ (ps i)

/-- A repetition whose count is a variable that its rounds set anew. Each of them waits as often and
as long as its number says. -/
def hourglass : List Command :=
  let turns := Operand.literal (.text "@turns")
  [.act (.assign ⟨turns, Operand.literal (.int 3)⟩),
   .repeat (.times (some (.variable "@turns")))
    [.act (.assign ⟨turns, Operand.literal (.int 9)⟩),
     .repeat (.times (some .iterator)) [.wait (some .iterator)]]]

/-- Ticks of a single step and a single unit of time. -/
theorem drive_ends_hourglass :
    let s : Stage (Surroundings NoFunctions) := ⟨∅, {}, ⟨⟩⟩
    let ps (i : ℕ) : Pulse := ⟨i, 1, 1⟩
    (anyAwaits hourglass = false ∧ ∀ i, 1 ≤ (ps i).steps ∧ 1 ≤ (ps i).delta) ∧
      ∃ n, ∀ k, n ≤ k →
        (drive .absent [] (ofBlock hourglass) s ((List.range k).map ps)).queue.isEmpty = true := by
  intro s ps
  have hps : ∀ i, 1 ≤ (ps i).steps ∧ 1 ≤ (ps i).delta := fun _ => ⟨Nat.le_refl 1, Int.le_refl 1⟩
  exact ⟨⟨rfl, hps⟩, drive_ends rfl .absent [] s hps⟩

end Queue
end StoryScript
