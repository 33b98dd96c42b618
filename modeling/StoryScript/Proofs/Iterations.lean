import Mathlib.Data.List.Forall2
import StoryScript.Proofs.Course
import StoryScript.Proofs.Renewal

/-! The rounds of a repetition are fixed when it begins. It may be driven by hand in any contexts, on
any stages and with any budgets, which its own rounds may have changed: of the items that were settled
at first, one after another is given to a new copy of the block, up to its end, and there is an item
for every copy. -/
namespace StoryScript

/-! ### Items by their indices -/

namespace Items

@[simp] theorem length_toList (items : Items) : items.toList.length = items.size := by
  cases items <;> simp [toList, size]

theorem getElem?_toList (items : Items) (k : Nat) : items.toList[k]? = items.get? k := by
  cases items with
  | numbers i n =>
    by_cases h : i + k < n
    · have hk : k < n - i := by omega
      simp [toList, get?, h, hk]
    · have hk : n - i ≤ k := by omega
      simp [toList, get?, h, hk]
  | values l => rfl

theorem take_toList_succ {items : Items} {k : Nat} {v : Value} (h : items.get? k = some v) :
    items.toList.take (k + 1) = items.toList.take k ++ [v] := by
  rw [List.take_add_one, getElem?_toList, h, Option.toList_some]

theorem exists_get? {items : Items} {k : Nat} (h : k < items.size) :
    ∃ v, items.get? k = some v := by
  rw [← length_toList] at h
  exact ⟨_, (getElem?_toList items k).symm.trans (List.getElem?_eq_getElem h)⟩

theorem lt_size_of_get? {items : Items} {k : Nat} {v : Value} (h : items.get? k = some v) :
    k < items.size := by
  rw [← getElem?_toList] at h
  rw [← length_toList]
  exact (List.getElem?_eq_some_iff.1 h).1

end Items

/-- What a range goes through: the numbers from zero on below a count, of which there are none unless
it is positive, or else values, or what a single list holds. -/
def Range.values : Range Value → List Value
  | times n => (List.range n.toInt.toInt.toNat).map fun k => .int (.ofNat k)
  | each [.list vs] => vs
  | each vs => vs

theorem Range.toList_items (r : Range Value) : r.items.toList = r.values := by
  fun_cases values r with
  | case1 n => simp [items, Items.toList, List.range_eq_range']
  | case2 vs => rfl
  | case3 vs hlist => simp [items, Items.toList]

namespace Rounds
variable {ω : Type} [World ω]

/-! ### The ticks of the blocks -/

/-- A tick of the block of a round: the block as it is before, the item that is found for it, and
what else the tick has to know. -/
structure Stint (ω : Type) where
  block : Queue
  item? : Option Value
  now : Int
  delta : Int
  args : List Value
  steps : Nat
  stage : Stage ω

def Stint.tick (x : Stint ω) : Tick ω :=
  x.block.tick ⟨x.now, x.delta, x.item?.getD .absent, x.args⟩ x.steps x.stage

def Stint.effects (x : Stint ω) : List Effect := effectsOf x.tick.events

/-- A run of rounds, and the ticks of their blocks. -/
structure Account (ω : Type) where
  run : Run ω
  stints : List (Stint ω) := []

def Account.after (x : Stint ω) (a : Account ω) : Account ω :=
  ⟨a.run.after x.effects, x :: a.stints⟩

/-- Runs the block of a round, and goes on once it is over. -/
def Account.turn (x : Stint ω) (index : Nat) (go : Nat → Stage ω → Account ω) : Account ω :=
  .after x <|
    if !x.tick.queue.isEmpty then
      { run := ⟨true, some x.tick.queue, index, x.tick.stage, x.tick.steps, []⟩ }
    else if x.tick.queue.deferred then
      { run := ⟨true, none, index + 1, x.tick.stage, x.tick.steps, []⟩ }
    else go x.tick.steps x.tick.stage

section
variable (body : List Command) (items : Items) (now delta : Int) (args : List Value)

/-- The tick of a block in the round of an index. -/
def stint (q : Queue) (index steps : Nat) (s : Stage ω) : Stint ω :=
  ⟨q, items.get? index, now, delta, args, steps, s⟩

/-- Runs the block of a round, if there is one, and the rounds after it, and keeps account of it. -/
def account : Option Queue → Nat → Nat → Stage ω → Account ω
  | some q, index, steps, s =>
    .turn (stint items now delta args q index steps s) index fun n s => account none (index + 1) n s
  | none, index, steps, s =>
    if index < items.size then
      match steps with
      | 0 => { run := ⟨true, none, index, s, 0, []⟩ }
      | n + 1 => account (some (.ofBlock body)) index n s
    else { run := ⟨false, none, index, s, steps, []⟩ }
termination_by current index =>
  match current with
  | some _ => 2 * (items.size - index) + 1
  | none => if index < items.size then 2 * (items.size - index) + 2 else 0
decreasing_by
  · split <;> omega
  · simp [*]

variable {body items now delta args}

/-- A run is the one of which the account is kept. -/
theorem run_account (settled : Option Items) (current : Option Queue) (k n : Nat) (s : Stage ω) :
    (account body items now delta args current k n s).run =
      Rounds.run body items now delta args ⟨settled, current, k⟩ n s := by
  fun_induction account with
  | case1 q k n s ih =>
    simp only [Account.turn, Account.after]
    rw [apply_ite Account.run, apply_ite Account.run, ih]
    rfl
  | case2 k s hk =>
    show _ = begin body items now delta args k 0 s
    unfold begin
    rw [if_pos hk]
  | case3 k s hk n ih =>
    show _ = begin body items now delta args k (n + 1) s
    unfold begin
    rw [if_pos hk, ih]
    rfl
  | case4 k n s hk =>
    show _ = begin body items now delta args k n s
    unfold begin
    rw [if_neg hk]

/-- All that a run does is done in the ticks of the blocks. -/
theorem effects_account (current : Option Queue) (k n : Nat) (s : Stage ω) :
    (account body items now delta args current k n s).run.effects =
      (account body items now delta args current k n s).stints.flatMap Stint.effects := by
  fun_induction account with
  | case1 q k n s ih =>
    simp only [Account.turn, Account.after, Run.after, List.flatMap_cons]
    congr 1
    split
    · rfl
    · split
      · rfl
      · exact ih _ _
  | case3 k s hk n ih => exact ih
  | case2 | case4 => rfl

end

/-! ### Lives of blocks -/

/-- The ticks of a copy of a block to which an item is given, from its first tick on, and what they
leave of it. -/
inductive Life (body : List Command) (v : Value) : List (Stint ω) → Queue → Prop
  | begins {x : Stint ω} (hx : x.block = .ofBlock body) (hv : x.item? = some v) :
      Life body v [x] x.tick.queue
  | goesOn {xs : List (Stint ω)} {q : Queue} {x : Stint ω} (h : Life body v xs q)
      (hq : q.isEmpty = false) (hx : x.block = q) (hv : x.item? = some v) :
      Life body v (xs ++ [x]) x.tick.queue

/-- All the ticks of a copy of a block. -/
def WholeLife (body : List Command) (v : Value) (xs : List (Stint ω)) : Prop :=
  ∃ q, Life body v xs q ∧ q.isEmpty = true

/-- The lives of copies of a block, one for each of some items. Only the last one may go on. -/
inductive Lives (body : List Command) : List Value → List (List (Stint ω)) → Prop
  | over {vs : List Value} {ls : List (List (Stint ω))}
      (h : List.Forall₂ (WholeLife body) vs ls) : Lives body vs ls
  | underWay {vs : List Value} {v : Value} {ls : List (List (Stint ω))} {xs : List (Stint ω)}
      {q : Queue} (h : List.Forall₂ (WholeLife body) vs ls) (hl : Life body v xs q)
      (hq : q.isEmpty = false) : Lives body (vs ++ [v]) (ls ++ [xs])

/-- Where a repetition stands after some lives: between two rounds, before the first tick of a
round, or within a round. -/
inductive Stands (body : List Command) (items : Items) :
    Option Queue → Nat → List (List (Stint ω)) → Prop
  | between {k : Nat} {ls : List (List (Stint ω))} (hk : k ≤ items.size)
      (h : List.Forall₂ (WholeLife body) (items.toList.take k) ls) : Stands body items none k ls
  | before {k : Nat} {ls : List (List (Stint ω))} (hk : k < items.size)
      (h : List.Forall₂ (WholeLife body) (items.toList.take k) ls) :
      Stands body items (some (.ofBlock body)) k ls
  | within {k : Nat} {ls : List (List (Stint ω))} {v : Value} {xs : List (Stint ω)} {q : Queue}
      (hv : items.get? k = some v) (h : List.Forall₂ (WholeLife body) (items.toList.take k) ls)
      (hl : Life body v xs q) (hq : q.isEmpty = false) :
      Stands body items (some q) k (ls ++ [xs])

variable {body : List Command} {items : Items} {k : Nat} {current : Option Queue}
  {ls : List (List (Stint ω))}

theorem Stands.lives (h : Stands body items current k ls) :
    ∃ vs, vs <+: items.toList ∧ Lives body vs ls ∧
      (items.size ≤ k → vs = items.toList ∧ List.Forall₂ (WholeLife body) vs ls) := by
  cases h with
  | between hk h =>
    refine ⟨_, List.take_prefix _ _, .over h, fun hle => ?_⟩
    have hall : items.toList.take k = items.toList := List.take_of_length_le (by simpa using hle)
    exact ⟨hall, h⟩
  | before hk h => exact ⟨_, List.take_prefix _ _, .over h, fun hle => absurd hk (Nat.not_lt.2 hle)⟩
  | within hv h hl hq =>
    refine ⟨_, ?_, .underWay h hl hq, fun hle => ?_⟩
    · rw [← Items.take_toList_succ hv]
      exact List.take_prefix _ _
    · exact absurd (Items.lt_size_of_get? hv) (Nat.not_lt.2 hle)

/-- The next tick of a block belongs to the life of one copy, which is over with it or goes on. -/
theorem stands_of_life {v : Value} {xs : List (Stint ω)} {q : Queue} (hv : items.get? k = some v)
    (h : List.Forall₂ (WholeLife body) (items.toList.take k) ls) (hl : Life body v xs q) :
    (q.isEmpty = false → Stands body items (some q) k (ls ++ [xs])) ∧
      (q.isEmpty = true → Stands body items none (k + 1) (ls ++ [xs])) := by
  refine ⟨fun hq => .within hv h hl hq, fun hq => .between (Items.lt_size_of_get? hv) ?_⟩
  rw [Items.take_toList_succ hv]
  exact List.rel_append h (.cons ⟨q, hl, hq⟩ .nil)

theorem Stands.tick {q : Queue} (h : Stands body items (some q) k ls) (now delta : Int)
    (args : List Value) (n : Nat) (s : Stage ω) :
    let x := stint items now delta args q k n s
    ∃ ls', ls'.flatten = ls.flatten ++ [x] ∧
      (x.tick.queue.isEmpty = false → Stands body items (some x.tick.queue) k ls') ∧
      (x.tick.queue.isEmpty = true → Stands body items none (k + 1) ls') := by
  intro x
  cases h with
  | before hk h =>
    obtain ⟨v, hv⟩ := Items.exists_get? hk
    exact ⟨ls ++ [[x]], by simp, stands_of_life hv h (.begins rfl hv)⟩
  | @within _ ls v xs _ hv h hl hq =>
    exact ⟨ls ++ [xs ++ [x]], by simp, stands_of_life hv h (.goesOn hl hq rfl hv)⟩

/-- A run goes on from the round of an index and after some lives. It is not pending only if no
round is left. -/
def Continues (body : List Command) (items : Items) (k : Nat) (ls : List (List (Stint ω)))
    (a : Account ω) : Prop :=
  ∃ ls', Stands body items a.run.current a.run.index ls' ∧ ls'.flatten = ls.flatten ++ a.stints ∧
    k ≤ a.run.index ∧ (a.run.pending = false → items.size ≤ a.run.index)

theorem Stands.stops {r : Run ω} (h : Stands body items r.current r.index ls) (hk : k ≤ r.index)
    (hp : r.pending = false → items.size ≤ r.index) : Continues body items k ls { run := r } :=
  ⟨ls, h, (List.append_nil _).symm, hk, hp⟩

theorem Continues.mono {k' : Nat} {a : Account ω} (h : Continues body items k' ls a) (hk : k ≤ k') :
    Continues body items k ls a := by
  obtain ⟨ls', hstands, hflatten, hindex, hpending⟩ := h
  exact ⟨ls', hstands, hflatten, Nat.le_trans hk hindex, hpending⟩

theorem Continues.after {ls' : List (List (Stint ω))} {x : Stint ω} {a : Account ω}
    (h : Continues body items k ls' a) (hls : ls'.flatten = ls.flatten ++ [x]) :
    Continues body items k ls (a.after x) := by
  obtain ⟨ls'', hstands, hflatten, hindex, hpending⟩ := h
  refine ⟨ls'', hstands, ?_, hindex, hpending⟩
  rw [hflatten, hls, List.append_assoc]
  rfl

theorem Stands.continues (h : Stands body items current k ls) (now delta : Int) (args : List Value)
    (n : Nat) (s : Stage ω) :
    Continues body items k ls (account body items now delta args current k n s) := by
  fun_induction account generalizing ls with
  | case1 q k n s ih =>
    obtain ⟨ls', hls', hgoesOn, hover⟩ := h.tick now delta args n s
    refine Continues.after ?_ hls'
    split
    · next hempty =>
      exact (hgoesOn (by simpa using hempty)).stops (Nat.le_refl k) fun h => Bool.noConfusion h
    · next hempty =>
      have hbetween := hover (by simpa using hempty)
      split
      · exact hbetween.stops (Nat.le_succ k) fun h => Bool.noConfusion h
      · exact (ih _ _ hbetween).mono (Nat.le_succ k)
  | case2 k s hk => exact h.stops (Nat.le_refl k) fun h => Bool.noConfusion h
  | case3 k s hk n ih =>
    cases h with
    | between _ h => exact ih (.before hk h)
  | case4 k n s hk => exact h.stops (Nat.le_refl k) fun _ => Nat.not_lt.1 hk

end Rounds

/-! ### Repetitions that are driven by hand -/

namespace Task
open Rounds (Stint Account Stands Lives WholeLife account)
variable {ω : Type} [World ω]

/-- The accounts of one round of a repetition after another. What it goes through is settled in the
first one. -/
def accounts (range : Range Operand) (body : List Command) :
    Rounds → List (Round ω) → List (Account ω)
  | _, [] => []
  | ⟨settled, current, index⟩, r :: rs =>
    let items := settled.getD (range.map (Operand.read (some r.context))).items
    let a := account body items r.now r.delta r.context.args current index r.steps r.stage
    a :: accounts range body ⟨some items, a.run.current, a.run.index⟩ rs

/-- What is seen of a round of which an account is kept: all that is done is done in the ticks of the
blocks. -/
def sightOf (a : Account ω) : Sight ω :=
  ⟨a.run.pending, a.run.stage, a.run.steps, a.stints.flatMap Stint.effects⟩

variable (range : Range Operand) {body : List Command} {items : Items}

/-- The accounts are true. -/
theorem watch_repeat (body : List Command) (rounds : Rounds) (c : Option Context)
    (rs : List (Round ω)) :
    watch ⟨.repeat range body, c, rounds⟩ rs = (accounts range body rounds rs).map sightOf := by
  induction rs generalizing c rounds with
  | nil => rfl
  | cons r rs ih =>
    obtain ⟨settled, current, k⟩ := rounds
    simp only [watch, accounts, List.map_cons]
    rw [sightOf, ← Rounds.effects_account, Rounds.run_account settled]
    exact congrArg _ (ih _ _)

/-- Rounds go on from where the repetition stands, over the items that are settled. -/
theorem exists_stands (rounds : Rounds) {ls : List (List (Stint ω))}
    (h : Stands body items rounds.current rounds.index ls) (rs : List (Round ω))
    (hitems : ∀ r ∈ rs.head?,
      rounds.items.getD (range.map (Operand.read (some r.context))).items = items) :
    ∃ current k ls', Stands body items current k ls' ∧
      ls'.flatten = ls.flatten ++ (accounts range body rounds rs).flatMap (·.stints) ∧
      rounds.index ≤ k ∧
      ((∃ a ∈ accounts range body rounds rs, a.run.pending = false) → items.size ≤ k) := by
  induction rs generalizing rounds ls with
  | nil => exact ⟨_, _, ls, h, by simp [accounts], Nat.le_refl _, by simp [accounts]⟩
  | cons r rs ih =>
    obtain ⟨settled, current, k⟩ := rounds
    have hr := hitems r rfl
    simp only at hr h
    simp only [accounts, hr]
    obtain ⟨ls', hls', hflatten, hindex, hpending⟩ :=
      h.continues r.now r.delta r.context.args r.steps r.stage
    obtain ⟨current', k', ls'', hls'', hflatten', hindex', hpending'⟩ :=
      ih ⟨some items, _, _⟩ hls' fun _ _ => rfl
    refine ⟨current', k', ls'', hls'', ?_, Nat.le_trans hindex hindex', ?_⟩
    · rw [hflatten', hflatten, List.flatMap_cons, List.append_assoc]
    · rintro ⟨a, ha, hp⟩
      rcases List.mem_cons.1 ha with rfl | ha
      · exact Nat.le_trans (hpending hp) hindex'
      · exact hpending' ⟨a, ha, hp⟩

/-- The rounds of a repetition are fixed when it begins. Of the items that its operands come to in
the first round in which it is driven, the first ones have been given, one after another, to one copy
of the block each, in all the ticks of the copy, and every copy was run up to its end before the next
one. The repetition is not pending only after all items. -/
theorem exists_lives (range : Range Operand) (body : List Command) (c : Option Context)
    (rounds : Rounds) (r : Round ω) (rs : List (Round ω)) :
    let t := reset ⟨.repeat range body, c, rounds⟩
    let items := (range.map (Operand.read (some r.context))).values
    let told := accounts range body {} (r :: rs)
    t.watch (r :: rs) = told.map sightOf ∧
      ∃ vs ls, vs <+: items ∧ Lives body vs ls ∧ told.flatMap (·.stints) = ls.flatten ∧
        ((∃ o ∈ t.watch (r :: rs), o.pending = false) →
          vs = items ∧ List.Forall₂ (WholeLife body) vs ls) := by
  intro t items told
  have hwatch : t.watch (r :: rs) = told.map sightOf := watch_repeat range body {} c _
  refine ⟨hwatch, ?_⟩
  have hstart : Stands body (range.map (Operand.read (some r.context))).items none 0
      ([] : List (List (Stint ω))) := .between (Nat.zero_le _) .nil
  obtain ⟨current, k, ls, hls, hflatten, -, hpending⟩ :=
    exists_stands range {} hstart (r :: rs) (by rintro _ ⟨⟩; rfl)
  obtain ⟨vs, hprefix, hlives, hall⟩ := hls.lives
  rw [Range.toList_items] at hprefix hall
  refine ⟨vs, ls, hprefix, hlives, hflatten.symm, ?_⟩
  rintro ⟨o, ho, hp⟩
  rw [hwatch] at ho
  obtain ⟨a, ha, rfl⟩ := List.mem_map.1 ho
  exact hall (hpending ⟨a, ha, hp⟩)

end Task
end StoryScript
