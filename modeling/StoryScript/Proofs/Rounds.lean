import StoryScript.Proofs.Frame
import StoryScript.Task

/-! A repetition that is driven by hand goes through its rounds in step with a block that runs it.
The one keeps the block of the round under way as a whole, the other only a frame for the round. -/
namespace StoryScript

/-! ### Items by their indices -/

namespace Items

def drop : Items → Nat → Items
  | numbers i n, k => numbers (i + k) n
  | values l, k => values (l.drop k)

@[simp] theorem drop_zero (items : Items) : items.drop 0 = items := by
  cases items <;> rfl

theorem next?_drop_of_lt {items : Items} {k : Nat} (h : k < items.size) :
    (items.drop k).next? = some ((items.get? k).getD .absent, items.drop (k + 1)) := by
  cases items with
  | numbers i n =>
    have hlt : i + k < n := by
      simp only [size] at h
      omega
    simp [drop, next?, get?, hlt, Nat.add_assoc]
  | values l =>
    have hlt : k < l.length := h
    simp only [drop]
    rw [List.drop_eq_getElem_cons hlt]
    simp [next?, get?, hlt]

theorem next?_drop_of_le {items : Items} {k : Nat} (h : items.size ≤ k) :
    (items.drop k).next? = none := by
  cases items with
  | numbers i n =>
    have hle : ¬ i + k < n := by
      simp only [size] at h
      omega
    simp [drop, next?, hle]
  | values l =>
    have hle : l.drop k = [] := List.drop_eq_nil_of_le h
    simp [drop, next?, hle]

end Items

/-- A tick leaves a stage and steps after some effects, and a block that is over or else as far as
it should be. -/
structure Tick.Yields {ω : Type} (t : Tick ω) (p : Bool) (Ahead : Queue → Prop) (s : Stage ω)
    (n : Nat) (fx : List Effect) : Prop where
  stage : t.stage = s
  steps : t.steps = n
  effects : effectsOf t.events = fx
  pending : p = true → Ahead t.queue
  finished : p = false → t.queue.isEmpty = true

theorem Tick.Yields.after {ω : Type} {t : Tick ω} {p : Bool} {Ahead : Queue → Prop} {s : Stage ω}
    {n : Nat} {fx fx' : List Effect} {es : List Event} (h : t.Yields p Ahead s n fx)
    (hes : effectsOf es = fx') : (t.after es).Yields p Ahead s n (fx' ++ fx) :=
  ⟨h.stage, h.steps, by simp [hes, h.effects], h.pending, h.finished⟩

theorem Tick.Yields.unseen {ω : Type} {t : Tick ω} {p : Bool} {Ahead : Queue → Prop} {s : Stage ω}
    {n : Nat} {fx : List Effect} {es : List Event} (h : t.Yields p Ahead s n fx)
    (hes : effectsOf es = []) : (t.after es).Yields p Ahead s n fx :=
  h.after hes

namespace Rounds
open Queue (within Runs)

variable {ω : Type} [World ω] (range : Range Operand) (body : List Command) (items : Items)

/-- A repetition between two rounds, the next one being that of an index. -/
def between (k : Nat) (v : Value) : Queue :=
  { rest := [], loops := [⟨range, body, items.drop k, v, []⟩] }

def frame (k : Nat) : Loop :=
  ⟨range, body, items.drop (k + 1), (items.get? k).getD .absent, []⟩

/-- The block that is as far as some rounds are. -/
inductive Shows : Option Queue → Nat → Queue → Prop
  | between (k : Nat) (v : Value) : Shows none k (between range body items k v)
  | within (k : Nat) (q : Queue) : Shows (some q) k (within (frame range body items k) q)

abbrev Matches (o : Run ω) (t : Tick ω) : Prop :=
  t.Yields o.pending (Shows range body items o.current o.index) o.stage o.steps o.effects

variable {range body items}
variable {now delta : Int} {args : List Value} {outer : Value}

theorem exists_turn {k : Nat} {go : Nat → Stage ω → Run ω}
    (hgo : ∀ n s, ∃ t, Runs ⟨now, delta, outer, args⟩ n
      (between range body items (k + 1) ((items.get? k).getD .absent)) s t ∧
      Matches range body items (go n s) t) (q : Queue) (n : Nat) (s : Stage ω) :
    ∃ t, Runs ⟨now, delta, outer, args⟩ n (within (frame range body items k) q) s t ∧
      Matches range body items (turn items now delta args q k n s go) t := by
  obtain ⟨t, hrun, htick⟩ := Queue.runs_tick q ⟨now, delta, (items.get? k).getD .absent, args⟩ n s
  have hlift : Queue.Lifts (frame range body items k) ⟨now, delta, outer, args⟩ n _ s t :=
    Queue.lifts_of_runs rfl hrun
  have hturn : turn items now delta args q k n s go = .after (effectsOf t.events)
      (if !t.queue.isEmpty then ⟨true, some t.queue, k, t.stage, t.steps, []⟩
        else if t.queue.deferred then ⟨true, none, k + 1, t.stage, t.steps, []⟩
        else go t.steps t.stage) := by
    simp [turn, htick, effectsOf_replicate (e := .entered) rfl]
  rw [hturn]
  by_cases hempty : t.queue.isEmpty = true
  · obtain ⟨hrest, hloops, hwaiting⟩ := Queue.isEmpty_iff.1 hempty
    have hq : within (frame range body items k) t.queue =
        between range body items (k + 1) ((items.get? k).getD .absent) := by
      simp [within, frame, between, hrest, hloops, hwaiting]
    cases hd : t.queue.deferred with
    | true =>
      -- One of the commands of the block ended the tick, and the block with it.
      obtain ⟨es, hes, heff⟩ := hlift.stay (by simp [Queue.isOver, hd])
      refine ⟨_, hes, ?_⟩
      simp only [hempty, Bool.not_true, Bool.false_eq_true, if_false, if_true]
      refine ⟨rfl, rfl, by simp [Run.after, heff], fun _ => ?_, fun h => Bool.noConfusion h⟩
      rw [hq]
      exact .between _ _
    | false =>
      obtain ⟨t', ht', hm⟩ := hgo t.steps t.stage
      obtain ⟨es, hes, heff⟩ := hlift.finish (by simp [Queue.isOver, hempty, hd]) t' (hq ▸ ht')
      refine ⟨_, hes, ?_⟩
      simp only [hempty, Bool.not_true, Bool.false_eq_true, if_false]
      exact hm.after heff
  · obtain ⟨es, hes, heff⟩ := hlift.stay (by simp [Queue.isOver, hempty])
    refine ⟨_, hes, ?_⟩
    simp only [hempty, Bool.not_false, if_true]
    exact ⟨rfl, rfl, by simp [Run.after, heff], fun _ => .within _ _, fun h => Bool.noConfusion h⟩

/-- The rounds from an index on, in step with the block that stands before them. -/
theorem exists_begin (k n : Nat) (v : Value) (s : Stage ω) :
    ∃ t, Runs ⟨now, delta, outer, args⟩ n (between range body items k v) s t ∧
      Matches range body items (begin body items now delta args k n s) t := by
  induction hk : items.size - k generalizing k n v s with
  | zero =>
    have hle : items.size ≤ k := by omega
    have hsettle : Queue.settle [] (between range body items k v).loops =
        ([.left false], { rest := [] }, .nothing) := by
      simp [between, Queue.settle, Items.next?_drop_of_le hle]
    refine ⟨_, .done rfl hsettle, ?_⟩
    unfold begin
    rw [if_neg (Nat.not_lt.2 hle)]
    exact ⟨rfl, rfl, rfl, fun h => Bool.noConfusion h, fun _ => rfl⟩
  | succ j ih =>
    have hlt : k < items.size := by omega
    have hsettle : Queue.settle [] (between range body items k v).loops =
        ([], between range body items k v, .round ((items.get? k).getD .absent)
          (within (frame range body items k) (.ofBlock body))) := by
      simp [between, Queue.settle, Items.next?_drop_of_lt hlt, within, frame, Queue.ofBlock]
    unfold begin
    rw [if_pos hlt]
    cases n with
    | zero =>
      refine ⟨_, .spentRound rfl hsettle, ?_⟩
      exact ⟨rfl, rfl, rfl, fun _ => .between k v, fun h => Bool.noConfusion h⟩
    | succ n =>
      obtain ⟨t, ht, hm⟩ := exists_turn (fun n s => ih (k + 1) n _ s (by omega)) (.ofBlock body) n s
      refine ⟨_, .round rfl hsettle ht, ?_⟩
      exact (hm.unseen rfl).unseen rfl

theorem exists_run {r : Rounds} {q : Queue} (h : Shows range body items r.current r.index q)
    (n : Nat) (s : Stage ω) :
    ∃ t, Runs ⟨now, delta, outer, args⟩ n { q with deferred := false } s t ∧
      Matches range body items (r.run body items now delta args n s) t := by
  obtain ⟨settled, current, k⟩ := r
  cases h with
  | between k v => exact exists_begin k n v s
  | within k q => exact exists_turn (fun n s => exists_begin (k + 1) n _ s) q n s

end Rounds
end StoryScript
