import Mathlib
import StoryScript.Board
import StoryScript.Proofs.Delivery

/-! When a handler is at work for more than one message. A message that waits is let in as soon as
one message of its handler is over, though others may still be at work. Plain messages are kept
apart from all others exactly when this never happens; it cannot where no message is concurrent. -/
namespace StoryScript

@[simp] theorem Message.countTo_append (id : String) (ms ns : List Message) :
    countTo id (ms ++ ns) = countTo id ms + countTo id ns := by
  simp [countTo]

@[simp] theorem Message.countTo_cons (id : String) (m : Message) (ms : List Message) :
    countTo id (m :: ms) = (if m.id = id then 1 else 0) + countTo id ms := by
  by_cases hm : m.id = id
  · simp [countTo, hm]
    omega
  · simp [countTo, hm]

@[simp] theorem Message.countTo_nil (id : String) : countTo id [] = 0 := rfl

theorem Message.countTo_eq_zero {id : String} {ms : List Message} :
    countTo id ms = 0 ↔ ∀ m ∈ ms, m.id ≠ id := by
  simp [countTo]

namespace Journal
open Message (countTo)

/-- For how many messages a handler is at work. -/
def atWork (J : Journal) (id : String) : Nat := countTo id (J.of .began) - countTo id (J.of .ended)

/-- Whether messages to a handler came that have not begun. -/
def waits (J : Journal) (id : String) : Prop := countTo id (J.of .began) < countTo id (J.of .came)

/-- A plain message to a handler begins only while the handler is not at work. -/
def KeepsApart (id : String) (J : Journal) : Prop :=
  J.Always fun before o =>
    o.occasion = .began → o.message.plainTo id = true → before.atWork id = 0

/-- A message to a handler for which others wait is over only when the handler is at work for none
besides. -/
def EndsAlone (id : String) (J : Journal) : Prop :=
  J.Always fun before o =>
    o.occasion = .ended → o.message.id = id → before.waits id → before.atWork id = 1

variable {J : Journal} {id : String} {o : Occurrence}

theorem keepsApart_snoc : KeepsApart id (J ++ [o]) ↔
    KeepsApart id J ∧ (o.occasion = .began → o.message.plainTo id = true → J.atWork id = 0) :=
  always_snoc

theorem endsAlone_snoc : EndsAlone id (J ++ [o]) ↔
    EndsAlone id J ∧ (o.occasion = .ended → o.message.id = id → J.waits id → J.atWork id = 1) :=
  always_snoc

end Journal

namespace History
open Journal (keepsApart_snoc endsAlone_snoc)
open Message (countTo countTo_append countTo_cons countTo_nil countTo_eq_zero)
variable {t : Template} {J : Journal} {R : List Message} {Q : Waitlist}

theorem atWork_eq (h : History t J R Q) (id : String) : J.atWork id = countTo id R := by
  have hp := ((h.running).filter (·.id = id)).length_eq
  have hc : countTo id (J.of .began) = countTo id (J.of .ended) + countTo id R := by
    simpa [countTo] using hp
  simp only [Journal.atWork]
  omega

theorem waits_iff (h : History t J R Q) {id : String} (hid : t.answers id) :
    J.waits id ↔ Q.of id ≠ [] := by
  have hc := h.countTo_came hid
  have hl : Q.of id ≠ [] ↔ 0 < (Q.of id).length := List.length_pos_iff.symm
  rw [hl]
  simp only [Journal.waits]
  omega

/-- Plain messages to a handler are kept apart exactly when none is let in while the handler is
still at work for another. -/
theorem keepsApart_iff (h : History t J R Q) (id : String) : J.KeepsApart id ↔ J.EndsAlone id := by
  induction h with
  | start => exact iff_of_true Journal.always_nil Journal.always_nil
  | posted _ _ ih | fetched _ _ ih | unanswered _ _ _ ih | waits _ _ _ _ _ ih | ran _ _ _ ih =>
    simpa [keepsApart_snoc, endsAlone_snoc] using ih
  | @begins J R Q m h hm hfree ih =>
    -- A plain message that begins when it comes finds its handler idle.
    have hidle : m.plainTo id = true → Journal.atWork (J ++ [⟨.came, m⟩]) id = 0 := by
      intro hplain
      obtain ⟨hmid, hmc⟩ : m.id = id ∧ m.concurrent = false := by
        simpa [Message.plainTo] using hplain
      have hJ : Journal.atWork (J ++ [⟨.came, m⟩]) id = J.atWork id := by simp [Journal.atWork]
      rw [hJ, h.atWork_eq, countTo_eq_zero]
      rcases hfree with hfree | hfree
      · exact hmid ▸ hfree
      · simp [hmc] at hfree
    simp only [keepsApart_snoc, endsAlone_snoc, reduceCtorEq, false_implies, and_true, true_implies]
    exact ⟨fun hJ => ih.1 hJ.1, fun hJ => ⟨ih.2 hJ, hidle⟩⟩
  | @ends J Q A m B h hm ih =>
    have hnone : m.id = id → ¬ J.waits id := by
      rintro rfl
      rw [h.waits_iff (h.answers m (by simp))]
      exact fun hq => hq hm
    simp only [keepsApart_snoc, endsAlone_snoc, reduceCtorEq, false_implies, and_true, true_implies]
    exact ⟨fun hJ => ⟨ih.1 hJ, fun hid hw => absurd hw (hnone hid)⟩, fun hJ => ih.2 hJ.1⟩
  | @released J Q Q' A m B n h hp ih =>
    obtain ⟨hn, hc, ha⟩ := h.waiting_pop? hp
    have hwaits : J.waits m.id := by
      rw [h.waits_iff ha, Waitlist.of_of_pop? hp, if_pos rfl]
      exact List.cons_ne_nil _ _
    -- The message that is over is the only one at work just if none is left after it.
    have hleft : m.id = id →
        (Journal.atWork (J ++ [⟨.ended, m⟩]) id = 0 ↔ J.atWork id = 1) := by
      intro hid
      have hJ : Journal.atWork (J ++ [⟨.ended, m⟩]) id = J.atWork id - 1 := by
        simp [Journal.atWork, hid]
        omega
      have hpos : 0 < J.atWork id := by
        rw [h.atWork_eq]
        simp only [countTo_append, countTo_cons, hid, if_true]
        omega
      rw [hJ]
      omega
    have hplain : n.plainTo id = true ↔ m.id = id := by simp [Message.plainTo, hn, hc]
    simp only [keepsApart_snoc, endsAlone_snoc, reduceCtorEq, false_implies, and_true, true_implies,
      hplain]
    constructor
    · rintro ⟨hJ, hnext⟩
      exact ⟨ih.1 hJ, fun hid _ => (hleft hid).1 (hnext hid)⟩
    · rintro ⟨hJ, hnext⟩
      exact ⟨ih.2 hJ, fun hid => (hleft hid).2 (hnext hid (hid ▸ hwaits))⟩

/-- A handler to which no message is concurrent is at work for one message at most. -/
theorem atWork_le_one (h : History t J R Q) {id : String}
    (hplain : ∀ m ∈ J.of .came, m.id = id → m.concurrent = false) : J.atWork id ≤ 1 := by
  rw [h.atWork_eq]
  induction h with
  | start => simp
  | posted _ _ ih | fetched _ _ ih | unanswered _ _ _ ih | waits _ _ _ _ _ ih | ran _ _ _ ih =>
    apply ih
    intro n hn
    exact hplain n (by simp [hn])
  | ends A m B _ _ ih =>
    have hR := ih fun n hn => hplain n (by simpa using hn)
    simp only [countTo_append, countTo_cons] at hR ⊢
    omega
  | @begins J R Q m _ _ hfree ih =>
    have hR := ih fun n hn => hplain n (by simp [hn])
    by_cases hid : m.id = id
    · have hmc : m.concurrent = false := hplain m (by simp) hid
      have hidle : countTo id R = 0 := by
        rw [countTo_eq_zero]
        rcases hfree with hfree | hfree
        · exact hid ▸ hfree
        · simp [hmc] at hfree
      simp [hid, hidle]
    · simpa [hid] using hR
  | @released J Q Q' A m B n h hp ih =>
    have hR := ih fun k hk => hplain k (by simpa using hk)
    obtain ⟨hn, -, -⟩ := h.waiting_pop? hp
    simp only [countTo_append, countTo_cons, countTo_nil, hn] at hR ⊢
    omega

theorem endsAlone_of_plain (h : History t J R Q) {id : String}
    (hplain : ∀ m ∈ J.of .came, m.id = id → m.concurrent = false) : J.EndsAlone id := by
  induction h with
  | start => exact Journal.always_nil
  | posted _ _ ih | fetched _ _ ih | unanswered _ _ _ ih | waits _ _ _ _ _ ih | ran _ _ _ ih =>
    have hJ := ih fun n hn => hplain n (by simp [hn])
    simpa [endsAlone_snoc] using hJ
  | begins m _ _ _ ih =>
    have hJ := ih fun n hn => hplain n (by simp [hn])
    simpa only [endsAlone_snoc, reduceCtorEq, false_implies, and_true] using hJ
  | ends A m B h _ ih | released A m B _ h _ ih =>
    have hJ := ih fun n hn => hplain n (by simpa using hn)
    have hle := h.atWork_le_one fun n hn => hplain n (by simpa using hn)
    simp only [endsAlone_snoc, reduceCtorEq, false_implies, and_true, true_implies]
    refine ⟨hJ, fun hid _ => ?_⟩
    have hpos : 0 < countTo id (A ++ m :: B) := by
      simp only [countTo_append, countTo_cons, hid, if_true]
      omega
    rw [h.atWork_eq] at hle ⊢
    omega

end History

namespace Instance
variable {ω : Type} [World ω]

/-- Whatever was done with a story, the plain messages to one of its handlers were kept apart from
all others exactly when no message that others waited for was over while the handler was at work for
one more. Without concurrent messages to the handler they always are. -/
theorem run_keepsApart_iff (n : Nat) (t : Template) (ops : List (Operation ω)) (id : String) :
    let J := (({ id := n, template := t } : Instance).run ops).2
    (J.KeepsApart id ↔ J.EndsAlone id) ∧
      ((∀ m ∈ J.of .came, m.id = id → m.concurrent = false) → J.KeepsApart id) := by
  intro J
  obtain ⟨R, Q, posts, hJ, -, -⟩ := keeps_run (keeps_new n t) ops
  have hiff := History.keepsApart_iff hJ id
  exact ⟨hiff, fun hplain => hiff.2 (History.endsAlone_of_plain hJ hplain)⟩

/-- A story that waits for as long as its message says, and then tells how long that was. -/
def pauses : Template :=
  ⟨"pauses", true, (∅ : Table (List Command)).insert "pause"
    [.wait (some (.argument 0)), .act (.log [some (.argument 0)])]⟩

/-- A plain message, a concurrent one that is over before it, and a plain one that waits. -/
def crowd : List (Operation (Surroundings NoFunctions)) :=
  [.deliver ⟨"pause", [.int 40], false⟩ 0, .deliver ⟨"pause", [.int 10], true⟩ 0,
    .deliver ⟨"pause", [.int 1], false⟩ 0, .tick ⟨10, 10, []⟩ 100 ⟨{}, ⟨⟩⟩,
    .tick ⟨20, 10, []⟩ 100 ⟨{}, ⟨⟩⟩]

/-- The message that waits is let in by the concurrent one. Two plain messages are then at work. -/
theorem not_keepsApart_crowd :
    let r := ({ id := 1, template := pauses } : Instance).run crowd
    ¬ Journal.KeepsApart "pause" r.2 ∧
      r.1.atWork = [⟨"pause", [.int 40], false⟩, ⟨"pause", [.int 1], false⟩] := by
  intro r
  have hJ : r.2 = r.2.take 10 ++ ⟨.began, ⟨"pause", [.int 1], false⟩⟩ :: r.2.drop 11 := by cbv
  have hbusy : Journal.atWork (r.2.take 10) "pause" = 1 := by cbv
  refine ⟨fun h => ?_, by cbv⟩
  have hidle := h (r.2.take 10) ⟨.began, ⟨"pause", [.int 1], false⟩⟩ (r.2.drop 11) hJ rfl rfl
  omega

end Instance
end StoryScript
