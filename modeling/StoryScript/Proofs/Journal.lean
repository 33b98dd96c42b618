import StoryScript.Instance

/-! What happens to the messages of a running story, one occurrence after another. A history is a
journal that a story can have come by, with the messages whose handlers are at work after it, and the
messages that wait. -/
namespace StoryScript

/-! ### Journals -/

/-- What can happen to a message: it is posted; it is fetched from the posts; it comes to the story;
its handler begins, is run with its arguments, and is over. -/
inductive Occasion where
  | posted
  | fetched
  | came
  | began
  | ran
  | ended
  deriving DecidableEq

/-- Something that happens to a message. -/
structure Occurrence where
  occasion : Occasion
  message : Message

/-- What happened, from the beginning on. -/
abbrev Journal := List Occurrence

namespace Journal

/-- The messages to which something happened, in the order in which it did. -/
def of (J : Journal) (o : Occasion) : List Message :=
  (J.filter (·.occasion = o)).map (·.message)

@[simp] theorem of_nil (o : Occasion) : of [] o = [] := rfl

@[simp] theorem of_append (J K : Journal) (o : Occasion) : (J ++ K).of o = J.of o ++ K.of o := by
  simp [of]

@[simp] theorem of_cons (o o' : Occasion) (m : Message) (J : Journal) :
    of (⟨o, m⟩ :: J) o' = if o = o' then m :: of J o' else of J o' := by
  by_cases h : o = o' <;> simp [of, h]

@[simp] theorem of_map (o o' : Occasion) (ms : List Message) :
    of (ms.map (⟨o, ·⟩)) o' = if o = o' then ms else [] := by
  induction ms with
  | nil => simp
  | cons m ms ih =>
    rw [List.map_cons, of_cons, ih]
    split <;> rfl

theorem of_flatMap {α : Type} (f : α → Journal) (l : List α) (o : Occasion) :
    of (l.flatMap f) o = l.flatMap fun x => of (f x) o := by
  induction l with
  | nil => rfl
  | cons x l ih => rw [List.flatMap_cons, of_append, ih, List.flatMap_cons]

/-- Every occurrence of a journal fits what happened before it. -/
def Always (P : Journal → Occurrence → Prop) (J : Journal) : Prop :=
  ∀ before o after, J = before ++ o :: after → P before o

variable {P Q : Journal → Occurrence → Prop} {J : Journal}

@[simp] theorem always_nil : Always P [] := by
  intro before o after h
  simp at h

theorem always_snoc {o : Occurrence} : Always P (J ++ [o]) ↔ Always P J ∧ P J o := by
  constructor
  · intro h
    refine ⟨fun before o' after hJ => ?_, h J o [] rfl⟩
    exact h before o' (after ++ [o]) (by simp [hJ])
  · rintro ⟨hJ, ho⟩ before o' after h
    rcases List.eq_nil_or_concat after with rfl | ⟨after, last, rfl⟩
    · obtain ⟨rfl, hoo⟩ := List.append_inj' h rfl
      obtain rfl : o = o' := by simpa using hoo
      exact ho
    · have hs : J ++ [o] = (before ++ o' :: after) ++ [last] := by simpa using h
      obtain ⟨hJ', -⟩ := List.append_inj' hs rfl
      exact hJ before o' after hJ'

end Journal

/-! ### Messages of one handler -/

namespace Message

/-- Whether a message is a plain one to some handler. -/
def plainTo (id : String) (m : Message) : Bool := m.id = id && !m.concurrent

/-- Whether a message is a concurrent one to some handler. -/
def concurrentTo (id : String) (m : Message) : Bool := m.id = id && m.concurrent

/-- How many of some messages are to a handler. -/
def countTo (id : String) (ms : List Message) : Nat := (ms.filter (·.id = id)).length

theorem countTo_eq (id : String) (ms : List Message) :
    countTo id ms = (ms.filter (plainTo id)).length + (ms.filter (concurrentTo id)).length := by
  induction ms with
  | nil => rfl
  | cons m ms ih =>
    simp only [countTo] at ih
    by_cases hm : m.id = id <;> cases hc : m.concurrent <;>
      simp [countTo, plainTo, concurrentTo, hm, hc] <;> omega

end Message

/-! ### Histories -/

/-- Whether a story answers a message. -/
def Template.answers (t : Template) (id : String) : Prop := (t.handler? id).isSome

/-- The histories of a story: its journal, the messages whose handlers are at work, and the messages
that wait. -/
inductive History (t : Template) : Journal → List Message → Waitlist → Prop
  | start : History t [] [] ∅
  | posted {J R Q} (m : Message) : History t J R Q → History t (J ++ [⟨.posted, m⟩]) R Q
  | fetched {J R Q} (m : Message) : History t J R Q → History t (J ++ [⟨.fetched, m⟩]) R Q
  | unanswered {J R Q} (m : Message) : History t J R Q → ¬ t.answers m.id →
      History t (J ++ [⟨.came, m⟩]) R Q
  | waits {J R Q} (m : Message) : History t J R Q → t.answers m.id → (∃ n ∈ R, n.id = m.id) →
      m.concurrent = false → History t (J ++ [⟨.came, m⟩]) R (Q.push m)
  | begins {J R Q} (m : Message) : History t J R Q → t.answers m.id →
      (∀ n ∈ R, n.id ≠ m.id) ∨ m.concurrent = true →
      History t (J ++ [⟨.came, m⟩] ++ [⟨.began, m⟩]) (R ++ [m]) Q
  | ran {J R Q} (m : Message) : History t J R Q → m ∈ R → History t (J ++ [⟨.ran, m⟩]) R Q
  | ends {J Q} (A : List Message) (m : Message) (B : List Message) : History t J (A ++ m :: B) Q →
      Q.of m.id = [] → History t (J ++ [⟨.ended, m⟩]) (A ++ B) Q
  | released {J Q Q'} (A : List Message) (m : Message) (B : List Message) (n : Message) :
      History t J (A ++ m :: B) Q → Q.pop? m.id = some (n, Q') →
      History t (J ++ [⟨.ended, m⟩] ++ [⟨.began, n⟩]) (A ++ B ++ [n]) Q'

namespace History
variable {t : Template} {J : Journal} {R : List Message} {Q : Waitlist}

/-- The messages that wait are plain ones to the handler for which they wait. -/
theorem waiting (h : History t J R Q) (id : String) :
    ∀ n ∈ Q.of id, n.id = id ∧ n.concurrent = false ∧ t.answers id := by
  induction h with
  | start => simp
  | posted | fetched | unanswered | begins | ran | ends => assumption
  | waits m _ hm _ hc ih =>
    intro n hn
    rw [Waitlist.of_push] at hn
    split at hn
    · next hid =>
      rcases List.mem_append.1 hn with hn | hn
      · exact ih n hn
      · obtain rfl := List.mem_singleton.1 hn
        exact ⟨hid.symm, hc, hid ▸ hm⟩
    · exact ih n hn
  | released A m B n _ hp ih =>
    intro k hk
    apply ih
    rw [Waitlist.of_of_pop? hp id]
    split
    · exact List.mem_cons_of_mem _ hk
    · exact hk

/-- The first message that waits is a plain one to its handler. -/
theorem waiting_pop? (h : History t J R Q) {id : String} {n : Message} {Q' : Waitlist}
    (hp : Q.pop? id = some (n, Q')) : n.id = id ∧ n.concurrent = false ∧ t.answers id := by
  apply h.waiting id
  rw [Waitlist.of_of_pop? hp id, if_pos rfl]
  exact List.mem_cons_self

/-- Only messages that are answered are at work. -/
theorem answers (h : History t J R Q) : ∀ m ∈ R, t.answers m.id := by
  induction h with
  | start => simp
  | posted | fetched | unanswered | waits | ran => assumption
  | begins m _ hm _ ih =>
    intro n hn
    rcases List.mem_append.1 hn with hn | hn
    · exact ih n hn
    · obtain rfl := List.mem_singleton.1 hn
      exact hm
  | ends A m B _ _ ih =>
    intro n hn
    refine ih n ?_
    rcases List.mem_append.1 hn with hn | hn <;> simp [hn]
  | released A m B n h hp ih =>
    intro k hk
    obtain ⟨hn, -, ha⟩ := h.waiting_pop? hp
    simp only [List.append_assoc, List.mem_append, List.mem_singleton] at hk
    rcases hk with hk | hk | rfl
    · exact ih k (by simp [hk])
    · exact ih k (by simp [hk])
    · rw [hn]
      exact ha

/-- A message waits only for a handler that is at work. -/
theorem busy (h : History t J R Q) (id : String) (hq : Q.of id ≠ []) : ∃ m ∈ R, m.id = id := by
  induction h with
  | start => simp at hq
  | posted _ _ ih | fetched _ _ ih | unanswered _ _ _ ih | ran _ _ _ ih => exact ih hq
  | waits m _ _ hb _ ih =>
    rw [Waitlist.of_push] at hq
    split at hq
    · next hid => exact hid ▸ hb
    · exact ih hq
  | begins m _ _ _ ih =>
    obtain ⟨n, hn, hid⟩ := ih hq
    exact ⟨n, List.mem_append_left _ hn, hid⟩
  | ends A m B _ hm ih =>
    obtain ⟨n, hn, hid⟩ := ih hq
    have hne : n ≠ m := by
      rintro rfl
      exact hq (hid ▸ hm)
    exact ⟨n, by simpa [hne] using hn, hid⟩
  | released A m B n h hp ih =>
    have hof := Waitlist.of_of_pop? hp id
    by_cases hid : id = m.id
    · exact ⟨n, by simp, hid ▸ (h.waiting_pop? hp).1⟩
    · rw [if_neg hid] at hof
      obtain ⟨k, hk, hkid⟩ := ih (hof ▸ hq)
      have hne : k ≠ m := by
        rintro rfl
        exact hid hkid.symm
      have : k ∈ A ++ B := by simpa [hne] using hk
      exact ⟨k, List.mem_append_left _ this, hkid⟩

/-- The plain messages to a handler begin in the order in which they came, and those that have not
begun wait in that order. -/
theorem plain (h : History t J R Q) {id : String} (hid : t.answers id) :
    (J.of .came).filter (Message.plainTo id) =
      (J.of .began).filter (Message.plainTo id) ++ Q.of id := by
  induction h with
  | start => rfl
  | posted _ _ ih | fetched _ _ ih | ran _ _ _ ih | ends _ _ _ _ _ ih => simpa using ih
  | unanswered m _ hm ih =>
    have hne : m.id ≠ id := by
      rintro rfl
      exact hm hid
    have hf : Message.plainTo id m = false := by simp [Message.plainTo, hne]
    simpa [hf] using ih
  | waits m _ _ _ hc ih =>
    by_cases hm : id = m.id
    · have hf : Message.plainTo id m = true := by simp [Message.plainTo, hm, hc]
      simp [ih, hf, Waitlist.of_push, ← hm]
    · have hf : Message.plainTo id m = false := by simp [Message.plainTo, Ne.symm hm]
      simp [ih, hf, Waitlist.of_push, hm]
  | @begins J R Q m h _ hfree ih =>
    cases hf : Message.plainTo id m with
    | false => simp [ih, hf]
    | true =>
      -- A plain message that begins when it comes finds none that waits.
      obtain ⟨hmid, hmc⟩ : m.id = id ∧ m.concurrent = false := by simpa [Message.plainTo] using hf
      have hq : Q.of id = [] := by
        apply Classical.byContradiction
        intro hq
        obtain ⟨n, hn, hnid⟩ := h.busy id hq
        rcases hfree with hfree | hfree
        · exact hfree n hn (hnid.trans hmid.symm)
        · simp [hmc] at hfree
      simp [ih, hf, hq]
  | @released J Q Q' A m B n h hp ih =>
    obtain ⟨hn, hc, -⟩ := h.waiting_pop? hp
    have hof := Waitlist.of_of_pop? hp id
    by_cases hm : id = m.id
    · have hf : Message.plainTo id n = true := by simp [Message.plainTo, hn, hm, hc]
      rw [if_pos hm] at hof
      simp [ih, hof, hf]
    · have hf : Message.plainTo id n = false := by simp [Message.plainTo, hn, Ne.symm hm]
      rw [if_neg hm] at hof
      simp [ih, hof, hf]

/-- A concurrent message begins when it comes. -/
theorem concurrent (h : History t J R Q) {id : String} (hid : t.answers id) :
    (J.of .came).filter (Message.concurrentTo id) =
      (J.of .began).filter (Message.concurrentTo id) := by
  induction h with
  | start => rfl
  | posted _ _ ih | fetched _ _ ih | ran _ _ _ ih | ends _ _ _ _ _ ih => simpa using ih
  | unanswered m _ hm ih =>
    have hne : m.id ≠ id := by
      rintro rfl
      exact hm hid
    have hf : Message.concurrentTo id m = false := by simp [Message.concurrentTo, hne]
    simpa [hf] using ih
  | waits m _ _ _ hc ih =>
    have hf : Message.concurrentTo id m = false := by simp [Message.concurrentTo, hc]
    simpa [hf] using ih
  | begins m _ _ _ ih => simp [ih, List.filter_cons]
  | released A m B n h hp ih =>
    obtain ⟨-, hc, -⟩ := h.waiting_pop? hp
    have hf : Message.concurrentTo id n = false := by simp [Message.concurrentTo, hc]
    simpa [hf] using ih

/-- Every message that came to a handler has begun or waits. -/
theorem countTo_came (h : History t J R Q) {id : String} (hid : t.answers id) :
    Message.countTo id (J.of .came) = Message.countTo id (J.of .began) + (Q.of id).length := by
  have hp := congrArg List.length (h.plain hid)
  have hc := congrArg List.length (h.concurrent hid)
  rw [List.length_append] at hp
  rw [Message.countTo_eq, Message.countTo_eq]
  omega

/-- What has begun is over or at work. -/
theorem running (h : History t J R Q) : (J.of .began).Perm (J.of .ended ++ R) := by
  induction h with
  | start => exact .nil
  | posted _ _ ih | fetched _ _ ih | unanswered _ _ _ ih | waits _ _ _ _ _ ih | ran _ _ _ ih =>
    simpa using ih
  | begins m _ _ _ ih => simpa using ih.append_right [m]
  | ends A m B _ _ ih =>
    have hm : (A ++ m :: B).Perm (m :: (A ++ B)) := List.perm_middle
    simpa using ih.trans (hm.append_left _)
  | @released J _ _ A m B n _ _ ih =>
    have hm : (A ++ m :: B).Perm (m :: (A ++ B)) := List.perm_middle
    simpa using (ih.trans (hm.append_left (J.of .ended))).append_right [n]

/-- A handler is run only while it is at work. -/
theorem always_ran (h : History t J R Q) : J.Always fun before o =>
    o.occasion = .ran → ∃ others, (before.of .began).Perm (before.of .ended ++ o.message :: others) := by
  induction h with
  | start => exact Journal.always_nil
  | posted _ _ ih | fetched _ _ ih | unanswered _ _ _ ih | waits _ _ _ _ _ ih | ends _ _ _ _ _ ih =>
    exact Journal.always_snoc.2 ⟨ih, by simp⟩
  | begins _ _ _ _ ih | released _ _ _ _ _ _ ih =>
    exact Journal.always_snoc.2 ⟨Journal.always_snoc.2 ⟨ih, by simp⟩, by simp⟩
  | ran m h hm ih =>
    obtain ⟨A, B, rfl⟩ := List.append_of_mem hm
    have hp : (A ++ m :: B).Perm (m :: (A ++ B)) := List.perm_middle
    exact Journal.always_snoc.2 ⟨ih, fun _ => ⟨A ++ B, h.running.trans (hp.append_left _)⟩⟩

end History
end StoryScript
