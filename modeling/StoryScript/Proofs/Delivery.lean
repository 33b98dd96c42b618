import Mathlib.Data.List.Basic
import StoryScript.Proofs.Journal

/-! The journal of a running story. Whatever messages are delivered and posted, and however the story
is paused and ticked, its journal is a history. -/
namespace StoryScript

/-! ### The journal of a story -/

def Instance.Arrival.occurrences (a : Instance.Arrival) : Journal :=
  match a.fate with
  | .lost => []
  | .unanswered | .waits => [⟨.came, a.message⟩]
  | .begins r => [⟨.came, a.message⟩] ++ [⟨.began, r.message⟩]

/-- What a turn leaves in the journal. A handler is run with the arguments of its moment. -/
def Turn.occurrences (t : Turn) : Journal :=
  [⟨.ran, { t.message with args := t.moment.args }⟩] ++
    (Instance.postsOf [t]).map (⟨.posted, ·⟩) ++
    (if t.ended then [⟨.ended, t.message⟩] else []) ++ t.next.toList.map (⟨.began, ·⟩)

namespace Instance

def Account.occurrences {ω : Type} (a : Account ω) : Journal :=
  (a.arrivals.flatMap fun x => ⟨.fetched, x.message⟩ :: x.occurrences) ++
    a.turns.flatMap Turn.occurrences

/-- What can be done with a running story. -/
inductive Operation (ω : Type) where
  | deliver (m : Message) (now : Int)
  | post (id : String) (args : List Value)
  | pause (paused : Bool)
  | tick (b : Beat) (steps : Nat) (w : ω)

variable {ω : Type} [World ω]

/-- Does something with a story, and tells what happened. -/
def perform (i : Instance) : Operation ω → Instance × Journal
  | .deliver m now => (i.deliver m now, Arrival.occurrences ⟨m, i.fate m⟩)
  | .post id args => (i.post ⟨id, args, false⟩, [⟨.posted, ⟨id, args, false⟩⟩])
  | .pause paused => ({ i with paused }, [])
  | .tick b steps w => ((i.account b steps w).inst, (i.account b steps w).occurrences)

/-- Does some things with a story, one after another, and tells what happened. -/
def run (i : Instance) : List (Operation ω) → Instance × Journal
  | [] => (i, [])
  | o :: ops =>
    let (i, J) := i.perform o
    let (i, K) := i.run ops
    (i, J ++ K)

def atWork (i : Instance) : List Message := i.runners.map (·.message)

/-- A story that came by a journal, unless it was terminated since. -/
def Keeps (i : Instance) (J : Journal) : Prop :=
  ∃ R Q posts, History i.template J R Q ∧ J.of .posted = J.of .fetched ++ posts ∧
    (i.terminated = false → R = i.atWork ∧ Q = i.queued ∧ posts = i.posted)

end Instance

/-! ### Arrivals -/

theorem Template.answers_of_activate? {t : Template} {m : Message} {r : Runner}
    (h : Instance.activate? t m = some r) : t.answers m.id ∧ r.message = m := by
  obtain ⟨block, hb, rfl⟩ := Option.map_eq_some_iff.1 h
  exact ⟨by simp [Template.answers, hb], rfl⟩

theorem Template.not_answers_of_activate? {t : Template} {m : Message}
    (h : Instance.activate? t m = none) : ¬ t.answers m.id := by
  have hn := Option.map_eq_none_iff.1 h
  simp [Template.answers, hn]

namespace Instance
open Journal

theorem isBusy_iff {i : Instance} {id : String} : i.isBusy id = true ↔ ∃ n ∈ i.atWork, n.id = id := by
  simp only [isBusy, atWork, List.any_eq_true, List.mem_map, decide_eq_true_eq]
  constructor
  · rintro ⟨r, hr, hid⟩
    exact ⟨r.message, ⟨r, hr, rfl⟩, hid⟩
  · rintro ⟨_, ⟨r, hr, rfl⟩, hid⟩
    exact ⟨r, hr, hid⟩

@[simp] theorem template_deliver (i : Instance) (m : Message) (now : Int) :
    (i.deliver m now).template = i.template := by
  unfold deliver
  cases i.fate m <;> rfl

@[simp] theorem terminated_deliver (i : Instance) (m : Message) (now : Int) :
    (i.deliver m now).terminated = i.terminated := by
  unfold deliver
  cases i.fate m <;> rfl

theorem history_deliver {i : Instance} (hi : i.terminated = false) {J : Journal}
    (h : History i.template J i.atWork i.queued) (m : Message) (now : Int) :
    History i.template (J ++ Arrival.occurrences ⟨m, i.fate m⟩) (i.deliver m now).atWork
      (i.deliver m now).queued := by
  unfold deliver fate
  rw [if_neg (by simp [hi])]
  split
  · next ha => exact h.unanswered m (Template.not_answers_of_activate? ha)
  · next r ha =>
    obtain ⟨hm, hr⟩ := Template.answers_of_activate? ha
    split
    · next hb =>
      obtain ⟨hb, hc⟩ : i.isBusy m.id = true ∧ m.concurrent = false := by simpa using hb
      exact h.waits m hm (isBusy_iff.1 hb) hc
    · next hb =>
      have hfree : (∀ n ∈ i.atWork, n.id ≠ m.id) ∨ m.concurrent = true := by
        cases hc : m.concurrent with
        | true => exact .inr rfl
        | false =>
          refine .inl fun n hn hid => hb ?_
          have : i.isBusy m.id = true := isBusy_iff.2 ⟨n, hn, hid⟩
          simp [this, hc]
      have hk := h.begins m hm hfree
      simpa [Arrival.occurrences, take, note, atWork, hr] using hk

@[simp] theorem messages_deliverAll (now : Int) (i : Instance) (ms : List Message) :
    (deliverAll now i ms).2.map (·.message) = ms := by
  induction ms generalizing i with
  | nil => rfl
  | cons m ms ih => simp [deliverAll, ih]

/-- What is left alone when messages are delivered. -/
theorem deliverAll_frame (now : Int) (i : Instance) (ms : List Message) :
    (deliverAll now i ms).1.template = i.template ∧
      (deliverAll now i ms).1.terminated = i.terminated := by
  induction ms generalizing i with
  | nil => exact ⟨rfl, rfl⟩
  | cons m ms ih => simpa [deliverAll] using ih (i.deliver m now)

theorem history_deliverAll {i : Instance} (hi : i.terminated = false) (now : Int)
    (ms : List Message) {J : Journal} (h : History i.template J i.atWork i.queued) :
    let r := deliverAll now i ms
    History i.template (J ++ r.2.flatMap fun x => ⟨.fetched, x.message⟩ :: x.occurrences)
      r.1.atWork r.1.queued := by
  induction ms generalizing i J with
  | nil => simpa [deliverAll] using h
  | cons m ms ih =>
    have hm := history_deliver hi (h.fetched m) m now
    have hms := ih (i := i.deliver m now) (by simpa using hi) (by simpa using hm)
    simpa [deliverAll] using hms

/-- No message is lost on a story that was not terminated. -/
theorem fate_deliverAll {i : Instance} (hi : i.terminated = false) (now : Int) (ms : List Message) :
    ∀ a ∈ (deliverAll now i ms).2, a.fate ≠ .lost := by
  induction ms generalizing i with
  | nil => simp [deliverAll]
  | cons m ms ih =>
    have hm : i.fate m ≠ .lost := by
      unfold fate
      rw [if_neg (by simp [hi])]
      split
      · simp
      · split <;> simp
    have hms := ih (i := i.deliver m now) (by simpa using hi)
    simpa [deliverAll] using ⟨hm, hms⟩

@[simp] theorem template_deliverPosted (i : Instance) (now : Int) :
    (i.deliverPosted now).1.template = i.template :=
  (deliverAll_frame now { i with posted := [] } i.posted).1

@[simp] theorem terminated_deliverPosted (i : Instance) (now : Int) :
    (i.deliverPosted now).1.terminated = i.terminated :=
  (deliverAll_frame now { i with posted := [] } i.posted).2

theorem history_deliverPosted {i : Instance} (hi : i.terminated = false) (now : Int) {J : Journal}
    (h : History i.template J i.atWork i.queued) :
    let d := i.deliverPosted now
    History i.template (J ++ d.2.flatMap fun x => ⟨.fetched, x.message⟩ :: x.occurrences)
      d.1.atWork d.1.queued :=
  history_deliverAll (i := { i with posted := [] }) hi now i.posted h

/-! ### Turns -/

variable {ω : Type} [World ω]

theorem history_posts {t : Template} {J : Journal} {R : List Message} {Q : Waitlist}
    (h : History t J R Q) (ms : List Message) : History t (J ++ ms.map (⟨.posted, ·⟩)) R Q := by
  induction ms generalizing J with
  | nil => simpa using h
  | cons m ms ih => simpa using ih (h.posted m)

/-- A release leads on to the first message that waits, if there is one. -/
theorem release_cases {t : Template} {J : Journal} {R : List Message} {Q : Waitlist}
    (h : History t J R Q) (id : String) :
    (release t Q id = (none, Q) ∧ Q.of id = []) ∨
      ∃ r Q', release t Q id = (some r, Q') ∧ Q.pop? id = some (r.message, Q') := by
  unfold release
  split
  · next n Q' hp =>
    obtain ⟨hn, -, ha⟩ := h.waiting_pop? hp
    obtain ⟨block, hb⟩ := Option.isSome_iff_exists.1 ha
    have hr : activate? t n = some ⟨n, .ofBlock block⟩ := by simp [activate?, hn, hb]
    exact .inr ⟨_, Q', by rw [hr], hp⟩
  · next hp => exact .inl ⟨rfl, Waitlist.pop?_eq_none hp⟩

theorem history_takeTurn {t : Template} {J : Journal} {A B : List Runner} {Q : Waitlist}
    {r : Runner} (h : History t J ((A ++ r :: B).map (·.message)) Q) (b : Beat) (steps : Nat)
    (s : Stage ω) :
    let shift := takeTurn t b steps Q s r
    History t (J ++ shift.turn.occurrences)
      ((A ++ shift.stays.toList ++ (B ++ shift.follows.toList)).map (·.message)) shift.queued := by
  intro shift
  have hran := history_posts (h.ran r.message (by simp)) (postsOf [shift.turn])
  have heta : ({ r.message with args := (b.moment r.message).args } : Message) = r.message := rfl
  simp only [shift, takeTurn, Turn.occurrences, heta] at hran ⊢
  generalize r.queue.tick (b.moment r.message) steps s = q at hran ⊢
  cases hended : q.queue.isEmpty with
  | false => simpa [hended] using hran
  | true =>
    simp only [List.map_append, List.map_cons] at hran
    rcases release_cases h r.message.id with ⟨hrel, hq⟩ | ⟨n, Q', hrel, hp⟩
    · have hend := hran.ends _ _ _ hq
      simpa [hended, hrel] using hend
    · have hnext := hran.released _ _ _ _ hp
      simpa [hended, hrel] using hnext

@[simp] theorem effects_cons (t : Turn) (ts : List Turn) :
    Turn.effects (t :: ts) = effectsOf t.events ++ Turn.effects ts := rfl

/-- The turns of a tick go on with a history. What is left is what the history tells, unless the
story was terminated. -/
theorem history_runAll (t : Template) (b : Beat) (steps : Nat) (seen : List Runner) (Q : Waitlist)
    (s : Stage ω) (todo : List Runner) {J : Journal}
    (h : History t J ((seen ++ todo).map (·.message)) Q) :
    let r := runAll t b steps seen Q s todo
    ∃ R Q', History t (J ++ r.turns.flatMap Turn.occurrences) R Q' ∧
      ((Turn.effects r.turns).any Effect.terminates = false →
        R = r.runners.map (·.message) ∧ Q' = r.queued) := by
  fun_induction runAll t b steps seen Q s todo generalizing J with
  | case1 => exact ⟨_, _, by simpa using h, fun _ => ⟨by simp, rfl⟩⟩
  | case2 steps seen Q s r todo hpaused ih => exact ih (by simpa using h)
  | case3 steps seen Q s r todo hpaused shift =>
    rename_i hends
    -- The turn that terminates the story is still told.
    refine ⟨_, _, by simpa using history_takeTurn h b steps s, fun hgoes => ?_⟩
    simp only [effects_cons, List.any_append, Bool.or_eq_false_iff] at hgoes
    exact absurd hends (by simpa [endsStory] using hgoes.1)
  | case4 steps seen Q s r todo hpaused shift hgoes =>
    rename_i ih
    obtain ⟨R, Q', hh, hleft⟩ := ih (history_takeTurn h b steps s)
    refine ⟨R, Q', by simpa [Round.after] using hh, fun hn => hleft ?_⟩
    simp only [Round.after, effects_cons, List.any_append, Bool.or_eq_false_iff] at hn
    exact hn.2

/-! ### Posts -/

@[simp] theorem of_arrival (a : Arrival) (o : Occasion) : Journal.of a.occurrences o =
    match o, a.fate with
    | .came, .lost => []
    | .came, _ => [a.message]
    | .began, .begins r => [r.message]
    | _, _ => [] := by
  obtain ⟨m, f⟩ := a
  cases f <;> cases o <;> rfl

@[simp] theorem of_turn (t : Turn) (o : Occasion) : Journal.of t.occurrences o =
    match o with
    | .ran => [{ t.message with args := t.moment.args }]
    | .posted => postsOf [t]
    | .ended => if t.ended then [t.message] else []
    | .began => t.next.toList
    | .fetched | .came => [] := by
  cases ho : t.ended <;> cases o <;> simp [Turn.occurrences, ho]

/-- A tick fetches the messages that come in it. -/
theorem fetched_of_account {ω : Type} (a : Account ω) :
    Journal.of a.occurrences .fetched = a.arrivals.map (·.message) := by
  have ht : (a.turns.flatMap fun t => Journal.of t.occurrences .fetched) = [] :=
    List.flatMap_eq_nil_iff.2 fun t _ => of_turn t .fetched
  rw [Account.occurrences, of_append, of_flatMap, of_flatMap, ht, List.map_eq_flatMap]
  simp

/-- A tick posts what its turns post. -/
theorem posted_of_account {ω : Type} (a : Account ω) :
    Journal.of a.occurrences .posted = postsOf a.turns := by
  have ha : (a.arrivals.flatMap fun x =>
      Journal.of (⟨.fetched, x.message⟩ :: x.occurrences) .posted) = [] :=
    List.flatMap_eq_nil_iff.2 fun x _ => by simp
  have ht : (a.turns.flatMap fun t => postsOf [t]) = postsOf a.turns := by
    induction a.turns with
    | nil => rfl
    | cons t ts ih => simpa [postsOf, Turn.effects] using ih
  rw [Account.occurrences, of_append, of_flatMap, of_flatMap, ha]
  simpa using ht

/-- What is fetched in a tick comes, and nothing else does. -/
theorem came_of_account (i : Instance) (b : Beat) (steps : Nat) (w : ω) :
    Journal.of (i.account b steps w).occurrences .came =
      (i.account b steps w).arrivals.map (·.message) := by
  have hcame : ∀ a ∈ (i.account b steps w).arrivals,
      Journal.of (⟨.fetched, a.message⟩ :: a.occurrences) .came = [a.message] := by
    intro a ha
    have hlost : a.fate ≠ .lost := by
      simp only [account] at ha
      split at ha
      · simp at ha
      · next hidle =>
        obtain ⟨hlive, -⟩ : i.terminated = false ∧ i.paused = false := by simpa using hidle
        exact fate_deliverAll (i := { i with posted := [] }) hlive b.now i.posted a ha
    obtain ⟨m, f⟩ := a
    cases f <;> first | exact absurd rfl hlost | simp
  have ht : ((i.account b steps w).turns.flatMap fun t => Journal.of t.occurrences .came) = [] :=
    List.flatMap_eq_nil_iff.2 fun t _ => of_turn t .came
  rw [Account.occurrences, of_append, of_flatMap, of_flatMap, ht, List.append_nil,
    List.map_eq_flatMap]
  exact List.flatMap_congr hcame

/-- A tick fetches what was posted before, unless the story was terminated or is paused. -/
theorem arrivals_account (i : Instance) (b : Beat) (steps : Nat) (w : ω) :
    (i.account b steps w).arrivals.map (·.message) =
      if i.terminated || i.paused then [] else i.posted := by
  unfold account
  split
  · rfl
  · simp [deliverPosted]

/-! ### Runs -/

theorem keeps_new (n : Nat) (t : Template) : ({ id := n, template := t } : Instance).Keeps [] :=
  ⟨[], ∅, [], .start, rfl, fun _ => ⟨rfl, rfl, rfl⟩⟩

@[simp] theorem template_settle {ω : Type} (i : Instance) (r : Round ω) :
    (i.settle r).template = i.template := by
  unfold settle
  split <;> rfl

@[simp] theorem runners_settle {ω : Type} (i : Instance) (r : Round ω) :
    (i.settle r).runners = r.runners := by
  unfold settle
  split <;> rfl

@[simp] theorem scope_settle {ω : Type} (i : Instance) (r : Round ω) :
    (i.settle r).scope = r.stage.scope := by
  unfold settle
  split <;> rfl

theorem terminated_settle {ω : Type} (i : Instance) (r : Round ω) (h : i.terminated = false) :
    (i.settle r).terminated = (Turn.effects r.turns).any Effect.terminates := by
  unfold settle
  split
  · next ht => exact ht.symm
  · next ht => simpa [h] using ht

/-- What a story is left with that was not terminated. -/
theorem settle_of_live {ω : Type} (i : Instance) (r : Round ω)
    (h : (Turn.effects r.turns).any Effect.terminates = false) :
    (i.settle r).atWork = r.runners.map (·.message) ∧ (i.settle r).queued = r.queued ∧
      (i.settle r).posted = postsOf r.turns := by
  unfold settle
  rw [if_neg (by simp [h])]
  exact ⟨rfl, rfl, rfl⟩

theorem keeps_account {i : Instance} {J : Journal} (h : i.Keeps J) (b : Beat) (steps : Nat) (w : ω) :
    (i.account b steps w).inst.Keeps (J ++ (i.account b steps w).occurrences) := by
  obtain ⟨R, Q, posts, hJ, hposts, hleft⟩ := h
  by_cases hidle : (i.terminated || i.paused) = true
  · have ha : i.account b steps w = ⟨i, w, [], []⟩ := by rw [account, if_pos hidle]
    rw [ha]
    exact ⟨R, Q, posts, by simpa [Account.occurrences] using hJ,
      by simpa [Account.occurrences] using hposts, hleft⟩
  obtain ⟨hlive, -⟩ : i.terminated = false ∧ i.paused = false := by simpa using hidle
  obtain ⟨rfl, rfl, rfl⟩ := hleft hlive
  have hfetched := fetched_of_account (i.account b steps w)
  rw [arrivals_account, if_neg hidle] at hfetched
  have hposted := posted_of_account (i.account b steps w)
  have htemplate := template_deliverPosted i b.now
  have hterminated := (terminated_deliverPosted i b.now).trans hlive
  have hcame := history_deliverPosted hlive b.now hJ
  rw [account, if_neg hidle] at hfetched hposted ⊢
  generalize i.deliverPosted b.now = d at hfetched hposted htemplate hterminated hcame ⊢
  rw [← htemplate] at hcame
  obtain ⟨R, Q, hran, hleft⟩ := history_runAll d.1.template b steps [] d.1.queued ⟨d.1.scope, w⟩
    d.1.runners hcame
  dsimp only at hfetched hposted hran hleft ⊢
  generalize runAll d.1.template b steps [] d.1.queued ⟨d.1.scope, w⟩ d.1.runners = r at *
  refine ⟨R, Q, postsOf r.turns, ?_, ?_, fun hgoes => ?_⟩
  · simpa [Account.occurrences] using hran
  · rw [of_append, of_append, hposts, hfetched, hposted]
  · rw [terminated_settle _ _ hterminated] at hgoes
    obtain ⟨hR, hQ, hP⟩ := settle_of_live d.1 r hgoes
    obtain ⟨rfl, rfl⟩ := hleft hgoes
    exact ⟨hR.symm, hQ.symm, hP.symm⟩

theorem keeps_perform {i : Instance} {J : Journal} (h : i.Keeps J) (o : Operation ω) :
    (i.perform o).1.Keeps (J ++ (i.perform o).2) := by
  cases o with
  | tick b steps w => exact keeps_account h b steps w
  | pause paused =>
    obtain ⟨R, Q, posts, hJ, hposts, hleft⟩ := h
    exact ⟨R, Q, posts, by simpa [perform] using hJ, by simpa [perform] using hposts, hleft⟩
  | post id args =>
    obtain ⟨R, Q, posts, hJ, hposts, hleft⟩ := h
    refine ⟨R, Q, posts ++ [⟨id, args, false⟩], hJ.posted _, by simp [perform, hposts], fun hlive => ?_⟩
    obtain ⟨rfl, rfl, rfl⟩ := hleft hlive
    exact ⟨rfl, rfl, rfl⟩
  | deliver m now =>
    obtain ⟨R, Q, posts, hJ, hposts, hleft⟩ := h
    cases hlive : i.terminated with
    | true =>
      have hfate : i.fate m = .lost := by simp [fate, hlive]
      exact ⟨R, Q, posts, by simpa [perform, hfate, Arrival.occurrences] using hJ,
        by simpa [perform] using hposts, by simp [perform, hlive]⟩
    | false =>
      obtain ⟨rfl, rfl, rfl⟩ := hleft hlive
      refine ⟨_, _, i.posted, ?_, by simpa [perform] using hposts, fun _ => ⟨rfl, rfl, ?_⟩⟩
      · simpa [perform] using history_deliver hlive hJ m now
      · simp only [perform, deliver]
        cases i.fate m <;> rfl

theorem keeps_run {i : Instance} {J : Journal} (h : i.Keeps J) (ops : List (Operation ω)) :
    (i.run ops).1.Keeps (J ++ (i.run ops).2) := by
  induction ops generalizing i J with
  | nil => simpa [run] using h
  | cons o ops ih => simpa [run] using ih (keeps_perform h o)

@[simp] theorem template_perform (i : Instance) (o : Operation ω) :
    (i.perform o).1.template = i.template := by
  cases o with
  | deliver m now => exact template_deliver i m now
  | post id args => rfl
  | pause paused => rfl
  | tick b steps w =>
    simp only [perform, account]
    split
    · rfl
    · rw [template_settle]
      exact template_deliverPosted i b.now

@[simp] theorem template_run (i : Instance) (ops : List (Operation ω)) :
    (i.run ops).1.template = i.template := by
  induction ops generalizing i with
  | nil => rfl
  | cons o ops ih => exact (ih (i.perform o).1).trans (template_perform i o)

end Instance
end StoryScript
