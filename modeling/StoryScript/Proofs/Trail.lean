import StoryScript.Proofs.Nesting

/-! The traces of a block, command by command. A command is known by its address in the block, and
every event of a trace is ascribed to the command that it concerns, whether that is a command of the
block or a copy of one in a round of a repetition. What a command goes through is then what is
ascribed to it: it begins, it is run while it stays pending, and it is run until it is over. -/
namespace StoryScript

/-! ### Addresses -/

/-- The address of a command: which command of which round it is, then which command of which round
the repetition around it is, and so on outwards. Rounds are counted from one; the block itself
counts as round zero. -/
abbrev Address := List (Nat × Nat)

/-- The commands that are repeated by the command at an address; at the empty one, the block. -/
def blockAt (cs : List Command) : Address → List Command
  | [] => cs
  | (_, k) :: a =>
    match (blockAt cs a)[k]? with
    | some (.repeat _ body) => body
    | _ => []

def commandAt? (cs : List Command) : Address → Option Command
  | [] => none
  | (_, k) :: a => (blockAt cs a)[k]?

theorem blockAt_of_repeat {cs : List Command} {a : Address} {range : Range Operand}
    {body : List Command} (h : commandAt? cs a = some (.repeat range body)) :
    blockAt cs a = body := by
  cases a with
  | nil => cases h
  | cons p a =>
    simp only [commandAt?] at h
    simp only [blockAt, h]

/-- Whether one place comes before another: in an earlier round, or earlier in the same round. -/
def Earlier (p q : Nat × Nat) : Prop := p.1 < q.1 ∨ p.1 = q.1 ∧ p.2 < q.2

/-- An address lies behind another if it is inside of an earlier place of the same block. -/
def Behind (a b : Address) : Prop := ∃ p q s, (p :: s) <:+ a ∧ (q :: s) <:+ b ∧ Earlier p q

namespace Behind
variable {a b : Address} {p q : Nat × Nat}

theorem here (h : Earlier p q) : Behind (p :: a) (q :: a) :=
  ⟨p, q, a, List.suffix_rfl, List.suffix_rfl, h⟩

theorem further (h : Behind a b) (q : Nat × Nat) : Behind a (q :: b) := by
  obtain ⟨p, q', s, hp, hq, hlt⟩ := h
  exact ⟨p, q', s, hp, hq.trans (List.suffix_cons q b), hlt⟩

theorem later (h : Behind a (p :: b)) (hlt : Earlier p q) : Behind a (q :: b) := by
  obtain ⟨p', q', s, hp, hq, hlt'⟩ := h
  rcases List.suffix_cons_iff.1 hq with heq | hq
  · obtain ⟨rfl, rfl⟩ := List.cons_eq_cons.1 heq
    exact ⟨p', q, s, hp, List.suffix_rfl, by grind [Earlier]⟩
  · exact ⟨p', q', s, hp, hq.trans (List.suffix_cons q b), hlt'⟩

/-- What lies behind a place inside of a command lies behind whatever comes after that command. -/
theorem outward {x : Nat × Nat} (h : Behind a (x :: p :: b)) (hlt : Earlier p q) :
    Behind a (q :: b) := by
  obtain ⟨p', q', s, hp, hq, hlt'⟩ := h
  rcases List.suffix_cons_iff.1 hq with heq | hq
  · obtain ⟨rfl, rfl⟩ := List.cons_eq_cons.1 heq
    exact ⟨p, q, b, (List.suffix_cons p' _).trans hp, List.suffix_rfl, hlt⟩
  · exact later ⟨p', q', s, hp, hq, hlt'⟩ hlt

theorem irrefl (a : Address) : ¬Behind a a := by
  rintro ⟨p, q, s, hp, hq, hlt⟩
  have heq : p :: s = q :: s := by
    rcases List.suffix_or_suffix_of_suffix hp hq with h | h
    · exact h.eq_of_length rfl
    · exact (h.eq_of_length rfl).symm
  obtain ⟨rfl, -⟩ := List.cons_eq_cons.1 heq
  grind [Earlier]

end Behind

/-! ### Ascribing events -/

/-- Where in a block the events of a trace have led: the round in which they stand and how many of
its commands are over, the command around that round, and the places to which the commands have come
that are under way and were not entered in this tick, from the outermost on. -/
structure Trail where
  place : Nat × Nat
  around : Address
  ahead : List (Nat × Nat)

/-- An event, and the address of the command that it concerns. -/
abbrev Entry := Address × Event

namespace Trail

/-- Before anything has begun in a block. -/
def start : Trail := ⟨(0, 0), [], []⟩

/-- The address of the command that an event concerns, and where the event leads. A command is the
next one of its round when it begins; the others have to be over. -/
def step? : Trail → Event → Option (Address × Trail)
  | z, .effect _ => some (z.around, z)
  | ⟨p, a, []⟩, .began _ => some (p :: a, ⟨p, a, [(0, 0)]⟩)
  | ⟨p, a, q :: r⟩, .entered => some (p :: a, ⟨q, p :: a, r⟩)
  | ⟨(n, _), q :: a, []⟩, .round _ => some (q :: a, ⟨(n + 1, 0), q :: a, []⟩)
  | ⟨p, q :: a, r⟩, .left true => some (q :: a, ⟨q, a, p :: r⟩)
  | ⟨_, (n, k) :: a, []⟩, .left false => some ((n, k) :: a, ⟨(n, k + 1), a, []⟩)
  | _, _ => none

/-- Ascribes the events of a tick. -/
def ascribe? (z : Trail) : List Event → Option (List Entry × Trail)
  | [] => some ([], z)
  | e :: es => do
    let (a, z) ← z.step? e
    let (log, z) ← ascribe? z es
    return ((a, e) :: log, z)

/-- Ascribes the events of several ticks. -/
def ascribeAll? (z : Trail) : List (List Event) → Option (List (List Entry) × Trail)
  | [] => some ([], z)
  | es :: ticks => do
    let (log, z) ← z.ascribe? es
    let (logs, z) ← ascribeAll? z ticks
    return (log :: logs, z)

/-- The place to which the innermost command under way has come, inside of all that are. -/
def frontier (z : Trail) : Address := z.ahead.reverse ++ z.place :: z.around

end Trail

/-! ### What commands go through -/

/-- Whether an event is something that is done with a single command. -/
def Event.isTouch : Event → Bool
  | began _ | entered | left _ => true
  | effect _ | round _ => false

def Event.isRound : Event → Bool
  | round _ => true
  | _ => false

/-- What was done with the command at an address. -/
def touches (a : Address) (log : List Entry) : List Event :=
  (log.filter fun x => x.1 = a && x.2.isTouch).map (·.2)

/-- How many rounds the command at an address has begun. -/
def roundsOf (a : Address) (log : List Entry) : Nat := log.countP fun x => x.1 = a && x.2.isRound

section
variable (a b : Address) (e : Event) (log log' : List Entry)

@[simp] theorem touches_append : touches a (log ++ log') = touches a log ++ touches a log' := by
  simp [touches]

@[simp] theorem touches_singleton :
    touches a [(b, e)] = if b = a ∧ e.isTouch = true then [e] else [] := by
  by_cases h : b = a ∧ e.isTouch = true <;> simp [touches, h]

@[simp] theorem roundsOf_nil : roundsOf a [] = 0 := rfl

@[simp] theorem roundsOf_append : roundsOf a (log ++ log') = roundsOf a log + roundsOf a log' :=
  List.countP_append

@[simp] theorem roundsOf_singleton :
    roundsOf a [(b, e)] = if b = a ∧ e.isRound = true then 1 else 0 := by
  by_cases h : b = a ∧ e.isRound = true <;> simp [roundsOf, h]

end

/-- The runs of a command that stays pending. -/
def pendingRuns (n : Nat) : List Event := (List.replicate n [.entered, .left true]).flatten

theorem pendingRuns_succ (n : Nat) :
    pendingRuns (n + 1) = pendingRuns n ++ [.entered, .left true] := by
  simp [pendingRuns, List.replicate_succ']

theorem eq_of_mem_pendingRuns {n : Nat} {e : Event} (h : e ∈ pendingRuns n) :
    e = .entered ∨ e = .left true := by
  simp only [pendingRuns, List.mem_flatten, List.mem_replicate] at h
  obtain ⟨l, ⟨-, rfl⟩, he⟩ := h
  simpa using he

/-- All that a command goes through which is pending in some runs: it begins, is run so many times,
and is over with the run after these. -/
def life (c : Command) (n : Nat) : List Event :=
  .began c :: pendingRuns n ++ [.entered, .left false]

def Event.enters : Event → Bool
  | entered => true
  | _ => false

/-- Whether a command is left that stays pending. -/
def Event.leavesPending : Event → Bool
  | left pending => pending
  | _ => false

theorem entered_of_runs {n : Nat} {es : List Event}
    (h : es <+: pendingRuns n ++ [.entered, .left false]) :
    es.countP Event.leavesPending ≤ es.countP Event.enters ∧
      es.countP Event.enters ≤ es.countP Event.leavesPending + 1 := by
  induction n generalizing es with
  | zero =>
    simp only [pendingRuns, List.replicate_zero, List.flatten_nil, List.nil_append,
      List.prefix_cons_iff, List.prefix_nil] at h
    obtain rfl | ⟨t, rfl, rfl | ⟨t', rfl, rfl⟩⟩ := h <;>
      simp [List.countP_cons, Event.enters, Event.leavesPending]
  | succ n ih =>
    have hsucc : pendingRuns (n + 1) = .entered :: .left true :: pendingRuns n := by
      simp [pendingRuns, List.replicate_succ]
    simp only [hsucc, List.cons_append, List.prefix_cons_iff] at h
    obtain rfl | ⟨t, rfl, rfl | ⟨t', rfl, h⟩⟩ := h
    · simp
    · simp [List.countP_cons, Event.enters, Event.leavesPending]
    · simpa [List.countP_cons, Event.enters, Event.leavesPending] using ih h

/-- At any time of its life a command has been entered as often as it was left pending, or once
more. -/
theorem entered_of_life {c : Command} {n : Nat} {es : List Event} (h : es <+: life c n) :
    es.countP Event.leavesPending ≤ es.countP Event.enters ∧
      es.countP Event.enters ≤ es.countP Event.leavesPending + 1 := by
  simp only [life, List.cons_append, List.prefix_cons_iff] at h
  obtain rfl | ⟨t, rfl, h⟩ := h
  · simp
  · simpa [List.countP_cons, Event.enters, Event.leavesPending] using entered_of_runs h

/-- What must have come before an entry. A command begins when those before it in its round are
over, and a repetition goes on to another round, or is over, when all commands of its last round are. -/
def Due (cs : List Command) (before : List Entry) : Entry → Prop
  | ((n, k) :: a, .began _) =>
    n = roundsOf a before ∧ ∀ i < k, ((n, i) :: a, .left false) ∈ before
  | (a, .round _) | (a, .left false) =>
    0 < roundsOf a before →
      ∀ i < (blockAt cs a).length, ((roundsOf a before, i) :: a, .left false) ∈ before
  | _ => True

/-- A statement about every element of a list and what comes before it. -/
def Throughout {α : Type} (P : List α → α → Prop) (l : List α) : Prop :=
  ∀ before x after, l = before ++ x :: after → P before x

theorem throughout_nil {α : Type} (P : List α → α → Prop) : Throughout P [] := by
  simp [Throughout]

theorem Throughout.snoc {α : Type} {P : List α → α → Prop} {l : List α} {x : α}
    (h : Throughout P l) (hx : P l x) : Throughout P (l ++ [x]) := by
  intro before y after heq
  rcases List.eq_nil_or_concat after with rfl | ⟨after, z, rfl⟩
  · obtain ⟨rfl, hxy⟩ := List.append_inj' heq rfl
    obtain rfl : x = y := by simpa using hxy
    exact hx
  · have heq' : l ++ [x] = (before ++ y :: after) ++ [z] := by simpa using heq
    obtain ⟨rfl, -⟩ := List.append_inj' heq' rfl
    exact h before y after rfl

/-! ### What a trail knows -/

/-- The addresses around a place, those of the commands under way if that is the frontier. -/
def Around (a b : Address) : Prop := a ≠ [] ∧ a <:+ b ∧ a ≠ b

theorem around_cons {a b : Address} {p : Nat × Nat} : Around a (p :: b) ↔ a ≠ [] ∧ a <:+ b := by
  constructor
  · rintro ⟨hne, hsuffix, hdiff⟩
    exact ⟨hne, (List.suffix_cons_iff.1 hsuffix).resolve_left hdiff⟩
  · rintro ⟨hne, hsuffix⟩
    refine ⟨hne, hsuffix.trans (List.suffix_cons p b), ?_⟩
    rintro rfl
    exact Nat.not_succ_le_self _ hsuffix.length_le

namespace Trail

/-- What an event must find where the events before it have led. -/
def Allows (cs : List Command) (z : Trail) : Event → Prop
  | .began c => commandAt? cs (z.place :: z.around) = some c
  | .round _ | .left false => z.place.1 = 0 ∨ z.place.2 = (blockAt cs z.around).length
  | _ => True

/-- What holds of all events so far, given where they have led. The commands under way are those
around the frontier, and only those inside of which the trail stands have been entered. Any other
command has not begun, or lies behind the frontier and is over. -/
structure Tells (cs : List Command) (log : List Entry) (z : Trail) : Prop where
  underWay : ∀ a, Around a z.frontier → ∃ c n, commandAt? cs a = some c ∧
    touches a log = .began c :: pendingRuns n ++
      if a.length ≤ z.around.length then [.entered] else []
  others : ∀ a, ¬Around a z.frontier → touches a log = [] ∨
    Behind a z.frontier ∧ ∃ c n, commandAt? cs a = some c ∧ touches a log = life c n
  rounds : ∀ a ≠ [], touches a log = [] → roundsOf a log = 0
  past : ∀ n k a, ((n, k) :: a) <:+ z.frontier →
    n = roundsOf a log ∧ ∀ i < k, ((n, i) :: a, .left false) ∈ log
  due : Throughout (Due cs) log

variable {cs : List Command} {log : List Entry}
variable {p q : Nat × Nat} {a : Address} {r : List (Nat × Nat)}

theorem tells_start (cs : List Command) : Tells cs [] start where
  underWay a h := by
    obtain ⟨hne, hsuffix⟩ := around_cons.1 h
    exact (hne (List.suffix_nil.1 hsuffix)).elim
  others _ _ := .inl rfl
  rounds _ _ _ := rfl
  past n k a h := by
    rcases List.suffix_cons_iff.1 h with heq | h
    · cases heq
      simp
    · cases List.suffix_nil.1 h
  due := throughout_nil _

namespace Tells

theorem effect {z : Trail} (h : Tells cs log z) (e : Effect) :
    Tells cs (log ++ [(z.around, .effect e)]) z where
  underWay a ha := by simpa [Event.isTouch] using h.underWay a ha
  others a ha := by simpa [Event.isTouch] using h.others a ha
  rounds a hne := by simpa [Event.isTouch, Event.isRound] using h.rounds a hne
  past n k a ha := by
    obtain ⟨hn, hover⟩ := h.past n k a ha
    simpa [Event.isRound] using ⟨hn, hover⟩
  due := h.due.snoc (by simp [Due])

theorem began {c : Command} (h : Tells cs log ⟨p, a, []⟩) (hc : commandAt? cs (p :: a) = some c) :
    Tells cs (log ++ [(p :: a, .began c)]) ⟨p, a, [(0, 0)]⟩ := by
  have hnew : touches (p :: a) log = [] := by
    refine (h.others (p :: a) ?_).resolve_right fun hold => Behind.irrefl _ hold.1
    exact fun ⟨_, _, hne⟩ => hne rfl
  refine ⟨fun b hb => ?_, fun b hb => ?_, fun b hne hb => ?_, fun n k b hb => ?_, ?_⟩
  · obtain ⟨hne, hsuffix⟩ := around_cons.1 hb
    rcases List.suffix_cons_iff.1 hsuffix with rfl | hsuffix
    · exact ⟨c, 0, hc, by simp [hnew, Event.isTouch, pendingRuns]⟩
    · obtain ⟨c', n, hc', htouches⟩ := h.underWay b (around_cons.2 ⟨hne, hsuffix⟩)
      have hdiff : p :: a ≠ b := by
        rintro rfl
        exact Nat.not_succ_le_self _ hsuffix.length_le
      exact ⟨c', n, hc', by simpa [hdiff] using htouches⟩
  · have hdiff : p :: a ≠ b := by
      rintro rfl
      exact hb (around_cons.2 ⟨by simp, List.suffix_rfl⟩)
    have hold : ¬Around b (p :: a) := fun hold => hb (around_cons.2 ⟨hold.1, hold.2.1⟩)
    rcases h.others b hold with hnone | ⟨hbehind, c', n, hc', hlife⟩
    · exact .inl (by simpa [hdiff] using hnone)
    · exact .inr ⟨hbehind.further _, c', n, hc', by simpa [hdiff] using hlife⟩
  · simp only [touches_append, List.append_eq_nil_iff] at hb
    simpa [Event.isRound] using h.rounds b hne hb.1
  · rcases List.suffix_cons_iff.1 hb with heq | hb
    · obtain ⟨hp, rfl⟩ := List.cons_eq_cons.1 heq
      cases hp
      simp [Event.isRound, h.rounds (p :: a) (by simp) hnew]
    · simpa [Event.isRound] using h.past n k b hb
  · exact h.due.snoc (h.past p.1 p.2 a List.suffix_rfl)

/-- An event that moves the trail past one of the commands under way, but not the frontier. -/
theorem moved {z z' : Trail} {e : Event} (h : Tells cs log z) (hfrontier : z'.frontier = z.frontier)
    (hin : Around a z.frontier) (he : e.isRound = false) (hdue : Due cs log (a, e))
    (hlength : ∀ k ≠ a.length, k ≤ z'.around.length ↔ k ≤ z.around.length)
    (hhere : ∃ c n, commandAt? cs a = some c ∧ touches a (log ++ [(a, e)]) =
      .began c :: pendingRuns n ++ if a.length ≤ z'.around.length then [.entered] else []) :
    Tells cs (log ++ [(a, e)]) z' := by
  refine ⟨fun b hb => ?_, fun b hb => ?_, fun b hne hb => ?_, fun n k b hb => ?_, h.due.snoc hdue⟩
  · rw [hfrontier] at hb
    by_cases hdiff : a = b
    · exact hdiff ▸ hhere
    · obtain ⟨c, n, hc, htouches⟩ := h.underWay b hb
      have hother : b.length ≠ a.length := fun hsame => hdiff <|
        (List.suffix_of_suffix_length_le hin.2.1 hb.2.1 (Nat.le_of_eq hsame.symm)).eq_of_length
          hsame.symm
      exact ⟨c, n, hc, by simpa [hdiff, hlength _ hother] using htouches⟩
  · rw [hfrontier] at hb ⊢
    have hdiff : a ≠ b := by
      rintro rfl
      exact hb hin
    simpa [hdiff] using h.others b hb
  · simp only [touches_append, List.append_eq_nil_iff] at hb
    simpa [he] using h.rounds b hne hb.1
  · rw [hfrontier] at hb
    obtain ⟨hn, hover⟩ := h.past n k b hb
    exact ⟨by simpa [he] using hn, fun i hi => List.mem_append_left _ (hover i hi)⟩

theorem entered (h : Tells cs log ⟨p, a, q :: r⟩) :
    Tells cs (log ++ [(p :: a, .entered)]) ⟨q, p :: a, r⟩ := by
  have hin : Around (p :: a) (frontier ⟨p, a, q :: r⟩) := by
    refine ⟨by simp, List.suffix_append _ _, fun heq => ?_⟩
    have hlength := congrArg List.length heq
    simp only [frontier, List.length_append, List.length_reverse, List.length_cons] at hlength
    omega
  obtain ⟨c, n, hc, hhere⟩ := h.underWay _ hin
  refine h.moved (by simp [frontier]) hin rfl (by simp [Due]) (fun k hk => ?_) ⟨c, n, hc, ?_⟩
  · simp only [List.length_cons] at hk ⊢
    omega
  · simp [hhere, Event.isTouch]

theorem leftPending (h : Tells cs log ⟨p, q :: a, r⟩) :
    Tells cs (log ++ [(q :: a, .left true)]) ⟨q, a, p :: r⟩ := by
  have hin : Around (q :: a) (frontier ⟨p, q :: a, r⟩) := by
    refine ⟨by simp, (List.suffix_cons p _).trans (List.suffix_append _ _), fun heq => ?_⟩
    have hlength := congrArg List.length heq
    simp only [frontier, List.length_append, List.length_reverse, List.length_cons] at hlength
    omega
  obtain ⟨c, n, hc, hhere⟩ := h.underWay _ hin
  refine h.moved (by simp [frontier]) hin rfl (by simp [Due]) (fun k hk => ?_) ⟨c, n + 1, hc, ?_⟩
  · simp only [List.length_cons] at hk ⊢
    omega
  · simp [hhere, Event.isTouch, pendingRuns_succ]

/-- All commands of a round are over at its end. -/
theorem all_over (h : Tells cs log ⟨p, q :: a, []⟩)
    (hover : p.1 = 0 ∨ p.2 = (blockAt cs (q :: a)).length) (hpos : 0 < roundsOf (q :: a) log) :
    ∀ i < (blockAt cs (q :: a)).length,
      ((roundsOf (q :: a) log, i) :: q :: a, .left false) ∈ log := by
  obtain ⟨hround, hbefore⟩ := h.past p.1 p.2 (q :: a) List.suffix_rfl
  rw [← hround] at hpos ⊢
  rw [← hover.resolve_left (Nat.ne_of_gt hpos)]
  exact hbefore

theorem round {n k : Nat} (v : Value) (h : Tells cs log ⟨(n, k), q :: a, []⟩)
    (hover : n = 0 ∨ k = (blockAt cs (q :: a)).length) :
    Tells cs (log ++ [(q :: a, .round v)]) ⟨(n + 1, 0), q :: a, []⟩ := by
  have hbegan : touches (q :: a) log ≠ [] := by
    obtain ⟨c, m, -, hhere⟩ := h.underWay (q :: a) (around_cons.2 ⟨by simp, List.suffix_rfl⟩)
    simp [hhere]
  refine ⟨fun b hb => ?_, fun b hb => ?_, fun b hne hb => ?_, fun n' k' b hb => ?_, ?_⟩
  · simpa [Event.isTouch] using h.underWay b (around_cons.2 (around_cons.1 hb))
  · have hold : ¬Around b ((n, k) :: q :: a) := fun hold => hb (around_cons.2 (around_cons.1 hold))
    rcases h.others b hold with hnone | ⟨hbehind, hlife⟩
    · exact .inl (by simpa [Event.isTouch] using hnone)
    · exact .inr ⟨hbehind.later (.inl (Nat.lt_succ_self n)), by simpa [Event.isTouch] using hlife⟩
  · simp only [touches_append, List.append_eq_nil_iff] at hb
    have hdiff : q :: a ≠ b := by
      rintro rfl
      exact hbegan hb.1
    simpa [hdiff] using h.rounds b hne hb.1
  · rcases List.suffix_cons_iff.1 hb with heq | hb
    · obtain ⟨hp, rfl⟩ := List.cons_eq_cons.1 heq
      cases hp
      simpa [Event.isRound] using (h.past n k (q :: a) List.suffix_rfl).1
    · obtain ⟨hn, hbefore⟩ := h.past n' k' b (hb.trans (List.suffix_cons _ _))
      have hdiff : q :: a ≠ b := by
        rintro rfl
        exact Nat.not_succ_le_self _ hb.length_le
      exact ⟨by simpa [hdiff] using hn, fun i hi => List.mem_append_left _ (hbefore i hi)⟩
  · exact h.due.snoc (h.all_over hover)

theorem leftOver {n k : Nat} (h : Tells cs log ⟨p, (n, k) :: a, []⟩)
    (hover : p.1 = 0 ∨ p.2 = (blockAt cs ((n, k) :: a)).length) :
    Tells cs (log ++ [((n, k) :: a, .left false)]) ⟨(n, k + 1), a, []⟩ := by
  obtain ⟨c, m, hc, hhere⟩ := h.underWay ((n, k) :: a) (around_cons.2 ⟨by simp, List.suffix_rfl⟩)
  have hnext : Earlier (n, k) (n, k + 1) := .inr ⟨rfl, Nat.lt_succ_self k⟩
  refine ⟨fun b hb => ?_, fun b hb => ?_, fun b hne hb => ?_, fun n' k' b hb => ?_, ?_⟩
  · obtain ⟨hne, hsuffix⟩ := around_cons.1 hb
    obtain ⟨c', m', hc', htouches⟩ :=
      h.underWay b (around_cons.2 ⟨hne, hsuffix.trans (List.suffix_cons _ _)⟩)
    have hdiff : (n, k) :: a ≠ b := by
      rintro rfl
      exact Nat.not_succ_le_self _ hsuffix.length_le
    have hlength := hsuffix.length_le
    exact ⟨c', m', hc', by simpa [hdiff, hlength, Nat.le_succ_of_le hlength] using htouches⟩
  · by_cases hdiff : (n, k) :: a = b
    · subst hdiff
      exact .inr ⟨.here hnext, c, m, hc, by simp [hhere, Event.isTouch, life]⟩
    · have hold : ¬Around b (p :: (n, k) :: a) := by
        intro hold
        obtain ⟨hne, hsuffix⟩ := around_cons.1 hold
        have hin := (List.suffix_cons_iff.1 hsuffix).resolve_left (Ne.symm hdiff)
        exact hb (around_cons.2 ⟨hne, hin⟩)
      rcases h.others b hold with hnone | ⟨hbehind, hlife⟩
      · exact .inl (by simpa [hdiff] using hnone)
      · exact .inr ⟨hbehind.outward hnext, by simpa [hdiff] using hlife⟩
  · simp only [touches_append, List.append_eq_nil_iff] at hb
    simpa [Event.isRound] using h.rounds b hne hb.1
  · rcases List.suffix_cons_iff.1 hb with heq | hb
    · obtain ⟨hp, rfl⟩ := List.cons_eq_cons.1 heq
      cases hp
      obtain ⟨hn, hbefore⟩ := h.past n k b (List.suffix_cons _ _)
      refine ⟨by simpa [Event.isRound] using hn, fun i hi => ?_⟩
      rcases Nat.lt_succ_iff_lt_or_eq.1 hi with hi | rfl
      · exact List.mem_append_left _ (hbefore i hi)
      · simp
    · obtain ⟨hn, hbefore⟩ :=
        h.past n' k' b (hb.trans ((List.suffix_cons _ _).trans (List.suffix_cons _ _)))
      exact ⟨by simpa [Event.isRound] using hn, fun i hi => List.mem_append_left _ (hbefore i hi)⟩
  · exact h.due.snoc (h.all_over hover)

/-- What a trail knows is kept by every event that it allows. -/
theorem step {z z' : Trail} {e : Event} (h : Tells cs log z) (hs : z.step? e = some (a, z'))
    (hallows : z.Allows cs e) : Tells cs (log ++ [(a, e)]) z' := by
  unfold step? at hs
  split at hs <;> cases hs
  · exact h.effect _
  · exact h.began hallows
  · exact h.entered
  · exact h.round _ hallows
  · exact h.leftPending
  · exact h.leftOver hallows

end Tells
/-- Each command goes through a beginning of some life of its own. -/
theorem Tells.exists_life {z : Trail} {c : Command} (h : Tells cs log z)
    (hc : commandAt? cs a = some c) : ∃ n, touches a log <+: life c n := by
  by_cases ha : Around a z.frontier
  · obtain ⟨c', n, hc', htouches⟩ := h.underWay a ha
    obtain rfl := Option.some.inj (hc.symm.trans hc')
    refine ⟨n, ?_⟩
    rw [htouches, life]
    split
    · exact ⟨[.left false], by simp⟩
    · exact ⟨[.entered, .left false], by simp⟩
  · rcases h.others a ha with hnone | ⟨-, c', n, hc', hlife⟩
    · exact ⟨0, hnone ▸ List.nil_prefix⟩
    · obtain rfl := Option.some.inj (hc.symm.trans hc')
      exact ⟨n, hlife ▸ List.prefix_rfl⟩

theorem Tells.touches_eq_nil {z : Trail} (h : Tells cs log z) (hc : commandAt? cs a = none) :
    touches a log = [] := by
  by_cases ha : Around a z.frontier
  · obtain ⟨c, n, hc', -⟩ := h.underWay a ha
    cases hc.symm.trans hc'
  · refine (h.others a ha).resolve_right ?_
    rintro ⟨-, c, n, hc', -⟩
    cases hc.symm.trans hc'

/-! ### Where events lead -/

/-- Where some events lead if each of them is allowed where the others have led. -/
inductive Leads (cs : List Command) : Trail → List Event → Trail → Prop
  | nil (z : Trail) : Leads cs z [] z
  | cons {z z' z'' : Trail} {e : Event} {a : Address} {es : List Event}
      (hs : z.step? e = some (a, z')) (hallows : z.Allows cs e) (h : Leads cs z' es z'') :
      Leads cs z (e :: es) z''

namespace Leads
variable {z z' z'' : Trail} {es fs : List Event}

theorem append (h : Leads cs z es z') (h' : Leads cs z' fs z'') : Leads cs z (es ++ fs) z'' := by
  induction h with
  | nil => exact h'
  | cons hs hallows _ ih => exact .cons hs hallows (ih h')

theorem effects (z : Trail) (fx : List Effect) : Leads cs z (fx.map .effect) z := by
  induction fx with
  | nil => exact .nil z
  | cons e fx ih => exact .cons rfl trivial ih

/-- Allowed events can all be ascribed, and the trail knows of them. -/
theorem ascribe (h : Leads cs z es z') (hz : Tells cs log z) :
    ∃ log', z.ascribe? es = some (log', z') ∧ Tells cs (log ++ log') z' := by
  induction h generalizing log with
  | nil z => exact ⟨[], rfl, by simpa using hz⟩
  | @cons z z₁ z' e a es hs hallows _ ih =>
    obtain ⟨log', hlog', hz'⟩ := ih (hz.step hs hallows)
    refine ⟨(a, e) :: log', ?_, by simpa using hz'⟩
    simp [ascribe?, hs, hlog']

end Leads

/-- Nothing of a trace is lost when it is ascribed. -/
theorem map_snd_ascribe {z z' : Trail} {es : List Event} (h : z.ascribe? es = some (log, z')) :
    log.map (·.2) = es := by
  induction es generalizing z log with
  | nil =>
    cases h
    rfl
  | cons e es ih =>
    simp only [ascribe?, Option.bind_eq_bind, Option.bind_eq_some_iff] at h
    obtain ⟨⟨a, z₁⟩, -, ⟨log', z₂⟩, hlog', heq⟩ := h
    cases heq
    simp [ih hlog']

end Trail
end StoryScript
