import Mathlib.Data.Nat.Digits.Defs
import StoryScript.Operand
import StoryScript.Proofs.Parsed

/-! What the value tokens of a document stand for. A token of the form that its element asks for
has a source, unless it is an integer that does not fit or an argument whose index does not. -/
namespace StoryScript
open Numeral

/-- The natural that decimal digits spell. -/
def decimal (ds : List Char) : Nat := Nat.ofDigits 10 (ds.map fun c => c.toNat - '0'.toNat).reverse

/-- The integer that decimal digits spell after an optional sign. -/
def integer : List Char → Int
  | '-' :: ds => -decimal ds
  | '+' :: ds => decimal ds
  | ds => decimal ds

namespace Literal

/-- A number without a point that is no integer of 64 bits, or an argument whose index is no
natural of 64 bits. -/
def OutOfRange (l : Literal) : Prop :=
  match l.token with
  | .number =>
    '.' ∉ l.text.toList ∧ ¬(-2 ^ 63 ≤ integer l.text.toList ∧ integer l.text.toList < 2 ^ 63)
  | .identifier => ∃ ds, l.text.toList = '$' :: ds ∧ ds.all isDigit = true ∧ 2 ^ 64 ≤ decimal ds
  | .string => False

/-- What is said of a token that is out of range. -/
def blame (l : Literal) : Cause :=
  match l.token with
  | .number => .numberInvalid l.text
  | _ => .argumentInvalid l.text

/-- What a token stands for. -/
inductive Denotes (l : Literal) : Source → Prop
  | text : l.token = .string → Denotes l (.literal (.text l.text))
  | float {x : Float} : l.token = .number → '.' ∈ l.text.toList → readDouble? l.text = some x →
    Denotes l (.literal (.float x))
  | int {v : Int64} : l.token = .number → '.' ∉ l.text.toList → v.toInt = integer l.text.toList →
    Denotes l (.literal (.int v))
  | variable : l.token = .identifier → l.text.toList.head? = some '@' → Denotes l (.variable l.text)
  | iterator : l.token = .identifier → l.text = "$$" → Denotes l .iterator
  | argument {ds : List Char} : l.token = .identifier → l.text.toList = '$' :: ds →
    ds ≠ [] ∧ ds.all isDigit = true → Denotes l (.argument (decimal ds))
  | truth : l.token = .identifier → l.text = "true" → Denotes l (.literal (.int 1))
  | falsehood : l.token = .identifier → l.text = "false" → Denotes l (.literal (.int 0))
  | word : l.token = .identifier → l.text.toList.head? ∉ [some '@', some '$'] →
    l.text ∉ ["true", "false"] → Denotes l (.literal (.text l.text))

end Literal

/-! ### Digits -/

variable {cs ds : List Char}

theorem digit?_eq {c : Char} (h : isDigit c = true) : digit? c = some (c.toNat - '0'.toNat) := by
  unfold isDigit digit? at *
  split at h
  · rw [if_pos ‹_›]
  · cases h

theorem digitsValueFrom_eq (h : ds.all isDigit = true) (n : Nat) :
    digitsValueFrom n ds = 10 ^ ds.length * n + decimal ds := by
  induction ds generalizing n with
  | nil => simp [digitsValueFrom, decimal]
  | cons c r ih =>
    rw [List.all_cons, Bool.and_eq_true] at h
    have step :
        digitsValueFrom n (c :: r) = digitsValueFrom (10 * n + (c.toNat - '0'.toNat)) r := by
      rw [digitsValueFrom, List.foldl_cons, digit?_eq h.1]
      rfl
    have tail : decimal (c :: r) = decimal r + 10 ^ r.length * (c.toNat - '0'.toNat) := by
      simp [decimal, Nat.ofDigits_append]
    rw [step, ih h.2, tail, List.length_cons, pow_succ]
    ring

theorem digitsValue_eq (h : ds.all isDigit = true) : digitsValue ds = decimal ds := by
  rw [digitsValue, digitsValueFrom_eq h, Nat.mul_zero, Nat.zero_add]

theorem readNat?_digits (hne : ds ≠ []) (h : ds.all isDigit = true) :
    readNat? ds = some (decimal ds) := by
  rw [readNat?, if_pos ⟨hne, h⟩, digitsValue_eq h]

/-! ### Integers -/

theorem digits_of_unsigned (h : ds ∈ Pattern.unsigned) (hpoint : '.' ∉ ds) :
    ds ≠ [] ∧ ds.all isDigit = true := by
  rcases Pattern.mem_unsigned.1 h with ⟨d, hd, hall, rfl | ⟨s, rfl, -⟩⟩ | ⟨s, rfl, -⟩
  · exact ⟨hd, hall⟩
  · exact absurd (by simp) hpoint
  · exact absurd (by simp) hpoint

theorem takeSign_unsigned (h : ds ∈ Pattern.unsigned) : takeSign ds = (false, ds) := by
  unfold takeSign
  split
  · exact absurd h (Pattern.sign_not_mem_unsigned (.inr rfl))
  · exact absurd h (Pattern.sign_not_mem_unsigned (.inl rfl))
  · rfl

theorem integer_unsigned (h : ds ∈ Pattern.unsigned) : integer ds = decimal ds := by
  unfold integer
  split
  · exact absurd h (Pattern.sign_not_mem_unsigned (.inr rfl))
  · exact absurd h (Pattern.sign_not_mem_unsigned (.inl rfl))
  · rfl

theorem readInt64?_eq {negative : Bool} {n : Nat} {v : Int} (hs : takeSign cs = (negative, ds))
    (hn : readNat? ds = some n) (hv : v = if negative then -(n : Int) else n) :
    readInt64? cs = if fitsInt64 v then some (.ofInt v) else none := by
  subst hv
  rw [readInt64?, hs]
  generalize fitsInt64 = fits
  dsimp only
  rw [hn]
  rfl

/-- A number without a point is read by its sign and its digits. -/
theorem readInt64?_number (h : cs ∈ Pattern.number) (hpoint : '.' ∉ cs) :
    readInt64? cs = if fitsInt64 (integer cs) then some (.ofInt (integer cs)) else none := by
  rcases Pattern.mem_number.1 h with hu | ⟨ds, hu, rfl | rfl⟩
  · obtain ⟨hne, hall⟩ := digits_of_unsigned hu hpoint
    exact readInt64?_eq (takeSign_unsigned hu) (readNat?_digits hne hall) (integer_unsigned hu)
  · obtain ⟨hne, hall⟩ := digits_of_unsigned hu fun hmem => hpoint (.tail _ hmem)
    exact readInt64?_eq rfl (readNat?_digits hne hall) rfl
  · obtain ⟨hne, hall⟩ := digits_of_unsigned hu fun hmem => hpoint (.tail _ hmem)
    exact readInt64?_eq rfl (readNat?_digits hne hall) rfl

theorem fitsInt64_iff (n : Int) : fitsInt64 n = true ↔ -2 ^ 63 ≤ n ∧ n < 2 ^ 63 := by
  simp [fitsInt64]

/-! ### Floats -/

/-- Digits and what follows them from the point on. -/
theorem takeWhile_digits (ds : List Char) {r : List Char} (h : ds.all isDigit = true)
    (hr : r.head?.all (· = '.') = true) :
    (ds ++ r).takeWhile isDigit = ds ∧ (ds ++ r).dropWhile isDigit = r := by
  have hall := List.all_eq_true.1 h
  have point : isDigit '.' = false := rfl
  rw [List.takeWhile_append_of_pos hall, List.dropWhile_append_of_pos hall]
  cases r with
  | nil => simp
  | cons c r =>
    have hc : c = '.' := by simpa using hr
    simp [hc, point]

theorem readDecimal?_unsigned (h : ds ∈ Pattern.unsigned) : (readDecimal? ds).isSome := by
  have empty : readExponent? [] = some 0 := rfl
  rcases Pattern.mem_unsigned.1 h with ⟨d, hd, hall, rfl | ⟨s, rfl, hs⟩⟩ | ⟨s, rfl, hne, hs⟩
  · have h := takeWhile_digits _ (r := []) hall rfl
    rw [List.append_nil] at h
    simp [readDecimal?, h.1, h.2, hd, empty]
  · have h := takeWhile_digits _ (r := '.' :: s) hall (by simp)
    have h' := takeWhile_digits _ (r := []) hs rfl
    rw [List.append_nil] at h'
    simp [readDecimal?, h.1, h.2, h'.1, h'.2, hd, empty]
  · have h := takeWhile_digits [] (r := '.' :: s) rfl (by simp)
    have h' := takeWhile_digits _ (r := []) hs rfl
    rw [List.append_nil] at h'
    rw [List.nil_append] at h
    simp [readDecimal?, h.1, h.2, h'.1, h'.2, hne, empty]

theorem readFloat?_number (f : Format) (h : cs ∈ Pattern.number) : (readFloat? f cs).isSome := by
  have unsigned : (takeSign cs).2 ∈ Pattern.unsigned := by
    rcases Pattern.mem_number.1 h with hu | ⟨ds, hu, rfl | rfl⟩
    · rwa [takeSign_unsigned hu]
    · exact hu
    · exact hu
  unfold readFloat?
  dsimp only
  split
  · rfl
  · split
    · rfl
    · rw [Option.isSome_map]
      exact readDecimal?_unsigned unsigned

/-! ### Tokens -/

theorem unsigned_mem {c : Char} (h : ds ∈ Pattern.unsigned) (hc : c ∈ ds) :
    isDigit c = true ∨ c = '.' := by
  rcases Pattern.mem_unsigned.1 h with ⟨d, hd, hall, rfl | ⟨s, rfl, hs⟩⟩ | ⟨s, rfl, hne, hs⟩ <;>
    simp only [List.all_eq_true, List.mem_append, List.mem_cons] at * <;> grind

/-- The letters that would make a number a float do not occur in one. -/
theorem number_any (h : cs ∈ Pattern.number) :
    (cs.any fun c => c = '.' || c = 'e' || c = 'E') = decide ('.' ∈ cs) := by
  have letters : ∀ c ∈ cs, c ≠ 'e' ∧ c ≠ 'E' := by
    intro c hc
    have class' : isDigit c = true ∨ c = '.' ∨ c = '+' ∨ c = '-' := by
      rcases Pattern.mem_number.1 h with hu | ⟨ds, hu, rfl | rfl⟩
      · exact (unsigned_mem hu hc).imp_right .inl
      · rcases List.mem_cons.1 hc with rfl | hc
        · simp
        · exact (unsigned_mem hu hc).imp_right .inl
      · rcases List.mem_cons.1 hc with rfl | hc
        · simp
        · exact (unsigned_mem hu hc).imp_right .inl
    constructor <;> rintro rfl <;> revert class' <;> decide
  rw [Bool.eq_iff_iff]
  simp only [List.any_eq_true, Bool.or_eq_true, decide_eq_true_eq]
  constructor
  · rintro ⟨c, hc, (rfl | rfl) | rfl⟩
    · exact hc
    · exact absurd rfl (letters _ hc).1
    · exact absurd rfl (letters _ hc).2
  · exact fun hc => ⟨'.', hc, .inl (.inl rfl)⟩

/-- What the reading of a token comes to. -/
def Literal.Settled (l : Literal) : Except Fault Source → Prop
  | .ok s => ¬l.OutOfRange ∧ l.Denotes s
  | .error f => l.OutOfRange ∧ f = .located l.span l.blame

variable {l : Literal}

theorem readNumber?_float (h : l.text.toList ∈ Pattern.number) (hp : '.' ∈ l.text.toList) :
    ∃ x, readDouble? l.text = some x ∧ Source.readNumber? l.text = some (.float x) := by
  obtain ⟨b, hb⟩ := Option.isSome_iff_exists.1 (readFloat?_number binary64 h)
  have hx : readDouble? l.text = some (.ofBits (.ofNat b)) := by rw [readDouble?, hb]; rfl
  refine ⟨_, hx, ?_⟩
  rw [Source.readNumber?, number_any h, if_pos (decide_eq_true hp), hx]
  rfl

theorem readNumber?_int (h : l.text.toList ∈ Pattern.number) (hp : '.' ∉ l.text.toList) :
    Source.readNumber? l.text = if fitsInt64 (integer l.text.toList) then
      some (.int (.ofInt (integer l.text.toList))) else none := by
  rw [Source.readNumber?, number_any h, if_neg (by simpa using hp), readInt64?_number h hp]
  split <;> rfl

theorem ofLiteral_number (ht : l.token = .number) (h : l.text.toList ∈ Pattern.number) :
    l.Settled (Source.ofLiteral l) := by
  unfold Source.ofLiteral
  simp only [ht]
  by_cases hp : '.' ∈ l.text.toList
  · obtain ⟨x, hx, hr⟩ := readNumber?_float h hp
    rw [hr]
    exact ⟨by simp [Literal.OutOfRange, ht, hp], .float ht hp hx⟩
  · rw [readNumber?_int h hp]
    have range : l.OutOfRange ↔ ¬fitsInt64 (integer l.text.toList) = true := by
      simp only [Literal.OutOfRange, ht, hp, fitsInt64_iff, not_false_eq_true, true_and]
    by_cases hfits : fitsInt64 (integer l.text.toList) = true
    · rw [if_pos hfits]
      obtain ⟨hlow, hhigh⟩ := (fitsInt64_iff _).1 hfits
      exact ⟨fun hr => range.1 hr hfits, .int ht hp (Int64.toInt_ofInt_of_le hlow hhigh)⟩
    · rw [if_neg hfits]
      exact ⟨range.2 hfits, by simp only [Literal.blame, ht]⟩

theorem readIndex?_digits (hne : ds ≠ []) (h : ds.all isDigit = true) :
    readIndex? ds = if decimal ds < Nat.pow 2 64 then some (decimal ds) else none := by
  unfold readIndex?
  generalize Nat.pow 2 64 = bound
  dsimp only
  split
  · exact absurd h (by simp [isDigit, digit?])
  · rw [readNat?_digits hne h]
    rfl

theorem outOfRange_argument (ht : l.token = .identifier) (hl : l.text.toList = '$' :: ds)
    (h : ds.all isDigit = true) : l.OutOfRange ↔ ¬decimal ds < Nat.pow 2 64 := by
  simp only [Literal.OutOfRange, ht, hl]
  constructor
  · rintro ⟨ds, hds, -, hle⟩
    cases hds
    exact Nat.not_lt.2 hle
  · exact fun hlt => ⟨ds, rfl, h, Nat.not_lt.1 hlt⟩

theorem head?_notMem_sigils {w : List Char} (hvar : ∀ r, w ≠ '@' :: r) (harg : ∀ r, w ≠ '$' :: r) :
    w.head? ∉ [some '@', some '$'] := by
  cases w with
  | nil => simp
  | cons c r =>
    have hvar : c ≠ '@' := fun hc => hvar r (by rw [hc])
    have harg : c ≠ '$' := fun hc => harg r (by rw [hc])
    simp [hvar, harg]

theorem ofLiteral_identifier (ht : l.token = .identifier)
    (h : isIdentifier l.text.toList = true) : l.Settled (Source.ofLiteral l) := by
  simp only [Source.ofLiteral, ht, Source.ofIdentifier]
  split
  · next r hr =>
    exact ⟨by simp [Literal.OutOfRange, ht, hr], .variable ht (by rw [hr]; rfl)⟩
  · next hr =>
    have range : ¬l.OutOfRange := by
      simp only [Literal.OutOfRange, ht, hr]
      rintro ⟨ds, hds, hall, -⟩
      cases hds
      revert hall
      decide
    exact ⟨range, .iterator ht (String.toList_inj.1 hr)⟩
  · next digits hne hr =>
    rw [hr] at h
    have form : digits ≠ [] ∧ digits.all isDigit = true := by
      have h : digits = ['$'] ∨ digits ≠ [] ∧ digits.all isDigit = true := by
        simpa [isIdentifier] using h
      exact h.resolve_left hne
    have range := outOfRange_argument ht hr form.2
    rw [readIndex?_digits form.1 form.2]
    by_cases hfits : decimal digits < Nat.pow 2 64
    · rw [if_pos hfits]
      exact ⟨fun hl => range.1 hl hfits, .argument ht hr form⟩
    · rw [if_neg hfits]
      exact ⟨range.2 hfits, by simp only [Literal.blame, ht]⟩
  · next hvar hiter harg =>
    have range : ¬l.OutOfRange := by
      simp only [Literal.OutOfRange, ht]
      rintro ⟨ds, hds, -⟩
      exact harg ds hds
    split
    · next htrue => exact ⟨range, .truth ht htrue⟩
    · split
      · next hfalse => exact ⟨range, .falsehood ht hfalse⟩
      · next htrue hfalse =>
        exact ⟨range, .word ht (head?_notMem_sigils hvar harg) (by simp [htrue, hfalse])⟩

/-- A token of its form has the source that it denotes, unless it is out of range. -/
theorem ofLiteral_settled (h : l.token.accepts l.text = true) :
    l.Settled (Source.ofLiteral l) := by
  cases ht : l.token with
  | number =>
    rw [ht] at h
    exact ofLiteral_number ht (Pattern.isNumeral_iff.1 h)
  | identifier =>
    rw [ht] at h
    exact ofLiteral_identifier ht h
  | string =>
    simp only [Source.ofLiteral, ht]
    exact ⟨by simp [Literal.OutOfRange, ht], .text ht⟩

/-! ### Parameters -/

namespace Node
variable (fs : Functions)

/-- What a parameter stands for: every token in it for its own source, at its place. -/
inductive Means : Node → Source → Prop
  | value {l : Literal} {s : Source} : l.Denotes s → Means (.value l) s
  | collection {c : Call} {ss : List Source} : c.id = "" ∨ c.id = "list" →
    List.Forall₂ Means c.params ss → Means (.call c) (.collection ss)
  | script {c : Call} {l : Literal} {s : Script} : c.id = "expr" → c.params = [.value l] →
    Script.compile fs.engine l.text = .ok s → Means (.call c) (.script s)
  | apply {c : Call} {f : List Value → Value} {ss : List Source} : c.id ∉ ["", "list", "expr"] →
    fs.find? c.id = some f → List.Forall₂ Means c.params ss → Means (.call c) (.apply f ss)

/-- Why a parameter cannot be bound: a token in it is out of range, a function is unknown, or a
script cannot be read. -/
inductive Fails : Node → Fault → Prop
  | range {l : Literal} : l.OutOfRange → Fails (.value l) (.located l.span l.blame)
  | inside {c : Call} {p : Node} {f : Fault} : c.id ≠ "expr" → p ∈ c.params → Fails p f →
    Fails (.call c) f
  | unknown {c : Call} : c.id ∉ ["", "list", "expr"] → fs.find? c.id = none →
    Fails (.call c) (.located c.span (.functionUnknown c.id))
  | arity {c : Call} : c.id = "expr" → Fails (.call c) (.located c.span .scriptArity)
  | unreadable {c : Call} {l : Literal} {f : Fault} : c.id = "expr" → c.params = [.value l] →
    Script.compile fs.engine l.text = .error f → Fails (.call c) (.located c.span f.cause)

/-- What the binding of a parameter comes to. -/
def Settled (n : Node) : Except Fault Source → Prop
  | .ok s => n.Means fs s
  | .error f => n.Fails fs f

/-- The tokens of a parameter that are operands, at any nesting of calls. The text of a script is
none. -/
inductive Token : Node → Literal → Prop
  | here (l : Literal) : Token (.value l) l
  | inside {c : Call} {p : Node} {l : Literal} : c.id ≠ "expr" → p ∈ c.params → Token p l →
    Token (.call c) l

variable {fs} {n : Node} {f : Fault}

theorem Parameter.accepts (h : n.Parameter) {l : Literal} (hl : n.Token l) :
    l.token.accepts l.text = true := by
  induction hl with
  | here => cases h with | value h => exact h
  | inside _ hp _ ih => cases h with | call h => exact ih (h _ hp)

theorem settled_ofNodes {ps : List Node}
    (h : ∀ p ∈ ps, p.Settled fs (Source.ofNode fs p)) :
    match Source.ofNodes fs ps with
    | .ok ss => List.Forall₂ (Means fs) ps ss
    | .error f => ∃ p ∈ ps, p.Fails fs f := by
  induction ps with
  | nil => exact .nil
  | cons p r ih =>
    have hp := h p (.head _)
    have hr := ih fun q hq => h q (.tail _ hq)
    rw [Source.ofNodes]
    cases hs : Source.ofNode fs p with
    | error f =>
      rw [hs] at hp
      exact ⟨p, .head _, hp⟩
    | ok s =>
      rw [hs] at hp
      cases hss : Source.ofNodes fs r with
      | error f =>
        rw [hss] at hr
        obtain ⟨q, hq, hf⟩ := hr
        exact ⟨q, .tail _ hq, hf⟩
      | ok ss =>
        rw [hss] at hr
        exact .cons hp hr

theorem settled_ofScript {id : String} {ps : List Node} {span : Span} (hid : id = "expr") :
    (Node.call ⟨id, ps, span⟩).Settled fs (Source.ofScript fs.engine ps span) := by
  unfold Source.ofScript
  split
  · next l =>
    cases hs : Script.compile fs.engine l.text with
    | ok s => exact .script hid rfl hs
    | error f => exact .unreadable hid rfl hs
  · exact .arity hid

/-- A parameter is bound to what it stands for, or something in it is at fault. -/
theorem settled_ofNode (fs : Functions) (h : n.Parameter) : n.Settled fs (Source.ofNode fs n) := by
  induction h with
  | @value l h =>
    rw [Source.ofNode]
    have hl := ofLiteral_settled h
    cases hs : Source.ofLiteral l with
    | ok s =>
      rw [hs] at hl
      exact .value hl.2
    | error f =>
      rw [hs] at hl
      rw [hl.2]
      exact .range hl.1
  | @call c _ ih =>
    have params := settled_ofNodes ih
    obtain ⟨id, ps, span⟩ := c
    rw [Source.ofNode]
    split
    · next hid =>
      have hid : id = "" ∨ id = "list" := by simpa using hid
      have hexpr : id ≠ "expr" := by rcases hid with rfl | rfl <;> decide
      cases hps : Source.ofNodes fs ps with
      | error f =>
        rw [hps] at params
        obtain ⟨p, hp, hf⟩ := params
        exact .inside hexpr hp hf
      | ok ss =>
        rw [hps] at params
        exact .collection hid params
    · next hcollection =>
      split
      · next hid => exact settled_ofScript hid
      · next hexpr =>
        have hid : id ∉ ["", "list", "expr"] := by simp_all
        cases hf : fs.find? id with
        | none => exact .unknown hid hf
        | some f =>
          cases hps : Source.ofNodes fs ps with
          | error f =>
            rw [hps] at params
            obtain ⟨p, hp, hf⟩ := params
            exact .inside hexpr hp hf
          | ok ss =>
            rw [hps] at params
            exact .apply hid hf params

theorem scriptUnreadable_of_compile {engine : Script.Engine} {source : String}
    (h : Script.compile engine source = .error f) : f.code = "STORY_EXPR_PARSE" := by
  unfold Script.compile at h
  dsimp only at h
  split at h
  · cases h
  · cases h
    rfl

theorem Fails.code_ne (h : n.Fails fs f) : f.code ≠ "STORY_PARSE_SHAPE" := by
  induction h with
  | @range l =>
    unfold Literal.blame
    split <;> simp [Fault.located, Fault.code, Cause.code]
  | inside _ _ _ ih => exact ih
  | unknown | arity => simp [Fault.located, Fault.code, Cause.code]
  | unreadable _ _ h =>
    have h := scriptUnreadable_of_compile h
    exact fun hf => absurd (h.symm.trans hf) (by decide)

/-- A fault of the value of a token is one of a token that is out of range. -/
theorem Fails.exists_token (h : n.Fails fs f) (hf : f.code = "STORY_PARSE_VALUE") :
    ∃ l, n.Token l ∧ l.OutOfRange ∧ f = .located l.span l.blame := by
  induction h with
  | range h => exact ⟨_, .here _, h, rfl⟩
  | inside hid hp _ ih =>
    obtain ⟨l, hl, h⟩ := ih hf
    exact ⟨l, .inside hid hp hl, h⟩
  | unknown | arity => simp [Fault.located, Fault.code, Cause.code] at hf
  | unreadable _ _ h =>
    have h := scriptUnreadable_of_compile h
    exact absurd (h.symm.trans hf) (by decide)

end Node
end StoryScript
