import StoryScript.Json.Reader
import StoryScript.Proofs.Literals

/-! JSON that is written reads back. The reader goes over the text of a value and is then where it
would be had it been given the value itself, so a whole text is read as the value that it was written
from. This is so of all values whose numbers are integers of 64 bits, with or without a sign, as far
as values may be nested. -/
namespace StoryScript.Json
open Numeral

/-! ### Numbers -/

theorem le_ofDigitChars (n : Nat) (ds : List Char) : n ≤ Nat.ofDigitChars 10 ds n := by
  induction ds generalizing n with
  | nil => simp
  | cons c ds ih =>
    rw [Nat.ofDigitChars_cons]
    have h := ih (10 * n + (c.toNat - '0'.toNat))
    omega

theorem isDigit_of_isDigit {c : Char} (h : c.isDigit = true) : isDigit c = true := by
  have hle : '0' ≤ c ∧ c ≤ '9' := by
    simpa [Char.isDigit, Char.le_def] using h
  rw [isDigit, digit?, if_pos hle]
  rfl

/-- Digits that stay below the bound of a word are all taken. -/
theorem takeWord_digits {ds : List Char} (h : ∀ c ∈ ds, isDigit c = true) (n : Nat)
    (hn : Nat.ofDigitChars 10 ds n < 2 ^ 64) : takeWord n ds = (Nat.ofDigitChars 10 ds n, []) := by
  induction ds generalizing n with
  | nil => simp [takeWord]
  | cons c ds ih =>
    obtain ⟨hc, hds⟩ := List.forall_mem_cons.1 h
    rw [Nat.ofDigitChars_cons] at hn ⊢
    have hlt := Nat.lt_of_le_of_lt (le_ofDigitChars _ ds) hn
    have hdigit : (digit? c).getD 0 = c.toNat - '0'.toNat := by rw [digit?_eq hc, Option.getD_some]
    rw [takeWord, hdigit, if_pos (by simpa using hlt)]
    exact ih hds _ hn

theorem isDigit_of_mem_toDigits {n : Nat} {c : Char} (h : c ∈ Nat.toDigits 10 n) :
    isDigit c = true :=
  isDigit_of_isDigit (Nat.isDigit_of_mem_toDigits (by decide) (by decide) h)

/-- A natural is written without needless zeros. -/
theorem head_toDigits {n : Nat} (hn : 0 < n) : (Nat.toDigits 10 n).head? ≠ some '0' := by
  induction n using Nat.strongRecOn with
  | _ n ih =>
    by_cases hlt : n < 10
    · have one : ∀ d < 10, 0 < d → [Nat.digitChar d].head? ≠ some '0' := by decide
      rw [Nat.toDigits_of_lt_base hlt]
      exact one n hlt hn
    · have h := ih (n / 10) (by omega) (by omega)
      rw [Nat.toDigits_of_base_le (by decide) (by omega), List.head?_append]
      cases hd : (Nat.toDigits 10 (n / 10)).head? with
      | none => exact absurd (List.head?_eq_none_iff.1 hd) Nat.toDigits_ne_nil
      | some c =>
        rw [hd] at h
        exact h

theorem splitNumeral?_toDigits (n : Nat) :
    splitNumeral? (Nat.toDigits 10 n) = some (Nat.toDigits 10 n, none, []) := by
  have hall : (Nat.toDigits 10 n).all isDigit = true :=
    List.all_eq_true.2 fun c => isDigit_of_mem_toDigits
  obtain ⟨htake, hdrop⟩ := takeWhile_digits _ hall (r := []) rfl
  rw [List.append_nil] at htake hdrop
  unfold splitNumeral?
  rw [htake, hdrop]
  rcases Nat.eq_zero_or_pos n with rfl | hn
  · rfl
  · have hhead := head_toDigits hn
    have hne : Nat.toDigits 10 n ≠ [] := Nat.toDigits_ne_nil
    generalize Nat.toDigits 10 n = ds at hhead hne
    match ds with
    | [] => exact absurd rfl hne
    | c :: r =>
      have hc : c ≠ '0' := by simpa using hhead
      simp [hc]

/-- What a numeral is read as: an integer after a sign, if it is not too large. -/
theorem read?_toDigits (negative : Bool) {m : Nat} (hm : m < 2 ^ 64)
    (hsign : negative = true → 0 < m ∧ m ≤ 2 ^ 63) :
    Number.read? ((if negative then ['-'] else []) ++ Nat.toDigits 10 m) =
      some (.integer (if negative then -m else m)) := by
  have taken : takeWord 0 (Nat.toDigits 10 m) = (m, []) := by
    have h := takeWord_digits (fun c => isDigit_of_mem_toDigits (n := m)) 0 (by simpa using hm)
    simpa using h
  have split : splitNumeral? (Nat.toDigits 10 m) = some (Nat.toDigits 10 m, none, []) :=
    splitNumeral?_toDigits m
  cases negative with
  | true =>
    obtain ⟨hpos, hle⟩ := hsign rfl
    have fits : m ≠ 0 ∧ m ≤ 9223372036854775808 := ⟨by omega, hle⟩
    simp [Number.read?, split, taken, readExponent?, fits]
  | false =>
    rw [if_neg Bool.false_ne_true, List.nil_append, Number.read?]
    · simp [split, taken, readExponent?]
    · intro r hr
      have hmem : isDigit '-' = true := isDigit_of_mem_toDigits (n := m) (hr ▸ .head _)
      cases hmem

/-- An integer that a word can hold, with or without a sign, is read as it is written. -/
theorem read?_integer {n : Int} (hlow : -2 ^ 63 ≤ n) (hhigh : n < 2 ^ 64) :
    Number.read? (Number.integer n).write = some (.integer n) := by
  rw [Number.write, Int.repr_eq_if]
  split
  · next hn =>
    have h := read?_toDigits false (m := n.toNat) (by omega) (by simp)
    have hn : (n.toNat : Int) = n := Int.toNat_of_nonneg hn
    simpa [hn] using h
  · next hn =>
    have h := read?_toDigits true (m := (-n).toNat) (by omega) (by omega)
    have hn : ((-n).toNat : Int) = -n := Int.toNat_of_nonneg (by omega)
    simpa [hn] using h

/-! ### Characters -/

/-- What is read from some state on. -/
def State.rest? (s : State) (cs : List Char) : Option Json := do
  (← cs.foldlM State.step s).finish

theorem rest?_nil (s : State) : s.rest? [] = s.finish := rfl

theorem rest?_cons (s : State) (c : Char) (cs : List Char) :
    s.rest? (c :: cs) = (s.step c).bind (·.rest? cs) := by
  rw [State.rest?, List.foldlM_cons, bind_assoc]
  rfl

theorem rest?_step {s t : State} {c : Char} (h : s.step c = some t) (cs : List Char) :
    s.rest? (c :: cs) = t.rest? cs := by
  rw [rest?_cons, h, Option.bind_some]

/-- A character that is written as itself in a text. -/
theorem rest?_plain {c : Char} (hquote : c ≠ '"') (hslash : c ≠ '\\') (hc : ¬c.toNat < 0x20)
    (read rest : List Char) (p : Progress) :
    State.rest? ⟨.quoted read, p⟩ (c :: rest) = State.rest? ⟨.quoted (c :: read), p⟩ rest :=
  rest?_step (by simp [State.step, hquote, hslash, hc]) rest

/-- A character that is written by a letter after a slash. -/
theorem rest?_escape {c d : Char} (hc : c ≠ 'u') (hd : unescape? c = some d) (read rest : List Char)
    (p : Progress) : State.rest? ⟨.quoted read, p⟩ ('\\' :: c :: rest) =
      State.rest? ⟨.quoted (d :: read), p⟩ rest := by
  have hslash : State.step ⟨.quoted read, p⟩ '\\' = some ⟨.escape read, p⟩ := rfl
  rw [rest?_step hslash]
  exact rest?_step (by simp [State.step, hc, hd]) rest

theorem rest?_digit {c : Char} (hc : (Markup.digitOf? 16 c).isSome = true) {ds : List Char}
    (hds : ds.length < 3) (read rest : List Char) (p : Progress) :
    State.rest? ⟨.code read none ds, p⟩ (c :: rest) =
      State.rest? ⟨.code read none (c :: ds), p⟩ rest := by
  have hnone : (Markup.digitOf? 16 c).isNone = false := by simpa using hc
  exact rest?_step (by simp [State.step, hnone, hds]) rest

/-- A control character, written by its code. -/
theorem rest?_code {c : Char} (hc : c.toNat < 0x20) (read rest : List Char) (p : Progress) :
    State.rest? ⟨.quoted read, p⟩ (['\\', 'u', '0', '0'] ++ byteDigits c.toNat ++ rest) =
      State.rest? ⟨.quoted (c :: read), p⟩ rest := by
  have digits : ∀ n < 0x20, (Markup.digitOf? 16 (Nat.digitChar (n / 16))).isSome = true ∧
      (Markup.digitOf? 16 (Nat.digitChar (n % 16))).isSome = true ∧
      Markup.natOf? 16 ['0', '0', Nat.digitChar (n / 16), Nat.digitChar (n % 16)] = some n := by
    decide
  obtain ⟨hhigh, hlow, hvalue⟩ := digits c.toNat hc
  have zero : (Markup.digitOf? 16 '0').isSome = true := rfl
  have hslash : State.step ⟨.quoted read, p⟩ '\\' = some ⟨.escape read, p⟩ := rfl
  have hletter : State.step ⟨.escape read, p⟩ 'u' = some ⟨.code read none [], p⟩ := rfl
  have hend : State.step ⟨.code read none [Nat.digitChar (c.toNat / 16), '0', '0'], p⟩
      (Nat.digitChar (c.toNat % 16)) = some ⟨.quoted (c :: read), p⟩ := by
    have hnone : (Markup.digitOf? 16 (Nat.digitChar (c.toNat % 16))).isNone = false := by
      simpa using hlow
    have hplain : ¬(0xD800 ≤ c.toNat ∧ c.toNat ≤ 0xDBFF) ∧
        ¬(0xDC00 ≤ c.toNat ∧ c.toNat ≤ 0xDFFF) := by omega
    simp [State.step, hnone, hvalue, endCode, hplain, Char.ofNat_toNat]
  calc State.rest? ⟨.quoted read, p⟩ (['\\', 'u', '0', '0'] ++ byteDigits c.toNat ++ rest)
    _ = State.rest? ⟨.code read none [], p⟩ ('0' :: '0' :: (byteDigits c.toNat ++ rest)) := by
      rw [List.append_assoc, List.cons_append, rest?_step hslash, List.cons_append,
        rest?_step hletter]
      rfl
    _ = State.rest? ⟨.code read none ['0', '0'], p⟩ (byteDigits c.toNat ++ rest) := by
      rw [rest?_digit zero (by decide), rest?_digit zero (by decide)]
    _ = State.rest? ⟨.quoted (c :: read), p⟩ rest := by
      rw [byteDigits, List.cons_append, rest?_digit hhigh (by decide), List.cons_append,
        rest?_step hend]
      rfl

/-- A character of a text is read as it is written. -/
theorem rest?_escapeChar (c : Char) (read rest : List Char) (p : Progress) :
    State.rest? ⟨.quoted read, p⟩ (escapeChar c ++ rest) =
      State.rest? ⟨.quoted (c :: read), p⟩ rest := by
  have escaped {d e : Char} (h : c = d) (he : e ≠ 'u') (hd : unescape? e = some d) :
      State.rest? ⟨.quoted read, p⟩ (['\\', e] ++ rest) =
        State.rest? ⟨.quoted (c :: read), p⟩ rest := h ▸ rest?_escape he hd read rest p
  unfold escapeChar
  split_ifs with quote slash back feed line carriage tab control
  · exact escaped quote (by decide) rfl
  · exact escaped slash (by decide) rfl
  · exact escaped back (by decide) rfl
  · exact escaped feed (by decide) rfl
  · exact escaped line (by decide) rfl
  · exact escaped carriage (by decide) rfl
  · exact escaped tab (by decide) rfl
  · exact rest?_code control read rest p
  · exact rest?_plain quote slash control read rest p

theorem rest?_characters (cs read rest : List Char) (p : Progress) :
    State.rest? ⟨.quoted read, p⟩ (cs.flatMap escapeChar ++ rest) =
      State.rest? ⟨.quoted (cs.reverse ++ read), p⟩ rest := by
  induction cs generalizing read with
  | nil => rfl
  | cons c cs ih => simp [rest?_escapeChar, ih]

/-- A text is read as what was written. -/
theorem rest?_writeText (s : String) (rest : List Char) (p : Progress) :
    State.rest? ⟨.between, p⟩ (writeText s ++ rest) =
      (p.step (.text s)).bind fun p => State.rest? ⟨.between, p⟩ rest := by
  have hopen : State.step ⟨.between, p⟩ '"' = some ⟨.quoted [], p⟩ := rfl
  simp only [writeText, List.cons_append, List.append_assoc]
  rw [rest?_step hopen, rest?_characters, List.append_nil, List.nil_append, rest?_cons]
  simp only [State.step, if_true, List.reverse_reverse, String.ofList_toList]
  cases p.step (.text s) <;> rfl

/-! ### Words -/

/-- What can follow a word: nothing, or a character that words do not have. -/
def Apart (cs : List Char) : Prop := ∀ c ∈ cs.head?, isWordChar c = false

theorem rest?_letters {w : List Char} (hw : ∀ c ∈ w, isWordChar c = true) (read rest : List Char)
    (p : Progress) :
    State.rest? ⟨.word read, p⟩ (w ++ rest) = State.rest? ⟨.word (w.reverse ++ read), p⟩ rest := by
  induction w generalizing read with
  | nil => rfl
  | cons c w ih =>
    obtain ⟨hc, hw⟩ := List.forall_mem_cons.1 hw
    have hstep : State.step ⟨.word read, p⟩ c = some ⟨.word (c :: read), p⟩ := by
      simp [State.step, hc]
    rw [List.cons_append, rest?_step hstep, ih hw, List.reverse_cons, List.append_assoc]
    rfl

/-- A word is over where no character of words follows, and its value is then read. -/
theorem rest?_ended {read rest : List Char} {j : Json} (hj : scalarOf? read.reverse = some j)
    (hrest : Apart rest) (p : Progress) : State.rest? ⟨.word read, p⟩ rest =
      (p.step (.scalar j)).bind fun p => State.rest? ⟨.between, p⟩ rest := by
  cases rest with
  | nil =>
    simp only [rest?_nil, State.finish, hj, Option.bind_eq_bind, Option.bind_some]
  | cons c r =>
    have hc : isWordChar c = false := hrest c rfl
    have hstep : State.step ⟨.word read, p⟩ c = (p.step (.scalar j)).bind (stepBetween · c) := by
      simp [State.step, hc, hj]
    rw [rest?_cons, hstep, Option.bind_assoc]
    simp only [rest?_cons]
    rfl

theorem stepBetween_letter {c : Char} (h : isWordChar c = true) (p : Progress) :
    stepBetween p c = some ⟨.word [c], p⟩ := by
  have hspace : isSpace c = false := by
    rw [Bool.eq_false_iff]
    intro hs
    simp only [isSpace, Bool.or_eq_true, decide_eq_true_eq] at hs
    rcases hs with ((rfl | rfl) | rfl) | rfl <;> cases h
  have hquote : c ≠ '"' := by
    rintro rfl
    cases h
  simp [stepBetween, hspace, hquote, h]

/-- A word is read as the value that it spells. -/
theorem rest?_word {w : List Char} {j : Json} (hw : ∀ c ∈ w, isWordChar c = true) (hne : w ≠ [])
    (hj : scalarOf? w = some j) {rest : List Char} (hrest : Apart rest) (p : Progress) :
    State.rest? ⟨.between, p⟩ (w ++ rest) =
      (p.step (.scalar j)).bind fun p => State.rest? ⟨.between, p⟩ rest := by
  obtain ⟨c, r, rfl⟩ := List.exists_cons_of_ne_nil hne
  obtain ⟨hc, hr⟩ := List.forall_mem_cons.1 hw
  have hstep : State.step ⟨.between, p⟩ c = some ⟨.word [c], p⟩ := stepBetween_letter hc p
  rw [List.cons_append, rest?_step hstep, rest?_letters hr]
  exact rest?_ended (by simpa using hj) hrest p

/-- The characters of an integer. -/
theorem mem_write_integer {n : Int} {c : Char} (h : c ∈ (Number.integer n).write) :
    c = '-' ∨ c.isDigit = true := by
  have digits {m : Nat} (h : c ∈ m.repr.toList) : c.isDigit = true := by
    rw [Nat.toList_repr] at h
    exact Nat.isDigit_of_mem_toDigits (by decide) (by decide) h
  rw [Number.write, Int.repr_eq_if] at h
  split at h
  · exact .inr (digits h)
  · rw [String.toList_append] at h
    rcases List.mem_append.1 h with h | h
    · exact .inl (List.mem_singleton.1 h)
    · exact .inr (digits h)

theorem isWordChar_write {n : Int} : ∀ c ∈ (Number.integer n).write, isWordChar c = true := by
  intro c hc
  obtain rfl | hc := mem_write_integer hc
  · rfl
  · simp [isWordChar, Char.isAlphanum, hc]

/-- An integer that a word can hold, with or without a sign, spells itself. -/
theorem scalarOf?_integer {n : Int} (hlow : -2 ^ 63 ≤ n) (hhigh : n < 2 ^ 64) :
    scalarOf? (Number.integer n).write = some (.number (.integer n)) := by
  have other {w : List Char} {c : Char} (hc : c ∈ w) (hsign : c ≠ '-')
      (hdigit : c.isDigit = false) : (Number.integer n).write ≠ w := by
    rintro rfl
    obtain h | h := mem_write_integer hc
    · exact hsign h
    · exact Bool.false_ne_true (hdigit.symm.trans h)
  rw [scalarOf?, if_neg (other (c := 'u') (by decide) (by decide) rfl),
    if_neg (other (c := 'u') (by decide) (by decide) rfl),
    if_neg (other (c := 's') (by decide) (by decide) rfl), read?_integer hlow hhigh]
  rfl

/-! ### Values -/

/-- A value whose numbers are all integers of 64 bits, with or without a sign. -/
inductive Integral : Json → Prop
  | null : Integral .null
  | bool (b : Bool) : Integral (.bool b)
  | number {n : Int} : -2 ^ 63 ≤ n → n < 2 ^ 64 → Integral (.number (.integer n))
  | text (s : String) : Integral (.text s)
  | array {items : List Json} : (∀ j ∈ items, Integral j) → Integral (.array items)
  | object {fields : List (String × Json)} : (∀ f ∈ fields, Integral f.2) →
    Integral (.object fields)

/-- A value is read as it is written, wherever one is expected and as deep as it may be. -/
def ReadsBack (j : Json) : Prop :=
  ∀ levels e rest, Expect.isValue e = true → levels.length + j.depth ≤ depthLimit → Apart rest →
    State.rest? ⟨.between, .within levels e⟩ (j.write ++ rest) =
      State.rest? ⟨.between, addValue j levels⟩ rest

variable {levels : List Level} {e : Expect}

theorem rest?_mark {c : Char} {m : Mark} (hc : markOf? c = some m) (p : Progress)
    (rest : List Char) : State.rest? ⟨.between, p⟩ (c :: rest) =
      (p.step m).bind fun p => State.rest? ⟨.between, p⟩ rest := by
  have hstep : State.step ⟨.between, p⟩ c = (p.step m).bind fun p => some ⟨.between, p⟩ := by
    unfold markOf? at hc
    split at hc <;> cases hc <;> rfl
  rw [rest?_cons, hstep, Option.bind_assoc]
  rfl

theorem readsBack_word {w : List Char} {j : Json} (hwrite : j.write = w)
    (hw : ∀ c ∈ w, isWordChar c = true) (hne : w ≠ []) (hj : scalarOf? w = some j) :
    ReadsBack j := by
  intro levels e rest he _ hrest
  have hstep : Progress.step (.within levels e) (.scalar j) = some (addValue j levels) := if_pos he
  rw [hwrite, rest?_word hw hne hj hrest, hstep, Option.bind_some]

theorem readsBack_number {n : Int} (hlow : -2 ^ 63 ≤ n) (hhigh : n < 2 ^ 64) :
    ReadsBack (.number (.integer n)) := by
  have hne : (Number.integer n).write ≠ [] := by
    intro h
    have hread := read?_integer hlow hhigh
    rw [h] at hread
    cases hread
  exact readsBack_word rfl isWordChar_write hne (scalarOf?_integer hlow hhigh)

theorem readsBack_text (s : String) : ReadsBack (.text s) := by
  intro levels e rest he _ _
  have hstep : Progress.step (.within levels e) (.text s) = some (addValue (.text s) levels) :=
    if_pos he
  rw [write, rest?_writeText, hstep, Option.bind_some]

/-- The items of an array, after those that have been read. -/
theorem rest?_items {items : List Json} (hread : ∀ j ∈ items, ReadsBack j) (hne : items ≠ [])
    (hdepth : levels.length + 1 + depthItems items ≤ depthLimit) (before : List Json)
    (he : e.isValue = true) (rest : List Char) :
    State.rest? ⟨.between, .within (.array before :: levels) e⟩
        (writeItems items ++ ']' :: rest) =
      State.rest? ⟨.between, addValue (.array (before.reverse ++ items)) levels⟩ rest := by
  induction items generalizing before e with
  | nil => exact absurd rfl hne
  | cons j r ih =>
    obtain ⟨hj, hr⟩ := List.forall_mem_cons.1 hread
    rw [depthItems] at hdepth
    have first {cs : List Char} (hcs : Apart cs) :
        State.rest? ⟨.between, .within (.array before :: levels) e⟩ (j.write ++ cs) =
          State.rest? ⟨.between, .within (.array (j :: before) :: levels) .separator⟩ cs :=
      hj (.array before :: levels) e cs he (by rw [List.length_cons]; omega) hcs
    have joined : (j :: before).reverse ++ r = before.reverse ++ j :: r := by simp
    cases r with
    | nil =>
      rw [writeItems, first (by rintro c ⟨⟩; rfl), rest?_mark (m := .closeArray) rfl, ← joined,
        List.append_nil]
      rfl
    | cons k r =>
      have next : State.rest? ⟨.between, .within (.array (j :: before) :: levels) .separator⟩
          (',' :: (writeItems (k :: r) ++ ']' :: rest)) =
          State.rest? ⟨.between, .within (.array (j :: before) :: levels) .value⟩
            (writeItems (k :: r) ++ ']' :: rest) := by
        rw [rest?_mark (m := .comma) rfl]
        rfl
      rw [writeItems, List.append_assoc, List.cons_append, first (by rintro c ⟨⟩; rfl), next,
        ih hr (List.cons_ne_nil _ _) (by omega) (j :: before) rfl, joined]
      exact List.cons_ne_nil _ _

/-- The fields of an object, after those that have been read. -/
theorem rest?_fields {fields : List (String × Json)} (hread : ∀ f ∈ fields, ReadsBack f.2)
    (hne : fields ≠ []) (hdepth : levels.length + 1 + depthFields fields ≤ depthLimit)
    (before : List (String × Json)) (key : String) (he : e = .key ∨ e = .keyOrClose)
    (rest : List Char) :
    State.rest? ⟨.between, .within (.object before key :: levels) e⟩
        (writeFields fields ++ '}' :: rest) =
      State.rest? ⟨.between, addValue (.object (before.reverse ++ fields)) levels⟩ rest := by
  induction fields generalizing before key e with
  | nil => exact absurd rfl hne
  | cons f r ih =>
    obtain ⟨name, j⟩ := f
    obtain ⟨hj, hr⟩ : j.ReadsBack ∧ ∀ f ∈ r, ReadsBack f.2 := List.forall_mem_cons.1 hread
    rw [depthFields] at hdepth
    have named : Progress.step (.within (.object before key :: levels) e) (.text name) =
        some (.within (.object before name :: levels) .colon) := by
      rcases he with rfl | rfl <;> rfl
    have first {cs : List Char} (hcs : Apart cs) :
        State.rest? ⟨.between, .within (.object before key :: levels) e⟩
            (writeText name ++ ':' :: (j.write ++ cs)) =
          State.rest? ⟨.between, .within (.object ((name, j) :: before) "" :: levels) .separator⟩
            cs := by
      rw [rest?_writeText, named, Option.bind_some, rest?_mark (m := .colon) rfl]
      exact hj (.object before name :: levels) .value cs rfl
        (by rw [List.length_cons]; omega) hcs
    have joined : ((name, j) :: before).reverse ++ r = before.reverse ++ (name, j) :: r := by simp
    cases r with
    | nil =>
      rw [writeFields, List.append_assoc, List.cons_append, first (by rintro c ⟨⟩; rfl),
        rest?_mark (m := .closeObject) rfl, ← joined, List.append_nil]
      rfl
    | cons g r =>
      have next : State.rest?
          ⟨.between, .within (.object ((name, j) :: before) "" :: levels) .separator⟩
          (',' :: (writeFields (g :: r) ++ '}' :: rest)) =
          State.rest? ⟨.between, .within (.object ((name, j) :: before) "" :: levels) .key⟩
            (writeFields (g :: r) ++ '}' :: rest) := by
        rw [rest?_mark (m := .comma) rfl]
        rfl
      rw [writeFields, List.append_assoc, List.cons_append, List.append_assoc, List.cons_append,
        first (by rintro c ⟨⟩; rfl), next,
        ih hr (List.cons_ne_nil _ _) (by omega) ((name, j) :: before) "" (.inl rfl), joined]
      exact List.cons_ne_nil _ _

theorem openLevel_eq (l : Level) (next : Expect) (h : levels.length < depthLimit) :
    openLevel l next levels = some (.within (l :: levels) next) := if_pos h

theorem readsBack_array {items : List Json} (h : ∀ j ∈ items, ReadsBack j) :
    ReadsBack (.array items) := by
  intro levels e rest he hdepth _
  rw [depth] at hdepth
  have hopen : Progress.step (.within levels e) .openArray =
      some (.within (.array [] :: levels) .valueOrClose) := by
    rw [Progress.step, if_pos he, openLevel_eq _ _ (by omega)]
  rw [write, List.cons_append, List.cons_append, List.append_assoc,
    rest?_mark (m := .openArray) rfl, hopen, Option.bind_some]
  by_cases hne : items = []
  · subst hne
    exact rest?_mark (m := .closeArray) rfl _ rest
  · exact rest?_items h hne (by omega) [] rfl rest

theorem readsBack_object {fields : List (String × Json)} (h : ∀ f ∈ fields, ReadsBack f.2) :
    ReadsBack (.object fields) := by
  intro levels e rest he hdepth _
  rw [depth] at hdepth
  have hopen : Progress.step (.within levels e) .openObject =
      some (.within (.object [] "" :: levels) .keyOrClose) := by
    rw [Progress.step, if_pos he, openLevel_eq _ _ (by omega)]
  rw [write, List.cons_append, List.cons_append, List.append_assoc,
    rest?_mark (m := .openObject) rfl, hopen, Option.bind_some]
  by_cases hne : fields = []
  · subst hne
    exact rest?_mark (m := .closeObject) rfl _ rest
  · exact rest?_fields h hne (by omega) [] "" (.inr rfl) rest

theorem Integral.readsBack {j : Json} (h : j.Integral) : j.ReadsBack := by
  induction h with
  | null => exact readsBack_word rfl (List.all_eq_true.1 rfl) (List.cons_ne_nil _ _) rfl
  | bool b =>
    cases b <;> exact readsBack_word rfl (List.all_eq_true.1 rfl) (List.cons_ne_nil _ _) rfl
  | number hlow hhigh => exact readsBack_number hlow hhigh
  | text s => exact readsBack_text s
  | array _ ih => exact readsBack_array ih
  | object _ ih => exact readsBack_object ih

/-- A value of integers that is not nested too deep is what its text is parsed as. -/
theorem Integral.parse?_toText {j : Json} (h : j.Integral) (hdepth : j.depth ≤ depthLimit) :
    parse? j.toText = some j := by
  have hread := h.readsBack [] .value [] rfl (by simpa using hdepth) (by rintro c ⟨⟩)
  rw [List.append_nil] at hread
  rw [parse?, toText, String.toList_ofList]
  exact hread

end StoryScript.Json
