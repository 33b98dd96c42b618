import Mathlib.Computability.Language
import StoryScript.Document.Lexeme

/-! The forms of numbers and identifiers as regular languages, put together from ranges of
characters by choice, sequence and repetition. The tests that a reader makes decide them. -/
namespace StoryScript
open scoped Computability

namespace Pattern

/-- The texts of one character from `a` to `z`. -/
def range (a z : Char) : Language Char := {w | ∃ c, (a ≤ c ∧ c ≤ z) ∧ w = [c]}

def only (c : Char) : Language Char := {w | w = [c]}

def digit : Language Char := range '0' '9'

/-- What a word begins with: `[A-Za-z_]`. -/
def start : Language Char := range 'A' 'Z' + range 'a' 'z' + only '_'

/-- What a word goes on with: `[A-Za-z0-9_]`. -/
def part : Language Char := range 'A' 'Z' + range 'a' 'z' + digit + only '_'

/-- One text of `l` or more. -/
def many (l : Language Char) : Language Char := l * l∗

/-- The numbers: `[+-]?([0-9]+(\.[0-9]*)?|\.[0-9]+)`. -/
def number : Language Char :=
  (1 + only '+' + only '-') * (many digit * (1 + only '.' * digit∗) + only '.' * many digit)

/-- The identifiers: `@[A-Za-z_][A-Za-z0-9_]*|\$\$|\$[0-9]+|[A-Za-z_][A-Za-z0-9_.]*`. -/
def identifier : Language Char :=
  only '@' * (start * part∗) + only '$' * only '$' + only '$' * many digit +
    start * (part + only '.')∗

/-- A language holds the one-character texts whose character passes a test, and no others. -/
def Spells (l : Language Char) (p : Char → Bool) : Prop :=
  ∀ w, w ∈ l ↔ ∃ c, p c = true ∧ w = [c]

variable {l m : Language Char} {p q : Char → Bool} {w r : List Char} {c : Char}

theorem Spells.add (hl : Spells l p) (hm : Spells m q) : Spells (l + m) fun c => p c || q c := by
  intro w
  simp only [Language.mem_add, hl w, hm w, Bool.or_eq_true]
  grind

theorem spells_only : Spells (only c) fun d => d = c := fun w => by
  change w = [c] ↔ _
  simp

theorem spells_range (a z : Char) : Spells (range a z) fun c => a ≤ c ∧ c ≤ z := by
  intro w
  simp only [decide_eq_true_eq]
  exact Iff.rfl

/-- A text of the class, then a text of `m`. -/
theorem Spells.mem_mul (hl : Spells l p) :
    w ∈ l * m ↔ ∃ c r, w = c :: r ∧ p c = true ∧ r ∈ m := by
  rw [Language.mem_mul]
  constructor
  · rintro ⟨a, ha, r, hr, rfl⟩
    obtain ⟨c, hc, rfl⟩ := (hl a).1 ha
    exact ⟨c, r, rfl, hc, hr⟩
  · rintro ⟨c, r, rfl, hc, hr⟩
    exact ⟨[c], (hl _).2 ⟨c, hc, rfl⟩, r, hr, rfl⟩

theorem Spells.mem_kstar (hl : Spells l p) : w ∈ l∗ ↔ w.all p = true := by
  rw [Language.mem_kstar]
  constructor
  · rintro ⟨texts, rfl, h⟩
    refine List.all_eq_true.2 fun c hc => ?_
    obtain ⟨t, ht, hc⟩ := List.mem_flatten.1 hc
    obtain ⟨d, hd, rfl⟩ := (hl t).1 (h t ht)
    rwa [List.mem_singleton.1 hc]
  · intro h
    refine ⟨w.map fun c => [c], (List.flatMap_singleton' w).symm, fun t ht => ?_⟩
    obtain ⟨c, hc, rfl⟩ := List.mem_map.1 ht
    exact (hl _).2 ⟨c, List.all_eq_true.1 h c hc, rfl⟩

theorem Spells.mem_many (hl : Spells l p) : w ∈ many l ↔ w ≠ [] ∧ w.all p = true := by
  rw [many, hl.mem_mul]
  cases w with
  | nil => simp
  | cons c r => simp [hl.mem_kstar]

/-! ### The classes of characters -/

theorem isDigit_iff : Numeral.isDigit c = true ↔ '0' ≤ c ∧ c ≤ '9' := by
  unfold Numeral.isDigit Numeral.digit?
  split <;> simp_all

theorem spells_digit : Spells digit Numeral.isDigit := fun w => by
  simp only [digit, spells_range '0' '9' w, isDigit_iff, decide_eq_true_eq]

theorem isUpper_iff : c.isUpper = true ↔ 'A' ≤ c ∧ c ≤ 'Z' := decide_eq_true_iff

theorem isLower_iff : c.isLower = true ↔ 'a' ≤ c ∧ c ≤ 'z' :=
  Bool.and_eq_true_iff.trans (and_congr decide_eq_true_iff decide_eq_true_iff)

theorem isAlpha_iff : c.isAlpha = true ↔ 'A' ≤ c ∧ c ≤ 'Z' ∨ 'a' ≤ c ∧ c ≤ 'z' :=
  Bool.or_eq_true_iff.trans (or_congr isUpper_iff isLower_iff)

theorem isAlphanum_iff : c.isAlphanum = true ↔
    ('A' ≤ c ∧ c ≤ 'Z' ∨ 'a' ≤ c ∧ c ≤ 'z') ∨ '0' ≤ c ∧ c ≤ '9' :=
  Bool.or_eq_true_iff.trans <| or_congr isAlpha_iff <|
    Bool.and_eq_true_iff.trans (and_congr decide_eq_true_iff decide_eq_true_iff)

theorem spells_start : Spells start isWordStart := fun w => by
  rw [start, ((spells_range 'A' 'Z').add (spells_range 'a' 'z')).add spells_only w]
  simp [isWordStart, isAlpha_iff]

theorem spells_part : Spells part isWordPart := fun w => by
  rw [part, (((spells_range 'A' 'Z').add (spells_range 'a' 'z')).add spells_digit).add
    spells_only w]
  simp [isWordPart, isAlphanum_iff, isDigit_iff]

/-! ### Numbers -/

/-- A number without its sign. -/
def unsigned : Language Char := many digit * (1 + only '.' * digit∗) + only '.' * many digit

theorem mem_unsigned : w ∈ unsigned ↔
    (∃ d, d ≠ [] ∧ d.all Numeral.isDigit = true ∧
      (w = d ∨ ∃ s, w = d ++ '.' :: s ∧ s.all Numeral.isDigit = true)) ∨
    ∃ s, w = '.' :: s ∧ s ≠ [] ∧ s.all Numeral.isDigit = true := by
  rw [unsigned, Language.mem_add, spells_only.mem_mul]
  simp only [spells_digit.mem_many, Language.mem_mul, Language.mem_add, Language.mem_one,
    spells_only.mem_mul, spells_digit.mem_kstar, decide_eq_true_eq]
  constructor
  · rintro (⟨d, ⟨hd, hall⟩, _, rfl | ⟨_, s, rfl, rfl, hs⟩, rfl⟩ | ⟨_, s, rfl, rfl, hs⟩)
    · exact .inl ⟨d, hd, hall, .inl (List.append_nil d)⟩
    · exact .inl ⟨d, hd, hall, .inr ⟨s, rfl, hs⟩⟩
    · exact .inr ⟨s, rfl, hs⟩
  · rintro (⟨d, hd, hall, rfl | ⟨s, rfl, hs⟩⟩ | ⟨s, rfl, hs⟩)
    · exact .inl ⟨w, ⟨hd, hall⟩, [], .inl rfl, List.append_nil w⟩
    · exact .inl ⟨d, ⟨hd, hall⟩, '.' :: s, .inr ⟨'.', s, rfl, rfl, hs⟩, rfl⟩
    · exact .inr ⟨'.', s, rfl, rfl, hs⟩

/-- What the test of a number does after the sign. -/
theorem mem_unsigned_iff : w ∈ unsigned ↔
    (match w.dropWhile Numeral.isDigit with
      | [] => !(w.takeWhile Numeral.isDigit).isEmpty
      | '.' :: s => s.all Numeral.isDigit && (!(w.takeWhile Numeral.isDigit).isEmpty || !s.isEmpty)
      | _ => false) = true := by
  have point : Numeral.isDigit '.' = false := rfl
  rw [mem_unsigned]
  constructor
  · rintro (⟨d, hd, hall, rfl | ⟨s, rfl, hs⟩⟩ | ⟨s, rfl, hne, hs⟩)
    · have hall := List.all_eq_true.1 hall
      rw [← List.append_nil w, List.dropWhile_append_of_pos hall, List.takeWhile_append_of_pos hall]
      simpa using hd
    · have hall := List.all_eq_true.1 hall
      rw [List.dropWhile_append_of_pos hall, List.takeWhile_append_of_pos hall]
      simp [point, hs, hd]
    · simp [point, hs, hne]
  · have hw := List.takeWhile_append_dropWhile (p := Numeral.isDigit) (l := w)
    have hall := List.all_takeWhile (p := Numeral.isDigit) (l := w)
    revert hw
    generalize w.takeWhile Numeral.isDigit = d at hall
    generalize w.dropWhile Numeral.isDigit = t
    rintro rfl h
    split at h
    · exact .inl ⟨d, by simpa using h, hall, .inl (List.append_nil d)⟩
    · rename_i s
      simp only [Bool.and_eq_true, Bool.or_eq_true, Bool.not_eq_true', List.isEmpty_eq_false_iff]
        at h
      by_cases hd : d = []
      · exact .inr ⟨s, by rw [hd]; rfl, h.2.resolve_left (absurd hd), h.1⟩
      · exact .inl ⟨d, hd, hall, .inr ⟨s, rfl, h.1⟩⟩
    · cases h

theorem mem_number : w ∈ number ↔ w ∈ unsigned ∨ ∃ r ∈ unsigned, w = '+' :: r ∨ w = '-' :: r := by
  rw [number, ← unsigned, add_mul, add_mul, one_mul, Language.mem_add, Language.mem_add,
    spells_only.mem_mul, spells_only.mem_mul]
  simp only [decide_eq_true_eq]
  grind

theorem sign_not_mem_unsigned (h : c = '+' ∨ c = '-') : c :: r ∉ unsigned := by
  rw [mem_unsigned_iff]
  rcases h with rfl | rfl <;> simp [Numeral.isDigit, Numeral.digit?]

theorem isNumeral_iff : isNumeral w = true ↔ w ∈ number := by
  rw [mem_number]
  unfold isNumeral
  refine mem_unsigned_iff.symm.trans ?_
  unfold Numeral.takeSign
  split
  · simp [sign_not_mem_unsigned]
  · simp [sign_not_mem_unsigned]
  · grind

/-! ### Identifiers -/

theorem isWord_iff : isWord w = true ↔ w ∈ start * part∗ := by
  rw [spells_start.mem_mul]
  cases w <;> simp [isWord, spells_part.mem_kstar]

theorem mem_only : w ∈ only c ↔ w = [c] := Iff.rfl

theorem isIdentifier_iff : isIdentifier w = true ↔ w ∈ identifier := by
  have global : isWordStart '@' = false := rfl
  have argument : isWordStart '$' = false := rfl
  simp only [identifier, Language.mem_add, spells_only.mem_mul, spells_start.mem_mul,
    spells_digit.mem_many, (spells_part.add spells_only).mem_kstar, mem_only]
  unfold isIdentifier
  split
  · simp [global, isWord_iff, spells_start.mem_mul]
  · simp [argument]
  · grind
  · simp

end Pattern
end StoryScript
