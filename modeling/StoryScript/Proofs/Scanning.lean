import StoryScript.Proofs.Literals
import StoryScript.Script.Reference

/-! The references in the text of a script. Where a reference begins, the longest one is taken; any
other character stands for itself. The reader that goes over the text one character at a time finds
the same references. -/
namespace StoryScript.Script
open Numeral

/-- The texts of references. An argument whose index is too large is read as the first one. -/
inductive Spells : List Char → Segment → Prop
  | variable {name : List Char} : isWord name = true → Spells ('@' :: name) (.variable name)
  | iterator : Spells ['$', '$'] .iterator
  | argument {ds : List Char} : ds ≠ [] → ds.all isDigit = true → decimal ds < 2 ^ 64 →
    Spells ('$' :: ds) (.argument (decimal ds))
  | overlong {ds : List Char} : ds ≠ [] → ds.all isDigit = true → 2 ^ 64 ≤ decimal ds →
    Spells ('$' :: ds) (.argument 0)

/-- A text is taken apart into references and characters from left to right. No reference that
begins at the same place is longer than the one that is taken. -/
inductive Scans : List Char → List Segment → Prop
  | nil : Scans [] []
  | reference {w r : List Char} {s : Segment} {ss : List Segment} : Spells w s →
    (∀ v t s', w ++ r = v ++ t → Spells v s' → v.length ≤ w.length) → Scans r ss →
    Scans (w ++ r) (s :: ss)
  | plain {c : Char} {r : List Char} {ss : List Segment} :
    (∀ w t s, c :: r = w ++ t → ¬Spells w s) → Scans r ss → Scans (c :: r) (.plain c :: ss)

variable {c d : Char} {cs ds r w : List Char} {s : Segment} {ss : List Segment}

/-! ### Steps of the reader -/

theorem segmentsFrom_name (read r : List Char) : segmentsFrom (.name read) r =
    .variable (read.reverse ++ r.takeWhile isWordPart) :: segmentsOf (r.dropWhile isWordPart) := by
  induction r generalizing read with
  | nil => simp [segmentsFrom, segmentsOf, Pending.flush]
  | cons c r ih =>
    by_cases hc : isWordPart c = true
    · simp [segmentsFrom, Pending.step, hc, ih]
    · simp [segmentsFrom, segmentsOf, Pending.step, Pending.flush, hc]

theorem segmentsFrom_digits (read r : List Char) : segmentsFrom (.digits read) r =
    .argument (argumentIndex (read.reverse ++ r.takeWhile isDigit)) ::
      segmentsOf (r.dropWhile isDigit) := by
  induction r generalizing read with
  | nil => simp [segmentsFrom, segmentsOf, Pending.flush]
  | cons c r ih =>
    by_cases hc : isDigit c = true
    · simp [segmentsFrom, Pending.step, hc, ih]
    · simp [segmentsFrom, segmentsOf, Pending.step, Pending.flush, hc]

theorem segmentsOf_variable (h : isWordStart c = true) (r : List Char) :
    segmentsOf ('@' :: c :: r) =
      .variable (c :: r.takeWhile isWordPart) :: segmentsOf (r.dropWhile isWordPart) := by
  simp [segmentsOf, segmentsFrom, Pending.step, opening, h, segmentsFrom_name]

theorem segmentsOf_iterator (r : List Char) :
    segmentsOf ('$' :: '$' :: r) = .iterator :: segmentsOf r := by
  simp [segmentsOf, segmentsFrom, Pending.step, opening]

theorem segmentsOf_argument (h : isDigit c = true) (r : List Char) :
    segmentsOf ('$' :: c :: r) =
      .argument (argumentIndex (c :: r.takeWhile isDigit)) :: segmentsOf (r.dropWhile isDigit) := by
  have hc : c ≠ '$' := by rintro rfl; cases h
  simp [segmentsOf, segmentsFrom, Pending.step, opening, h, hc, segmentsFrom_digits]

/-- A character with which no reference begins. -/
def Stands (c : Char) (r : List Char) : Prop :=
  (c = '@' → ∀ d ∈ r.head?, isWordStart d = false) ∧
  (c = '$' → ∀ d ∈ r.head?, d ≠ '$' ∧ isDigit d = false)

theorem segmentsOf_plain (h : Stands c r) : segmentsOf (c :: r) = .plain c :: segmentsOf r := by
  by_cases hat : c = '@'
  · subst hat
    cases r with
    | nil => rfl
    | cons d r =>
      have hd := h.1 rfl d rfl
      simp [segmentsOf, segmentsFrom, Pending.step, Pending.flush, opening, hd]
  · by_cases hdollar : c = '$'
    · subst hdollar
      cases r with
      | nil => rfl
      | cons d r =>
        have hd := h.2 rfl d rfl
        simp [segmentsOf, segmentsFrom, Pending.step, Pending.flush, opening, hd]
    · simp [segmentsOf, segmentsFrom, Pending.step, opening, hat, hdollar]

/-! ### The longest references -/

theorem spells_argument (hne : ds ≠ []) (h : ds.all isDigit = true) :
    Spells ('$' :: ds) (.argument (argumentIndex ds)) := by
  rw [argumentIndex, readIndex?_digits hne h]
  split
  · next hlt => exact .argument hne h hlt
  · next hle => exact .overlong hne h (Nat.not_lt.1 hle)

theorem Spells.unique {s' : Segment} (h : Spells w s) (h' : Spells w s') : s = s' := by
  cases h with
  | «variable» => cases h'; rfl
  | iterator =>
    cases h' with
    | iterator => rfl
    | argument _ hall | overlong _ hall => cases hall
  | argument _ hall hlt =>
    cases h' with
    | iterator => cases hall
    | argument => rfl
    | overlong _ _ hle => exact absurd hlt (Nat.not_lt.2 hle)
  | overlong _ hall hle =>
    cases h' with
    | iterator => cases hall
    | argument _ _ hlt => exact absurd hlt (Nat.not_lt.2 hle)
    | overlong => rfl

theorem length_le_takeWhile {p : Char → Bool} {t : List Char} (hr : r = w ++ t)
    (h : w.all p = true) : w.length ≤ (r.takeWhile p).length := by
  rw [hr, List.takeWhile_append_of_pos (List.all_eq_true.1 h), List.length_append]
  exact Nat.le_add_right _ _

theorem Spells.length_le_name {t : List Char} (h : Spells w s) (hr : '@' :: c :: r = w ++ t) :
    w.length ≤ ('@' :: c :: r.takeWhile isWordPart).length := by
  cases h with
  | @«variable» name hname =>
    cases name with
    | nil => cases hname
    | cons d name =>
      simp only [isWord, Bool.and_eq_true] at hname
      simp only [List.cons_append, List.cons.injEq] at hr
      simpa using length_le_takeWhile hr.2.2 hname.2
  | iterator | argument | overlong => cases hr

theorem Spells.length_le_digits {t : List Char} (h : Spells w s) (hr : '$' :: c :: r = w ++ t)
    (hc : isDigit c = true) : w.length ≤ ('$' :: c :: r.takeWhile isDigit).length := by
  have digits {ds : List Char} (hr : '$' :: c :: r = '$' :: ds ++ t) (hall : ds.all isDigit = true) :
      ('$' :: ds).length ≤ ('$' :: c :: r.takeWhile isDigit).length := by
    have hle := length_le_takeWhile (List.cons.inj hr).2 hall
    rw [List.takeWhile_cons_of_pos hc] at hle
    exact Nat.succ_le_succ hle
  cases h with
  | «variable» => cases hr
  | iterator => simp
  | argument _ hall | overlong _ hall => exact digits hr hall

theorem Spells.length_le_iterator {t : List Char} (h : Spells w s)
    (hr : '$' :: '$' :: r = w ++ t) : w.length ≤ 2 := by
  cases h with
  | «variable» => cases hr
  | iterator => rfl
  | @argument ds hne hall | @overlong ds hne hall =>
    cases ds with
    | nil => exact absurd rfl hne
    | cons d ds =>
      cases hr
      cases hall

theorem Stands.not_spells {t : List Char} (h : Stands c r) (hr : c :: r = w ++ t) :
    ¬Spells w s := by
  have digits {ds : List Char} (hr : c :: r = '$' :: ds ++ t) (hne : ds ≠ []) :
      ¬ds.all isDigit = true := by
    cases ds with
    | nil => exact absurd rfl hne
    | cons d ds =>
      cases hr
      have hd := (h.2 rfl d rfl).2
      simp [hd]
  intro hs
  cases hs with
  | @«variable» name hname =>
    cases name with
    | nil => cases hname
    | cons d name =>
      cases hr
      have hd := h.1 rfl d rfl
      simp [isWord, hd] at hname
  | iterator =>
    cases hr
    exact (h.2 rfl '$' rfl).1 rfl
  | argument hne hall | overlong hne hall => exact digits hr hne hall

/-! ### Scanning -/

theorem exists_of_not_stands (h : ¬Stands c r) : ∃ d r', r = d :: r' ∧
    (c = '@' ∧ isWordStart d = true ∨ c = '$' ∧ d = '$' ∨ c = '$' ∧ isDigit d = true) := by
  cases r with
  | nil => exact absurd ⟨nofun, nofun⟩ h
  | cons d r =>
    refine ⟨d, r, rfl, ?_⟩
    by_contra hnone
    apply h
    constructor
    · rintro rfl _ ⟨⟩
      simpa using hnone
    · rintro rfl _ ⟨⟩
      simpa using hnone

theorem scans_segmentsOf (cs : List Char) : Scans cs (segmentsOf cs) := by
  induction hn : cs.length using Nat.strong_induction_on generalizing cs with
  | h n ih =>
    cases cs with
    | nil => exact .nil
    | cons c r =>
      have rest {t : List Char} (ht : t.length ≤ r.length) : Scans t (segmentsOf t) :=
        ih t.length (by rw [← hn, List.length_cons]; omega) t rfl
      by_cases h : Stands c r
      · rw [segmentsOf_plain h]
        exact .plain (fun w t s hr => h.not_spells hr) (rest le_rfl)
      · obtain ⟨d, r, rfl, ⟨rfl, hd⟩ | ⟨rfl, rfl⟩ | ⟨rfl, hd⟩⟩ := exists_of_not_stands h
        · have hword : isWord (d :: r.takeWhile isWordPart) = true := by
            rw [isWord, hd, Bool.true_and, List.all_takeWhile]
          have hr : '@' :: d :: r =
              ('@' :: d :: r.takeWhile isWordPart) ++ r.dropWhile isWordPart := by simp
          rw [segmentsOf_variable hd]
          conv_lhs => rw [hr]
          exact .reference (.variable hword) (fun v t s hv hs => hs.length_le_name (hr.trans hv))
            (rest (Nat.le_succ_of_le (List.dropWhile_suffix _).length_le))
        · rw [segmentsOf_iterator]
          exact .reference (w := ['$', '$']) .iterator
            (fun v t s hv hs => hs.length_le_iterator hv) (rest (Nat.le_succ _))
        · have hdigits : (d :: r.takeWhile isDigit).all isDigit = true := by
            rw [List.all_cons, hd, Bool.true_and, List.all_takeWhile]
          have hr : '$' :: d :: r =
              ('$' :: d :: r.takeWhile isDigit) ++ r.dropWhile isDigit := by simp
          rw [segmentsOf_argument hd]
          conv_lhs => rw [hr]
          exact .reference (spells_argument (by simp) hdigits)
            (fun v t s hv hs => hs.length_le_digits (hr.trans hv) hd)
            (rest (Nat.le_succ_of_le (List.dropWhile_suffix _).length_le))

theorem Scans.unique {ss' : List Segment} (h : Scans cs ss) (h' : Scans cs ss') : ss = ss' := by
  induction h generalizing ss' with
  | nil =>
    generalize hcs : ([] : List Char) = cs at h'
    cases h' with
    | nil => rfl
    | reference hw =>
      obtain ⟨rfl, -⟩ := List.append_eq_nil_iff.1 hcs.symm
      cases hw
    | plain => cases hcs
  | @reference w r s ss hw hlong _ ih =>
    generalize hcs : w ++ r = cs at h'
    cases h' with
    | nil =>
      obtain ⟨rfl, -⟩ := List.append_eq_nil_iff.1 hcs
      cases hw
    | @reference w' r' s' ss' hw' hlong' h' =>
      have hlength := Nat.le_antisymm (hlong' w r s hcs.symm hw) (hlong w' r' s' hcs hw')
      obtain ⟨rfl, rfl⟩ := List.append_inj hcs hlength
      rw [hw.unique hw', ih h']
    | plain hnone => exact absurd hw (hnone w r s hcs.symm)
  | @plain c r ss hnone _ ih =>
    generalize hcs : c :: r = cs at h'
    cases h' with
    | nil => cases hcs
    | @reference w' r' s' ss' hw' => exact absurd hw' (hnone w' r' s' hcs)
    | plain _ h' =>
      cases hcs
      rw [ih h']

/-- The reader finds the references of the scan. -/
theorem scans_iff : Scans cs ss ↔ segmentsOf cs = ss := by
  constructor
  · exact fun h => (scans_segmentsOf cs).unique h
  · rintro rfl
    exact scans_segmentsOf cs

example : segmentsOf "@@a$$$07".toList =
    [.plain '@', .variable ['a'], .iterator, .argument 7] := by decide +kernel

end StoryScript.Script
