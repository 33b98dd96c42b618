/-! Finite tables keyed by text. The keys of a table ascend, so two tables with the same
entries are equal whatever the order in which the entries were made. -/
namespace StoryScript

/-- The sum of a number over the items of a list. -/
def sumOf {α : Type} (f : α → Nat) : List α → Nat
  | [] => 0
  | x :: r => f x + sumOf f r

/-- A finite map from text, kept as entries with ascending keys. -/
structure Table (α : Type) where
  entries : List (String × α)
  ascending : entries.Pairwise (·.1 < ·.1)

namespace Table
variable {α β : Type}

instance : EmptyCollection (Table α) := ⟨⟨[], .nil⟩⟩
instance : Inhabited (Table α) := ⟨∅⟩

instance [DecidableEq α] : DecidableEq (Table α) := fun s t =>
  decidable_of_iff (s.entries = t.entries) ⟨fun h => by cases s; cases t; cases h; rfl, (· ▸ rfl)⟩

@[ext] theorem ext {s t : Table α} (h : s.entries = t.entries) : s = t := by
  cases s; cases t; cases h; rfl

def lookup (k : String) : List (String × α) → Option α
  | [] => none
  | (j, v) :: r => if j = k then some v else lookup k r

/-- Puts an entry at its place among ascending entries, over an entry of the same key. -/
def place (k : String) (v : α) : List (String × α) → List (String × α)
  | [] => [(k, v)]
  | (j, w) :: r =>
    if k < j then (k, v) :: (j, w) :: r
    else if k = j then (k, v) :: r
    else (j, w) :: place k v r

theorem mem_place {k : String} {v : α} {l : List (String × α)} {e : String × α}
    (h : e ∈ place k v l) : e = (k, v) ∨ e ∈ l := by
  induction l with
  | nil => simpa [place] using h
  | cons d r ih =>
    simp only [place] at h
    split at h
    · simpa using h
    · split at h
      · rcases List.mem_cons.1 h with h | h
        · exact .inl h
        · exact .inr (List.mem_cons_of_mem _ h)
      · rcases List.mem_cons.1 h with h | h
        · exact .inr (h ▸ List.mem_cons_self)
        · exact (ih h).imp id (List.mem_cons_of_mem _)

theorem ascending_place (k : String) (v : α) {l : List (String × α)}
    (h : l.Pairwise (·.1 < ·.1)) : (place k v l).Pairwise (·.1 < ·.1) := by
  induction l with
  | nil => simp [place]
  | cons d r ih =>
    obtain ⟨hd, hr⟩ := List.pairwise_cons.1 h
    simp only [place]
    split
    · next hk =>
      refine List.pairwise_cons.2 ⟨fun e he => ?_, h⟩
      rcases List.mem_cons.1 he with rfl | he
      · exact hk
      · exact String.lt_trans hk (hd e he)
    · split
      · next hk => exact List.pairwise_cons.2 ⟨fun e he => hk ▸ hd e he, hr⟩
      · next hlt hne =>
        refine List.pairwise_cons.2 ⟨fun e he => ?_, ih hr⟩
        rcases mem_place he with rfl | he
        · exact Std.not_le.1 fun hle => hne (String.le_antisymm hle (String.not_lt.1 hlt))
        · exact hd e he

def find? (t : Table α) (k : String) : Option α := lookup k t.entries

def contains (t : Table α) (k : String) : Bool := (t.find? k).isSome

/-- The table with a value at a key, in the place of one that was there. -/
def insert (t : Table α) (k : String) (v : α) : Table α :=
  ⟨place k v t.entries, ascending_place k v t.ascending⟩

def erase (t : Table α) (k : String) : Table α :=
  ⟨t.entries.filter (·.1 ≠ k), t.ascending.filter _⟩

/-- The table with every value replaced. -/
def map (f : String → α → β) (t : Table α) : Table β :=
  ⟨t.entries.map fun e => (e.1, f e.1 e.2), List.pairwise_map.2 t.ascending⟩

/-- The table of the entries that a test keeps. -/
def filter (p : String → α → Bool) (t : Table α) : Table α :=
  ⟨t.entries.filter fun e => p e.1 e.2, t.ascending.filter _⟩

def keys (t : Table α) : List String := t.entries.map (·.1)

def size (t : Table α) : Nat := t.entries.length

/-- The table of a list of entries, the last of a key winning. -/
def ofList (l : List (String × α)) : Table α := l.foldl (fun t e => t.insert e.1 e.2) ∅

theorem lookup_place (k j : String) (v : α) (l : List (String × α)) :
    lookup j (place k v l) = if j = k then some v else lookup j l := by
  induction l with
  | nil => simp [place, lookup, eq_comm]
  | cons d r ih =>
    obtain ⟨i, w⟩ := d
    simp only [place]
    split
    · simp only [lookup, eq_comm (a := k)]
    · split
      · next h => subst h; by_cases hj : k = j <;> simp [lookup, hj, eq_comm (a := j)]
      · next h =>
        simp only [lookup, ih]
        by_cases hi : i = j
        · simp [hi, show j ≠ k from fun e => h (e ▸ hi.symm)]
        · simp [hi]

@[simp] theorem find?_empty (k : String) : (∅ : Table α).find? k = none := rfl

theorem find?_insert (t : Table α) (k j : String) (v : α) :
    (t.insert k v).find? j = if j = k then some v else t.find? j :=
  lookup_place k j v t.entries

@[simp] theorem find?_insert_self (t : Table α) (k : String) (v : α) :
    (t.insert k v).find? k = some v := by simp [find?_insert]

theorem lookup_filter_ne (k j : String) (l : List (String × α)) :
    lookup j (l.filter (·.1 ≠ k)) = if j = k then none else lookup j l := by
  induction l with
  | nil => simp [lookup]
  | cons d r ih =>
    obtain ⟨i, w⟩ := d
    by_cases hi : i = k
    · subst hi
      simp only [List.filter_cons, ne_eq, not_true_eq_false, decide_false, Bool.false_eq_true,
        if_false]
      rw [ih]
      by_cases hj : j = i
      · simp [hj]
      · simp [hj, lookup, eq_comm (a := i)]
    · simp only [List.filter_cons, ne_eq, hi, not_false_eq_true, decide_true, if_true, lookup]
      rw [ih]
      by_cases hj : j = k
      · simp [hj, hi]
      · simp [hj]

theorem find?_erase (t : Table α) (k j : String) :
    (t.erase k).find? j = if j = k then none else t.find? j :=
  lookup_filter_ne k j t.entries

theorem mem_keys (t : Table α) (k : String) :
    k ∈ t.keys ↔ t.contains k = true := by
  obtain ⟨entries, hascending⟩ := t
  simp only [keys, contains, find?]
  clear hascending
  induction entries with
  | nil => simp [lookup]
  | cons e r ih =>
    by_cases he : e.1 = k
    · simp [lookup, he]
    · simpa [lookup, he, Ne.symm he] using ih

theorem nodup_keys (t : Table α) : t.keys.Nodup := by
  have h : t.keys.Pairwise (· < ·) := List.pairwise_map.2 t.ascending
  apply h.imp
  rintro a _ hlt rfl
  exact String.lt_irrefl a hlt

theorem mem_of_find? {t : Table α} {k : String} {v : α} (h : t.find? k = some v) :
    (k, v) ∈ t.entries := by
  obtain ⟨entries, hascending⟩ := t
  simp only [find?] at h ⊢
  clear hascending
  induction entries with
  | nil => cases h
  | cons e r ih =>
    rw [lookup] at h
    split at h
    · next he =>
      cases h
      exact he ▸ .head _
    · exact .tail _ (ih h)

theorem find?_of_mem {t : Table α} {k : String} {v : α} (h : (k, v) ∈ t.entries) :
    t.find? k = some v := by
  obtain ⟨entries, hascending⟩ := t
  simp only [find?] at h ⊢
  induction entries with
  | nil => cases h
  | cons e r ih =>
    obtain ⟨he, hr⟩ := List.pairwise_cons.1 hascending
    rw [lookup]
    rcases List.mem_cons.1 h with rfl | h
    · exact if_pos rfl
    · have hlt : e.1 < k := he (k, v) h
      have hne : e.1 ≠ k := fun heq => String.lt_irrefl k (heq ▸ hlt)
      rw [if_neg hne]
      exact ih hr h

/-! ### Totals -/

/-- The sum of a number over all entries. -/
def total (f : α → Nat) (t : Table α) : Nat := sumOf (fun e => f e.2) t.entries

theorem lookup_eq_none_of_lt {k : String} {l : List (String × α)} (h : ∀ e ∈ l, k < e.1) :
    lookup k l = none := by
  induction l with
  | nil => rfl
  | cons d r ih =>
    have hk : d.1 ≠ k := fun e => String.lt_irrefl k (e ▸ h d List.mem_cons_self)
    simp [lookup, hk, ih fun e he => h e (List.mem_cons_of_mem _ he)]

theorem sum_place (f : α → Nat) {k : String} {v w : α} {l : List (String × α)}
    (hl : l.Pairwise (·.1 < ·.1)) (h : lookup k l = some v) :
    sumOf (fun e => f e.2) (place k w l) + f v = sumOf (fun e => f e.2) l + f w := by
  induction l with
  | nil => simp [lookup] at h
  | cons d r ih =>
    obtain ⟨hd, hr⟩ := List.pairwise_cons.1 hl
    simp only [place]
    split
    · next hk =>
      have : lookup k (d :: r) = none := lookup_eq_none_of_lt fun e he => by
        rcases List.mem_cons.1 he with rfl | he
        · exact hk
        · exact String.lt_trans hk (hd e he)
      simp [this] at h
    · split
      · next hk =>
        simp only [lookup, hk, if_true, Option.some.injEq] at h
        simp only [sumOf, h]
        omega
      · next hk =>
        have hk' : d.1 ≠ k := fun e => hk e.symm
        simp only [lookup, hk', if_false] at h
        simp only [sumOf]
        have := ih hr h
        omega

theorem total_insert (f : α → Nat) {t : Table α} {k : String} {v : α} (w : α)
    (h : t.find? k = some v) : (t.insert k w).total f + f v = t.total f + f w :=
  sum_place f t.ascending h

end Table
end StoryScript
