import StoryScript.Proofs.Widening
import StoryScript.Script.Datum

/-! Values that cross over to scripts and back. Every value is the value of its datum, vectors and
objects being told apart by the keys of their maps. A datum has no value exactly if a map is in it,
reached through arrays only, that is neither an object nor a vector. -/
namespace StoryScript.Script.Datum
open Numeral

/-! ### From values to data and back -/

theorem toValue_vector (v : Vector3) : (ofValue (.vector v)).toValue = .ok (.vector v) := by
  have hfields : valueOfFields? [("x", float (widen v.x)), ("y", float (widen v.y)),
      ("z", float (widen v.z))] = some (.vector ⟨narrow (widen v.x), narrow (widen v.y),
        narrow (widen v.z)⟩) := rfl
  rw [ofValue, toValue, hfields, narrow_widen, narrow_widen, narrow_widen]

/-- A handle comes back from the integer of the same bits. -/
theorem toValue_object (h : UInt64) : (ofValue (.object h)).toValue = .ok (.object h) := by
  have hfields : valueOfFields? [("handle", int h.toInt64)] =
      some (.object h.toInt64.toUInt64) := rfl
  rw [ofValue, toValue, hfields, UInt64.toUInt64_toInt64]

mutual
theorem toValue_ofValue : (v : Value) → (ofValue v).toValue = .ok v
  | .absent | .int _ | .float _ | .text _ => rfl
  | .vector v => toValue_vector v
  | .object h => toValue_object h
  | .list items => by
    rw [ofValue, toValue, toValues_ofValues items]
    rfl

theorem toValues_ofValues : (items : List Value) → toValues (ofValues items) = .ok items
  | [] => rfl
  | v :: r => by
    rw [ofValues, toValues, toValue_ofValue v, toValues_ofValues r]
    rfl
end

/-! ### Data without a value -/

/-- A datum is another, or is in it and reached through arrays only. -/
inductive Within (d : Datum) : Datum → Prop
  | self : Within d d
  | item {i : Datum} {items : List Datum} : i ∈ items → Within d i → Within d (array items)

inductive Numeric : Datum → Prop
  | int (n : Int64) : Numeric (int n)
  | float (x : Float) : Numeric (float x)

/-- The fields of an object. -/
def HasHandle (fields : List (String × Datum)) : Prop :=
  ∃ n, field? fields "handle" = some (int n)

/-- The fields of a vector. -/
def HasCoordinates (fields : List (String × Datum)) : Prop :=
  ∀ k ∈ ["x", "y", "z"], ∃ d, field? fields k = some d ∧ d.Numeric

variable {d : Datum} {items : List Datum} {fields : List (String × Datum)}

theorem isSome_int? : (int? d).isSome = true ↔ ∃ n, d = int n := by
  cases d <;> simp [int?]

theorem isSome_coordinate? : (coordinate? d).isSome = true ↔ d.Numeric := by
  constructor
  · intro h
    cases d with
    | int n => exact .int n
    | float x => exact .float x
    | _ => cases h
  · rintro (_ | _) <;> rfl

theorem isSome_handle? :
    ((field? fields "handle").bind int?).isSome = true ↔ HasHandle fields := by
  unfold HasHandle
  cases field? fields "handle" with
  | none => simp
  | some d => simp [isSome_int?]

theorem isSome_component? (k : String) :
    ((field? fields k).bind coordinate?).isSome = true ↔
      ∃ d, field? fields k = some d ∧ d.Numeric := by
  cases field? fields k with
  | none => simp
  | some d => simp [isSome_coordinate?]

/-- Fields have a value if they are those of an object or of a vector. -/
theorem isSome_valueOfFields? :
    (valueOfFields? fields).isSome = true ↔ HasHandle fields ∨ HasCoordinates fields := by
  have coordinates : HasCoordinates fields ↔
      ((field? fields "x").bind coordinate?).isSome = true ∧
        ((field? fields "y").bind coordinate?).isSome = true ∧
          ((field? fields "z").bind coordinate?).isSome = true := by
    simp [HasCoordinates, isSome_component?]
  rw [← isSome_handle?, coordinates, valueOfFields?]
  cases (field? fields "handle").bind int? with
  | some h => simp
  | none =>
    cases (field? fields "x").bind coordinate? <;> cases (field? fields "y").bind coordinate? <;>
      cases (field? fields "z").bind coordinate? <;> simp

theorem within_array : d.Within (array items) ↔ d = array items ∨ ∃ i ∈ items, d.Within i := by
  constructor
  · intro h
    cases h with
    | self => exact .inl rfl
    | item hi h => exact .inr ⟨_, hi, h⟩
  · rintro (rfl | ⟨i, hi, h⟩)
    · exact .self
    · exact .item hi h

/-- A map without a value is in a datum. -/
def Stuck (d : Datum) : Prop :=
  ∃ fields, (map fields).Within d ∧ ¬HasHandle fields ∧ ¬HasCoordinates fields

theorem stuck_map : (map fields).Stuck ↔ ¬HasHandle fields ∧ ¬HasCoordinates fields := by
  constructor
  · rintro ⟨_, ⟨⟩, h⟩
    exact h
  · exact fun h => ⟨fields, .self, h⟩

theorem stuck_array : (array items).Stuck ↔ ∃ i ∈ items, i.Stuck := by
  constructor
  · rintro ⟨fields, hin, h⟩
    obtain hself | ⟨i, hi, hin⟩ := within_array.1 hin
    · cases hself
    · exact ⟨i, hi, fields, hin, h⟩
  · rintro ⟨i, hi, fields, hin, h⟩
    exact ⟨fields, .item hi hin, h⟩

mutual
theorem toValue_error :
    (d : Datum) → (type : String) → (d.toValue = .error type ↔ type = "map" ∧ d.Stuck)
  | unit, _ | bool _, _ | int _, _ | float _, _ | text _, _ | char _, _ => by
    refine iff_of_false (by rintro ⟨⟩) ?_
    rintro ⟨-, fields, ⟨⟩, -⟩
  | array items, type => by
    rw [stuck_array, ← toValues_error items, toValue]
    cases toValues items <;> simp [Except.map]
  | map fields, type => by
    rw [stuck_map, ← not_or, ← isSome_valueOfFields?, toValue]
    cases valueOfFields? fields <;> simp [eq_comm]

theorem toValues_error : (items : List Datum) → (type : String) →
    (toValues items = .error type ↔ type = "map" ∧ ∃ d ∈ items, d.Stuck)
  | [], _ => by simp [toValues]
  | d :: r, type => by
    have hd := toValue_error d
    have hr := toValues_error r type
    rw [List.exists_mem_cons_iff, toValues]
    cases h : d.toValue with
    | error t =>
      obtain ⟨rfl, hstuck⟩ := (hd t).1 h
      simp [bind, Except.bind, hstuck, eq_comm]
    | ok v =>
      have hfine : type = "map" → ¬d.Stuck := by
        rintro rfl hstuck
        rw [(hd "map").2 ⟨rfl, hstuck⟩] at h
        cases h
      rw [and_or_left, ← hr, or_iff_right (fun h => hfine h.1 h.2)]
      cases toValues r <;> simp [bind, Except.bind, pure, Except.pure]
end

/-- A value survives the way to a script and back, whatever it is. A datum has no value exactly if
it is a map without an integer handle and without three coordinates, or if such a map is reached in
it through arrays only. -/
theorem values_cross : (∀ v, (ofValue v).toValue = .ok v) ∧
    ∀ d : Datum, (∃ type, d.toValue = .error type) ↔
      ∃ fields, (map fields).Within d ∧ ¬HasHandle fields ∧ ¬HasCoordinates fields := by
  refine ⟨toValue_ofValue, fun d => ?_⟩
  constructor
  · rintro ⟨type, h⟩
    exact ((toValue_error d type).1 h).2
  · intro h
    exact ⟨"map", (toValue_error d "map").2 ⟨rfl, h⟩⟩

example : (array [array [map [("x", int 1)]]]).toValue = .error "map" := by rfl

end StoryScript.Script.Datum
