import StoryScript.Proofs.Written
import StoryScript.Value.Json

/-! Values that come back from their JSON. A value is written without a mark of its type, and a record
may be written as an array of its fields: a list of one natural is then read as an object, and a list
of three integers as a vector. A value without floats and vectors comes back from its text unless
there is such a list in it, however deep. -/
namespace StoryScript.Value
open Numeral

/-- A value that no float and no vector is in. -/
inductive Plain : Value → Prop
  | absent : Plain absent
  | int (n : Int64) : Plain (int n)
  | text (s : String) : Plain (text s)
  | object (h : UInt64) : Plain (object h)
  | list {items : List Value} : (∀ v ∈ items, Plain v) → Plain (list items)

/-- The lists of integers that are also the fields of an object or of a vector. -/
def Captured : List Value → Prop
  | [int n] => 0 ≤ n.toInt
  | [int _, int _, int _] => True
  | _ => False

/-- A list that a value is, or that is somewhere in it. -/
inductive Has (items : List Value) : Value → Prop
  | self : Has items (list items)
  | inside {v : Value} {members : List Value} : v ∈ members → Has items v →
    Has items (list members)

variable {v : Value} {items : List Value}

/-! ### The JSON of plain values -/

theorem toJsons_eq_map (items : List Value) : toJsons items = items.map toJson := by
  induction items with
  | nil => rfl
  | cons v r ih => rw [toJsons, ih, List.map_cons]

theorem Plain.integral (h : v.Plain) : v.toJson.Integral := by
  induction h with
  | absent => exact .null
  | int n =>
    have hlow := n.le_toInt
    have hhigh := n.toInt_lt
    exact .number hlow (by omega)
  | text s => exact .text s
  | object h =>
    have hlt := h.toNat_lt
    refine .object fun f hf => ?_
    rw [List.mem_singleton.1 hf]
    exact .number (by omega) (by omega)
  | list _ ih =>
    rw [toJson, toJsons_eq_map]
    refine .array fun j hj => ?_
    obtain ⟨v, hv, rfl⟩ := List.mem_map.1 hj
    exact ih v hv

/-- A plain value is read as a coordinate if it is an integer. -/
theorem Plain.isSome_single? (h : v.Plain) : v.toJson.single?.isSome = true ↔ ∃ n, v = .int n := by
  cases h <;> simp [toJson, Json.ofInt, Json.single?]

/-- A plain value is read as a handle if it is a natural. -/
theorem Plain.isSome_word? (h : v.Plain) :
    v.toJson.word?.isSome = true ↔ ∃ n, v = .int n ∧ 0 ≤ n.toInt := by
  cases h with
  | int n =>
    have hlt := n.toInt_lt
    have hfits : 0 ≤ n.toInt → n.toInt < (Nat.pow 2 64 : Nat) := by
      intro _
      have hpow : Nat.pow 2 64 = 2 ^ 64 := rfl
      omega
    simpa [toJson, Json.ofInt, Json.word?] using hfits
  | absent | text | object | list => simp [toJson, Json.word?]

/-! ### Lists that are read as records -/

theorem isSome_vector?_array (js : List Json) :
    (Json.array js).vector?.isSome = true ↔
      ∃ x y z, js = [x, y, z] ∧ x.single?.isSome = true ∧ y.single?.isSome = true ∧
        z.single?.isSome = true := by
  match js with
  | [] | [_] | [_, _] | _ :: _ :: _ :: _ :: _ => simp [Json.vector?, Json.record?]
  | [x, y, z] =>
    cases hx : x.single? <;> cases hy : y.single? <;> cases hz : z.single? <;>
      simp [Json.vector?, Json.record?, Vector3.ofList?, hx, hy, hz]

theorem isSome_handle?_array (js : List Json) :
    (Json.array js).handle?.isSome = true ↔ ∃ h, js = [h] ∧ h.word?.isSome = true := by
  match js with
  | [] | _ :: _ :: _ => simp [Json.handle?, Json.record?]
  | [h] => simp [Json.handle?, Json.record?]

theorem isSome_ofRecord? (j : Json) :
    (ofRecord? j).isSome = true ↔ j.vector?.isSome = true ∨ j.handle?.isSome = true := by
  cases h : j.vector? <;> simp [ofRecord?, h]

theorem captured_one (v : Value) : Captured [v] ↔ ∃ n, v = int n ∧ 0 ≤ n.toInt := by
  cases v <;> simp [Captured]

theorem captured_three (u v w : Value) :
    Captured [u, v, w] ↔ (∃ n, u = int n) ∧ (∃ n, v = int n) ∧ ∃ n, w = int n := by
  cases u <;> cases v <;> cases w <;> simp [Captured]

/-- The captured lists are those that are read as a record. -/
theorem isSome_ofRecord?_toJsons (h : ∀ v ∈ items, v.Plain) :
    (ofRecord? (.array (toJsons items))).isSome = true ↔ Captured items := by
  rw [isSome_ofRecord?, isSome_vector?_array, isSome_handle?_array, toJsons_eq_map]
  match items with
  | [] | [_, _] | _ :: _ :: _ :: _ :: _ => simp [Captured]
  | [v] =>
    have hv := (h v (by simp)).isSome_word?
    simp [captured_one, hv]
  | [u, v, w] =>
    have hu := (h u (by simp)).isSome_single?
    have hv := (h v (by simp)).isSome_single?
    have hw := (h w (by simp)).isSome_single?
    simp [captured_three, hu, hv, hw]

theorem ofRecord?_ne_list (j : Json) (items : List Value) : ofRecord? j ≠ some (list items) := by
  unfold ofRecord?
  cases j.vector? <;> simp

theorem ofJsons?_toJsons :
    ofJsons? (toJsons items) = some items ↔ ∀ v ∈ items, ofJson? v.toJson = some v := by
  induction items with
  | nil => simp [toJsons, ofJsons?]
  | cons v r ih =>
    cases hv : ofJson? v.toJson <;> cases hr : ofJsons? (toJsons r) <;>
      simp_all [toJsons, ofJsons?]

theorem has_list {members : List Value} :
    Has items (list members) ↔ items = members ∨ ∃ v ∈ members, Has items v := by
  constructor
  · intro h
    cases h with
    | self => exact .inl rfl
    | inside hv h => exact .inr ⟨_, hv, h⟩
  · rintro (rfl | ⟨v, hv, h⟩)
    · exact .self
    · exact .inside hv h

/-- A list of plain values comes back if it is not captured and its members come back. -/
theorem ofJson?_toJson_list (h : ∀ v ∈ items, v.Plain) :
    ofJson? (list items).toJson = some (list items) ↔
      ¬Captured items ∧ ∀ v ∈ items, ofJson? v.toJson = some v := by
  rw [← isSome_ofRecord?_toJsons h, ← ofJsons?_toJsons, toJson, ofJson?]
  cases hr : ofRecord? (.array (toJsons items)) with
  | none => cases ofJsons? (toJsons items) <;> simp
  | some v =>
    have hne : v ≠ list items := by
      rintro rfl
      exact ofRecord?_ne_list _ _ hr
    simp [hne]

/-! ### Values that come back -/

theorem ofJson?_toJson_int (n : Int64) : ofJson? (int n).toJson = some (int n) := by
  have hfits : fitsInt64 n.toInt = true := (fitsInt64_iff _).2 ⟨n.le_toInt, n.toInt_lt⟩
  have hread : ofInteger n.toInt = int n := by
    rw [ofInteger, if_pos hfits, Int64.ofInt_toInt]
  rw [toJson, Json.ofInt, ofJson?, hread]

theorem word?_toNat (h : UInt64) : (Json.ofNat h.toNat).word? = some h := by
  have hlt := h.toNat_lt
  have hpow : Nat.pow 2 64 = 2 ^ 64 := rfl
  have hfits : (0 : Int) ≤ h.toNat ∧ (h.toNat : Int) < Nat.pow 2 64 := by omega
  rw [Json.ofNat, Json.word?, if_pos hfits, Int.toNat_natCast, UInt64.ofNat_toNat]

theorem ofJson?_handle (j : Json) :
    ofJson? (.object [("handle", j)]) = j.word?.map object := by
  simp [ofJson?, ofRecord?, Json.vector?, Json.handle?, Json.record?]

/-- A plain value is read from its JSON as itself if no list in it is captured. -/
theorem Plain.ofJson?_toJson (h : v.Plain) :
    ofJson? v.toJson = some v ↔ ∀ items, v.Has items → ¬Captured items := by
  have scalar {v : Value} (hread : ofJson? v.toJson = some v) (hnone : ∀ items, ¬Has items v) :
      ofJson? v.toJson = some v ↔ ∀ items, v.Has items → ¬Captured items :=
    iff_of_true hread fun items hhas => absurd hhas (hnone items)
  induction h with
  | absent => exact scalar rfl (by rintro _ ⟨⟩)
  | int n => exact scalar (ofJson?_toJson_int n) (by rintro _ ⟨⟩)
  | text s => exact scalar rfl (by rintro _ ⟨⟩)
  | object h =>
    have hread : ofJson? (Value.object h).toJson = some (.object h) := by
      rw [toJson, ofJson?_handle, word?_toNat, Option.map_some]
    exact scalar hread (by rintro _ ⟨⟩)
  | list h ih =>
    rw [ofJson?_toJson_list h]
    constructor
    · rintro ⟨hself, hmembers⟩ items hhas
      rcases has_list.1 hhas with rfl | ⟨v, hv, hhas⟩
      · exact hself
      · exact (ih v hv).1 (hmembers v hv) items hhas
    · intro hnone
      refine ⟨hnone _ .self, fun v hv => (ih v hv).2 fun items hhas => ?_⟩
      exact hnone items (.inside hv hhas)

/-- A value without floats and vectors that is nested at most 127 levels comes back from its text
exactly if none of its lists, however deep, is one natural or three integers. -/
theorem ofJsonText?_toJsonText (h : v.Plain) (hdepth : v.toJson.depth ≤ 127) :
    ofJsonText? v.toJsonText = some v ↔ ∀ items, v.Has items → ¬Captured items := by
  rw [← h.ofJson?_toJson, ofJsonText?, toJsonText, h.integral.parse?_toText hdepth]
  rfl

/-- A list of an integer and a text comes back; in it, a list of one natural does not. -/
theorem ofJsonText?_toJsonText_nested :
    ofJsonText? (list [int 1, text "\"\n"]).toJsonText = some (list [int 1, text "\"\n"]) ∧
      ofJsonText? (list [list [int 1], text "\"\n"]).toJsonText ≠
        some (list [list [int 1], text "\"\n"]) := by
  have one : (int 1).Plain := .int 1
  have quote : (text "\"\n").Plain := .text _
  have back := ofJsonText?_toJsonText (v := list [int 1, text "\"\n"])
    (.list (List.forall_mem_cons.2 ⟨one, List.forall_mem_singleton.2 quote⟩)) (by decide)
  have lost := ofJsonText?_toJsonText (v := list [list [int 1], text "\"\n"])
    (.list (List.forall_mem_cons.2
      ⟨.list (List.forall_mem_singleton.2 one), List.forall_mem_singleton.2 quote⟩)) (by decide)
  constructor
  · refine back.2 fun items hhas => ?_
    rcases has_list.1 hhas with rfl | ⟨v, hv, hhas⟩
    · exact id
    · rcases List.mem_pair.1 hv with rfl | rfl <;> cases hhas
  · intro hread
    have captured : Captured [int 1] := (captured_one _).2 ⟨1, rfl, by decide⟩
    exact lost.1 hread [int 1] (.inside (.head _) .self) captured

end StoryScript.Value
