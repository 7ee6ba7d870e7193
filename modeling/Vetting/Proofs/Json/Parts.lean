import Vetting.Json.Basic

/-!
# Values within values

The parts of a value are the value itself and all values within it, at any depth. There are as many
parts as the size of a value counts (`length_parts`), and a part of a part is a part
(`parts_trans`).
-/

namespace Vetting.Json

mutual

/-- A value and all values within it. -/
def parts : Json → List Json
  | .array items => .array items :: partsItems items
  | .object fields => .object fields :: partsFields fields
  | v => [v]

def partsItems : List Json → List Json
  | [] => []
  | a :: as => a.parts ++ partsItems as

def partsFields : List (String × Json) → List Json
  | [] => []
  | (_, v) :: fs => v.parts ++ partsFields fs

end

mutual

theorem length_parts (v : Json) : v.parts.length = v.size := by
  cases v with
  | array items => simp [parts, size, length_partsItems]
  | object fields => simp [parts, size, length_partsFields]
  | null | bool | int | float | string => rfl

theorem length_partsItems (as : List Json) : (partsItems as).length = sizeItems as := by
  cases as with
  | nil => rfl
  | cons a as => simp [partsItems, sizeItems, length_parts, length_partsItems]

theorem length_partsFields (fs : List (String × Json)) :
    (partsFields fs).length = sizeFields fs := by
  cases fs with
  | nil => rfl
  | cons f fs => simp [partsFields, sizeFields, length_parts, length_partsFields]

end

theorem mem_parts_self (v : Json) : v ∈ v.parts := by
  cases v <;> simp [parts]

theorem mem_partsItems {u : Json} {as : List Json} :
    u ∈ partsItems as ↔ ∃ a ∈ as, u ∈ a.parts := by
  induction as with
  | nil => simp [partsItems]
  | cons a as ih => simp [partsItems, ih]

theorem mem_partsFields {u : Json} {fs : List (String × Json)} :
    u ∈ partsFields fs ↔ ∃ f ∈ fs, u ∈ f.2.parts := by
  induction fs with
  | nil => simp [partsFields]
  | cons f fs ih => simp [partsFields, ih]

theorem mem_parts_of_item {a : Json} {items : List Json} (h : a ∈ items) :
    a ∈ (array items).parts :=
  List.mem_cons_of_mem _ (mem_partsItems.mpr ⟨a, h, mem_parts_self a⟩)

theorem mem_parts_of_field {f : String × Json} {fields : List (String × Json)} (h : f ∈ fields) :
    f.2 ∈ (object fields).parts :=
  List.mem_cons_of_mem _ (mem_partsFields.mpr ⟨f, h, mem_parts_self f.2⟩)

theorem mem_parts_of_lookup {key : String} {w : Json} {fields : List (String × Json)}
    (h : fields.lookup key = some w) : w ∈ (object fields).parts := by
  obtain ⟨before, after, hfields, -⟩ := List.lookup_eq_some_iff.mp h
  have hmem : (key, w) ∈ fields := by simp [hfields]
  exact mem_parts_of_field hmem

mutual

theorem parts_trans {u v w : Json} (huv : u ∈ v.parts) (hvw : v ∈ w.parts) : u ∈ w.parts := by
  cases w with
  | array items =>
      rcases List.mem_cons.mp hvw with rfl | hvw
      · exact huv
      · exact List.mem_cons_of_mem _ (partsItems_trans huv hvw)
  | object fields =>
      rcases List.mem_cons.mp hvw with rfl | hvw
      · exact huv
      · exact List.mem_cons_of_mem _ (partsFields_trans huv hvw)
  | null | bool | int | float | string => exact List.mem_singleton.mp hvw ▸ huv

theorem partsItems_trans {u v : Json} {as : List Json} (huv : u ∈ v.parts)
    (hv : v ∈ partsItems as) : u ∈ partsItems as := by
  cases as with
  | nil => cases hv
  | cons a as =>
      rcases List.mem_append.mp hv with hv | hv
      · exact List.mem_append_left _ (parts_trans huv hv)
      · exact List.mem_append_right _ (partsItems_trans huv hv)

theorem partsFields_trans {u v : Json} {fs : List (String × Json)} (huv : u ∈ v.parts)
    (hv : v ∈ partsFields fs) : u ∈ partsFields fs := by
  cases fs with
  | nil => cases hv
  | cons f fs =>
      rcases List.mem_append.mp hv with hv | hv
      · exact List.mem_append_left _ (parts_trans huv hv)
      · exact List.mem_append_right _ (partsFields_trans huv hv)

end

mutual

/-- Every value is the same as itself. -/
theorem same_refl (v : Json) : v.same v = true := by
  cases v with
  | array items => exact sameItems_refl items
  | object fields => exact sameFields_refl fields
  | null | bool | int | float | string => simp [same]

theorem sameItems_refl (as : List Json) : sameItems as as = true := by
  cases as with
  | nil => rfl
  | cons a as => simp [sameItems, same_refl a, sameItems_refl as]

theorem sameFields_refl (fs : List (String × Json)) : sameFields fs fs = true := by
  cases fs with
  | nil => rfl
  | cons f fs => simp [sameFields, same_refl f.2, sameFields_refl fs]

end

end Vetting.Json
