import Vetting.Proofs.Fallible
import Vetting.Proofs.Json.Parts
import Vetting.ValueTree.Unfolding

/-!
# Confined manifests

A reader is confined if all that it returns is a part of its argument, null, or one of the constants
that it lists, and likewise an enumerator. All stock readers and enumerators are. Whatever is read
below a document through the items of a confined manifest belongs to a finite pool of values
(`Manifest.pool`), which has as many members as `Manifest.supply` counts.
-/

namespace Vetting

/-! ## Readers -/

/-- What a reader with constants of its own may return for a value. -/
def Json.Yields (v : Json) (fixed : List Json) (found : Json) : Prop :=
  found ∈ v.parts ∨ found = .null ∨ found ∈ fixed

namespace Reader

/-- The reader makes up no values. -/
def Confined (reader : Reader) : Prop :=
  ∀ v found, reader.read v = .ok found → v.Yields reader.fixed found

theorem confined_field (name : String) : (field name).Confined := by
  intro v found h
  cases v with
  | object fields =>
      obtain rfl := Except.ok.inj h
      cases hfield : fields.lookup name with
      | none => exact .inr (.inl rfl)
      | some w => exact .inl (Json.mem_parts_of_lookup hfield)
  | _ => cases h

theorem confined_requiredField (name : String) : (requiredField name).Confined := by
  intro v found h
  unfold requiredField at h
  dsimp only at h
  split at h
  · rename_i w hfield
    obtain rfl := Except.ok.inj h
    cases v with
    | object fields => exact .inl (Json.mem_parts_of_lookup hfield)
    | _ => cases hfield
  · cases h

theorem confined_itself : itself.Confined := fun v _ h =>
  .inl (Except.ok.inj h ▸ v.mem_parts_self)

theorem confined_const (value : Json) : (const value).Confined := fun _ _ h =>
  .inr (.inr (List.mem_singleton.mpr (Except.ok.inj h).symm))

theorem confined_failing (message : String) : (failing message).Confined := fun _ _ h => nomatch h

end Reader

namespace Enumerator

/-- The enumerator makes up no values. -/
def Confined (enumerator : Enumerator) : Prop :=
  ∀ v elements, enumerator.elements v = .ok elements →
    ∀ found ∈ elements, v.Yields enumerator.fixed found

theorem confined_standard : standard.Confined := by
  intro v elements h found hfound
  cases v with
  | array items =>
      obtain rfl := Except.ok.inj h
      exact .inl (Json.mem_parts_of_item hfound)
  | object fields =>
      obtain rfl := Except.ok.inj h
      obtain ⟨f, hf, rfl⟩ := List.mem_map.mp hfound
      exact .inl (Json.mem_parts_of_field hf)
  | null =>
      obtain rfl := Except.ok.inj h
      cases hfound
  | _ => cases h

theorem confined_reversed : reversed.Confined := by
  intro v elements h found hfound
  obtain ⟨items, hitems, rfl⟩ := Fallible.map_eq_ok.mp h
  exact confined_standard v items hitems found (List.mem_reverse.mp hfound)

theorem confined_const (items : List Json) : (const items).Confined := fun _ _ h _ hfound =>
  .inr (.inr (Except.ok.inj h ▸ hfound))

theorem confined_failing (message : String) : (failing message).Confined := fun _ _ h => nomatch h

end Enumerator

def Source.Confined : Source → Prop
  | .member _ reader _ => reader.Confined
  | .element enumerator _ => enumerator.Confined
  | .root | .variant _ => True

namespace Manifest

/-- All readers and enumerators of the manifest are confined. -/
def Confined (m : Manifest) : Prop :=
  ∀ id item, m.item? id = some item → item.source.Confined

theorem confined_of_sources {m : Manifest} {sources : List Source}
    (h : m.items.toList.map (·.source) = sources) (hall : ∀ s ∈ sources, s.Confined) :
    m.Confined := by
  intro id item hi
  have hmem : item ∈ m.items.toList := Array.mem_toList_iff.mpr (Array.mem_of_getElem? hi)
  exact hall _ (h ▸ List.mem_map_of_mem hmem)

/-! ## The pool -/

/-- The values that can turn up below a document: its parts, null, and the parts of all
constants. -/
def pool (m : Manifest) (document : Json) : List Json :=
  .null :: (document.parts ++ Json.partsItems (m.items.toList.flatMap constants))

variable {m : Manifest} {document : Json}

theorem length_pool (m : Manifest) (document : Json) :
    (m.pool document).length = m.supply document := by
  simp only [pool, supply, List.length_cons, List.length_append, Json.length_parts,
    Json.length_partsItems]
  omega

theorem document_mem_pool (m : Manifest) (document : Json) : document ∈ m.pool document :=
  List.mem_cons_of_mem _ (List.mem_append_left _ document.mem_parts_self)

theorem parts_mem_pool {u v : Json} (hv : v ∈ m.pool document) (hu : u ∈ v.parts) :
    u ∈ m.pool document := by
  rcases List.mem_cons.mp hv with rfl | hv
  · exact List.mem_cons.mpr (.inl (List.mem_singleton.mp hu))
  · rcases List.mem_append.mp hv with hv | hv
    · exact List.mem_cons_of_mem _ (List.mem_append_left _ (Json.parts_trans hu hv))
    · exact List.mem_cons_of_mem _ (List.mem_append_right _ (Json.partsItems_trans hu hv))

theorem constant_mem_pool {id : ItemId} {item : Item} {v : Json} (hi : m.item? id = some item)
    (hv : v ∈ constants item) : v ∈ m.pool document := by
  have hitem : item ∈ m.items.toList := Array.mem_toList_iff.mpr (Array.mem_of_getElem? hi)
  exact List.mem_cons_of_mem _ (List.mem_append_right _
    (Json.mem_partsItems.mpr ⟨v, List.mem_flatMap.mpr ⟨item, hitem, hv⟩, v.mem_parts_self⟩))

theorem mem_pool_of_yields {id : ItemId} {item : Item} {fixed : List Json} {v found : Json}
    (hi : m.item? id = some item) (hfixed : ∀ w ∈ fixed, w ∈ constants item)
    (hv : v ∈ m.pool document) (h : v.Yields fixed found) : found ∈ m.pool document := by
  rcases h with hpart | rfl | hconstant
  · exact parts_mem_pool hv hpart
  · exact List.mem_cons_self
  · exact constant_mem_pool hi (hfixed found hconstant)

end Manifest

end Vetting
