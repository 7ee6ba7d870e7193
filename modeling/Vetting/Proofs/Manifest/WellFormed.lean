import Vetting.Proofs.Manifest.Arena

/-!
# What a valid manifest promises

`validate` finds no fault exactly if every item has a definition and every reference finds its rule.
The later stages rely on these two promises alone (`validate_eq_ok`).
-/

namespace Vetting.Manifest

variable {m : Manifest}

theorem discard_eq_ok {ε α : Type} {x : Except ε α} :
    discard x = .ok () ↔ ∃ a, x = .ok a := by
  cases x <;> simp [discard, Functor.discard, Functor.mapConst, Except.map]

theorem checkReference_eq_ok {key : RuleKey} {ref : RuleRef} :
    m.checkReference key ref = .ok () ↔ ∃ r, m.findRule? ref = some r := by
  unfold checkReference
  cases hi : m.item? ref.item with
  | none => simp [findRule?, hi]
  | some item => cases hr : m.findRule? ref <;> simp

theorem definitions_eq_ok :
    ((List.range m.items.size).forM fun i => discard (m.definition ⟨i⟩)) = .ok () ↔
      ∀ id item, m.item? id = some item → ∃ d, m.definition id = .ok d := by
  simp only [Fallible.forM_eq_ok, List.mem_range, discard_eq_ok]
  constructor
  · intro h id item hi
    exact h id.index (item?_lt hi)
  · intro h i hi
    have hknown : ∃ item, m.item? ⟨i⟩ = some item := exists_item? hi
    obtain ⟨item, hi⟩ := hknown
    exact h ⟨i⟩ item hi

theorem references_eq_ok :
    (m.rules.toList.forM fun rule => rule.dependencies.forM (m.checkReference rule.key)) = .ok () ↔
      ∀ r rule, m.rule? r = some rule →
        ∀ ref ∈ rule.dependencies, ∃ t, m.findRule? ref = some t := by
  simp only [Fallible.forM_eq_ok, checkReference_eq_ok]
  constructor
  · intro h r rule hr
    exact h rule (Array.mem_toList_iff.mpr (Array.mem_of_getElem? hr))
  · intro h rule hrule
    obtain ⟨i, hi⟩ := Array.mem_iff_getElem?.mp (Array.mem_toList_iff.mp hrule)
    exact h ⟨i⟩ rule hi

theorem validate_eq_ok :
    m.validate = .ok () ↔
      (∀ id item, m.item? id = some item → ∃ d, m.definition id = .ok d) ∧
      ∀ r rule, m.rule? r = some rule →
        ∀ ref ∈ rule.dependencies, ∃ t, m.findRule? ref = some t := by
  rw [← definitions_eq_ok, ← references_eq_ok]
  unfold validate
  rw [Fallible.bind_eq_ok]
  exact ⟨fun ⟨_, h⟩ => h, fun h => ⟨(), h⟩⟩

end Vetting.Manifest
