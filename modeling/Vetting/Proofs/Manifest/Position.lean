import Vetting.Proofs.Manifest.Arena

/-!
# Levels of a manifest

In a sound manifest every known item has an anchor that is no variant, the levels above an item
are counted by its depth, and climbing succeeds for exactly so many levels. From this follow the
facts that the later stages rest on: two known items always meet (`exists_meet?`), the way down
from their meeting point always exists (`exists_path?`), and its items that are no variants are
the levels in between, one by one (`Owners.leadsDown`).
-/

namespace Vetting

namespace Manifest

variable {m : Manifest}

/-- `id` is an item with a level of its own. -/
def IsPosition (m : Manifest) (id : ItemId) : Prop :=
  ∃ item, m.item? id = some item ∧ item.source.isVariant = false

theorem isVariant_of_item? {id : ItemId} {item : Item} (hi : m.item? id = some item) :
    m.isVariant id = item.source.isVariant := by
  simp [isVariant, hi]

theorem Sound.root_position (hm : m.Sound) : m.IsPosition root := by
  obtain ⟨item, hi⟩ := hm.root_known
  refine ⟨item, hi, ?_⟩
  rw [(hm.source_root hi).mpr rfl]
  rfl

theorem Sound.exists_parent (hm : m.Sound) {id : ItemId} {item : Item}
    (hi : m.item? id = some item) (hne : id ≠ root) : ∃ p, item.parent = some p := by
  cases hp : item.parent with
  | none => exact absurd ((hm.parent_none hi).mp hp) hne
  | some p => exact ⟨p, rfl⟩

theorem Sound.variant_ne_root (hm : m.Sound) {id : ItemId} {item : Item}
    (hi : m.item? id = some item) (hv : item.source.isVariant = true) : id ≠ root := by
  rintro rfl
  rw [(hm.source_root hi).mpr rfl] at hv
  cases hv

/-! ## Anchors -/

theorem anchor_of_position {id : ItemId} (h : m.IsPosition id) : m.anchor id = id := by
  obtain ⟨item, hi, hv⟩ := h
  rw [anchor, hi]
  simp [hv]

theorem anchor_of_variant (hm : m.Sound) {id p : ItemId} {item : Item}
    (hi : m.item? id = some item) (hv : item.source.isVariant = true)
    (hp : item.parent = some p) : m.anchor id = m.anchor p := by
  rw [anchor, hi]
  simp [hv, hp, (hm.parent_some hi hp).1]

theorem anchor_position (hm : m.Sound) {id : ItemId} {item : Item}
    (hi : m.item? id = some item) : m.IsPosition (m.anchor id) := by
  induction hn : id.index using Nat.strongRecOn generalizing id item with
  | ind n ih =>
      subst hn
      cases hv : item.source.isVariant with
      | false =>
          rw [anchor_of_position ⟨item, hi, hv⟩]
          exact ⟨item, hi, hv⟩
      | true =>
          obtain ⟨p, hp⟩ := hm.exists_parent hi (hm.variant_ne_root hi hv)
          obtain ⟨hlt, owner, ho, -⟩ := hm.parent_some hi hp
          rw [anchor_of_variant hm hi hv hp]
          exact ih p.index hlt ho rfl

theorem anchor_le (m : Manifest) (id : ItemId) : (m.anchor id).index ≤ id.index := by
  fun_induction m.anchor id with
  | case1 id item hi parent hv hp hlt ih => exact Nat.le_trans ih (Nat.le_of_lt hlt)
  | case2 => exact Nat.le_refl _
  | case3 => exact Nat.le_refl _
  | case4 => exact Nat.le_refl _

/-! ## One level up -/

theorem above?_eq_some {id u : ItemId} :
    m.above? id = some u ↔
      ∃ item p, m.item? (m.anchor id) = some item ∧ item.parent = some p ∧ u = m.anchor p := by
  simp only [above?, bind, Option.bind_eq_some_iff, Option.some.injEq]
  constructor
  · rintro ⟨item, hi, p, hp, rfl⟩
    exact ⟨item, p, hi, hp, rfl⟩
  · rintro ⟨item, p, hi, hp, rfl⟩
    exact ⟨item, hi, p, hp, rfl⟩

theorem above?_of_position {id p : ItemId} {item : Item} (hi : m.item? id = some item)
    (hv : item.source.isVariant = false) (hp : item.parent = some p) :
    m.above? id = some (m.anchor p) :=
  above?_eq_some.mpr ⟨item, p, by rw [anchor_of_position ⟨item, hi, hv⟩, hi], hp, rfl⟩

theorem above?_anchor (hm : m.Sound) {id : ItemId} {item : Item} (hi : m.item? id = some item) :
    m.above? (m.anchor id) = m.above? id := by
  simp only [above?, anchor_of_position (anchor_position hm hi)]

theorem above?_lt (hm : m.Sound) {id u : ItemId} (h : m.above? id = some u) :
    u.index < id.index := by
  obtain ⟨item, p, hi, hp, rfl⟩ := above?_eq_some.mp h
  have hlt := (hm.parent_some hi hp).1
  have hp' := m.anchor_le p
  have hid := m.anchor_le id
  omega

theorem above?_position (hm : m.Sound) {id u : ItemId} (h : m.above? id = some u) :
    m.IsPosition u := by
  obtain ⟨item, p, hi, hp, rfl⟩ := above?_eq_some.mp h
  obtain ⟨-, owner, ho, -⟩ := hm.parent_some hi hp
  exact anchor_position hm ho

theorem above?_eq_none (hm : m.Sound) {id : ItemId} (h : m.IsPosition id) :
    m.above? id = none ↔ id = root := by
  obtain ⟨item, hi, hv⟩ := h
  constructor
  · intro hnone
    refine Classical.byContradiction fun hne => ?_
    obtain ⟨p, hp⟩ := hm.exists_parent hi hne
    rw [above?_of_position hi hv hp] at hnone
    cases hnone
  · rintro rfl
    cases ha : m.above? root with
    | none => rfl
    | some u => exact absurd (above?_lt hm ha) (Nat.not_lt_zero _)

/-! ## Depth -/

theorem depth_of_above? (hm : m.Sound) {id u : ItemId} (h : m.above? id = some u) :
    m.depth id = m.depth u + 1 := by
  rw [depth, h]
  simp [above?_lt hm h]

theorem depth_of_above?_none {id : ItemId} (h : m.above? id = none) : m.depth id = 0 := by
  rw [depth, h]

theorem depth_anchor (hm : m.Sound) {id : ItemId} {item : Item} (hi : m.item? id = some item) :
    m.depth (m.anchor id) = m.depth id := by
  have h := above?_anchor hm hi
  cases ha : m.above? id with
  | none => rw [depth_of_above?_none (h.trans ha), depth_of_above?_none ha]
  | some u => rw [depth_of_above? hm (h.trans ha), depth_of_above? hm ha]

theorem eq_root_of_depth (hm : m.Sound) {id : ItemId} (h : m.IsPosition id)
    (hd : m.depth id = 0) : id = root := by
  cases ha : m.above? id with
  | none => exact (above?_eq_none hm h).mp ha
  | some u =>
      rw [depth_of_above? hm ha] at hd
      cases hd

/-! ## Climbing -/

theorem climb?_succ_eq_some {n : Nat} {id a : ItemId} :
    m.climb? (n + 1) id = some a ↔ ∃ u, m.above? id = some u ∧ m.climb? n u = some a := by
  rw [climb?, Option.bind_eq_some_iff]

theorem depth_of_climb? (hm : m.Sound) {n : Nat} {id a : ItemId} (h : m.climb? n id = some a) :
    m.depth a + n = m.depth id := by
  induction n generalizing id with
  | zero =>
      obtain rfl : id = a := Option.some.inj h
      rfl
  | succ n ih =>
      obtain ⟨u, hu, h⟩ := climb?_succ_eq_some.mp h
      rw [depth_of_above? hm hu, ← ih h]
      omega

/-- Climbing from an item with a level of its own leads to one. -/
theorem climb?_position (hm : m.Sound) {n : Nat} {id a : ItemId} (hid : m.IsPosition id)
    (h : m.climb? n id = some a) : m.IsPosition a := by
  induction n generalizing id with
  | zero =>
      obtain rfl : id = a := Option.some.inj h
      exact hid
  | succ n ih =>
      obtain ⟨u, hu, h⟩ := climb?_succ_eq_some.mp h
      exact ih (above?_position hm hu) h

theorem exists_climb? (hm : m.Sound) {n : Nat} {id : ItemId} (h : n ≤ m.depth id) :
    ∃ a, m.climb? n id = some a := by
  induction n generalizing id with
  | zero => exact ⟨id, rfl⟩
  | succ n ih =>
      cases hu : m.above? id with
      | none =>
          rw [depth_of_above?_none hu] at h
          omega
      | some u =>
          rw [depth_of_above? hm hu] at h
          obtain ⟨a, ha⟩ := ih (Nat.le_of_succ_le_succ h)
          exact ⟨a, climb?_succ_eq_some.mpr ⟨u, hu, ha⟩⟩

theorem climb?_add (m : Manifest) (j k : Nat) (id : ItemId) :
    m.climb? (j + k) id = (m.climb? j id).bind (m.climb? k) := by
  induction j generalizing id with
  | zero =>
      rw [Nat.zero_add]
      rfl
  | succ j ih =>
      rw [Nat.succ_add, climb?, climb?, Option.bind_assoc]
      exact congrArg _ (funext ih)

theorem climb?_trans {j k : Nat} {id a b : ItemId} (ha : m.climb? j id = some a)
    (hb : m.climb? k a = some b) : m.climb? (j + k) id = some b := by
  rw [climb?_add, ha]
  exact hb

/-! ## Meeting points -/

/-- Two positions of one depth meet, both the same number of levels above. -/
theorem exists_join? (hm : m.Sound) {n : Nat} {a b : ItemId} (ha : m.IsPosition a)
    (hb : m.IsPosition b) (hda : m.depth a = n) (hdb : m.depth b = n) :
    ∃ c k, m.join? n a b = some c ∧ m.climb? k a = some c ∧ m.climb? k b = some c := by
  induction n generalizing a b with
  | zero =>
      obtain rfl := eq_root_of_depth hm ha hda
      obtain rfl := eq_root_of_depth hm hb hdb
      exact ⟨root, 0, rfl, rfl, rfl⟩
  | succ n ih =>
      by_cases hab : a = b
      · subst hab
        exact ⟨a, 0, by simp [join?], rfl, rfl⟩
      · obtain ⟨u, hu⟩ := exists_climb? hm (show 1 ≤ m.depth a by omega)
        obtain ⟨v, hv⟩ := exists_climb? hm (show 1 ≤ m.depth b by omega)
        obtain ⟨u', hua, hu⟩ := climb?_succ_eq_some.mp hu
        obtain rfl : u' = u := Option.some.inj hu
        obtain ⟨v', hvb, hv⟩ := climb?_succ_eq_some.mp hv
        obtain rfl : v' = v := Option.some.inj hv
        have hdu := depth_of_above? hm hua
        have hdv := depth_of_above? hm hvb
        obtain ⟨c, k, hc, hka, hkb⟩ := ih (above?_position hm hua) (above?_position hm hvb)
          (by omega) (by omega)
        refine ⟨c, k + 1, ?_, climb?_succ_eq_some.mpr ⟨u', hua, hka⟩,
          climb?_succ_eq_some.mpr ⟨v', hvb, hkb⟩⟩
        simp [join?, hab, hua, hvb, hc]

/-- Two known items always meet, at a position above both. -/
theorem exists_meet? (hm : m.Sound) {a b : ItemId} {itemA itemB : Item}
    (ha : m.item? a = some itemA) (hb : m.item? b = some itemB) :
    ∃ c, m.meet? a b = some c ∧ m.IsPosition c ∧
      (∃ j, m.climb? j (m.anchor a) = some c) ∧ ∃ k, m.climb? k (m.anchor b) = some c := by
  have hpa := anchor_position hm ha
  have hpb := anchor_position hm hb
  obtain ⟨a', ha'⟩ := exists_climb? hm (Nat.sub_le (m.depth (m.anchor a)) (m.depth (m.anchor b)))
  obtain ⟨b', hb'⟩ := exists_climb? hm (Nat.sub_le (m.depth (m.anchor b)) (m.depth (m.anchor a)))
  have hda := depth_of_climb? hm ha'
  have hdb := depth_of_climb? hm hb'
  have hmin : m.depth a' = min (m.depth (m.anchor a)) (m.depth (m.anchor b)) := by omega
  obtain ⟨c, k, hc, hka, hkb⟩ := exists_join? hm (climb?_position hm hpa ha')
    (climb?_position hm hpb hb') hmin (by omega)
  obtain ⟨_, hka', -⟩ := id hpa
  obtain ⟨_, hkb', -⟩ := id hpb
  refine ⟨c, ?_, climb?_position hm (climb?_position hm hpa ha') hka,
    ⟨_, climb?_trans ha' hka⟩, ⟨_, climb?_trans hb' hkb⟩⟩
  simp [meet?, hka', hkb', ha', hb', hc]

/-! ## The way down -/

/-- The positions of a list lead one level at a time from `c` down to `d`. -/
inductive LeadsDown (m : Manifest) (c : ItemId) : List ItemId → ItemId → Prop
  | here : LeadsDown m c [] c
  | down {ps : List ItemId} {d e : ItemId} (h : LeadsDown m c ps d) (hpos : m.IsPosition e)
      (habove : m.above? e = some d) : LeadsDown m c (ps ++ [e]) e

theorem LeadsDown.depth (hm : m.Sound) {c d : ItemId} {ps : List ItemId}
    (h : m.LeadsDown c ps d) : m.depth d = m.depth c + ps.length := by
  induction h with
  | here => rfl
  | down h hpos habove ih =>
      rw [depth_of_above? hm habove, ih, List.length_append]
      rfl

theorem LeadsDown.eq_of_nil {c d : ItemId} (h : m.LeadsDown c [] d) : d = c := by
  generalize hps : ([] : List ItemId) = ps at h
  cases h with
  | here => rfl
  | down => simp at hps

/-- The last step of a way down. -/
theorem LeadsDown.of_append {c d e : ItemId} {ps : List ItemId} (h : m.LeadsDown c (ps ++ [e]) d) :
    d = e ∧ ∃ u, m.LeadsDown c ps u ∧ m.above? e = some u := by
  generalize hqs : ps ++ [e] = qs at h
  cases h with
  | here => simp at hqs
  | down h _ habove =>
      obtain ⟨rfl, heq⟩ := List.append_inj' hqs rfl
      obtain rfl := List.singleton_inj.mp heq
      exact ⟨rfl, _, h, habove⟩

theorem path?_self (c : ItemId) : m.path? c c = some [] := by
  rw [path?]
  simp

theorem path?_of_parent (hm : m.Sound) {c id p : ItemId} {item : Item}
    (hi : m.item? id = some item) (hp : item.parent = some p) (hne : id ≠ c) :
    m.path? c id = (m.path? c p).map (· ++ [id]) := by
  rw [path?]
  simp [hne, hi, hp, (hm.parent_some hi hp).1]

/-- The items of a list are the owners of an item up to `c`, which is left out, and the item. -/
inductive Owners (m : Manifest) (c : ItemId) : List ItemId → ItemId → Prop
  | here : Owners m c [] c
  | down {path : List ItemId} {p id : ItemId} {item : Item} (h : Owners m c path p)
      (hi : m.item? id = some item) (hp : item.parent = some p) : Owners m c (path ++ [id]) id

theorem path?_owners {c id : ItemId} {path : List ItemId} (h : m.path? c id = some path) :
    m.Owners c path id := by
  fun_induction m.path? c id generalizing path with
  | case1 =>
      obtain rfl := Option.some.inj h
      exact .here
  | case2 id hne p hp hlt ih =>
      obtain ⟨item, hi, hp⟩ := Option.bind_eq_some_iff.mp hp
      obtain ⟨rest, hrest, rfl⟩ := Option.map_eq_some_iff.mp h
      exact (ih hrest).down hi hp
  | case3 => cases h
  | case4 => cases h

/-- There is a path to an item from every position above it. -/
theorem exists_path? (hm : m.Sound) {c id : ItemId} {item : Item} {n : Nat}
    (hi : m.item? id = some item) (hclimb : m.climb? n (m.anchor id) = some c) :
    ∃ path, m.path? c id = some path := by
  induction hk : id.index using Nat.strongRecOn generalizing id item n with
  | ind k ih =>
      subst hk
      by_cases hne : id = c
      · exact ⟨[], hne ▸ path?_self id⟩
      · have hroot : id ≠ root := by
          rintro rfl
          rw [anchor_of_position hm.root_position] at hclimb
          cases n with
          | zero => exact hne (Option.some.inj hclimb)
          | succ n =>
              obtain ⟨u, hu, -⟩ := climb?_succ_eq_some.mp hclimb
              exact Nat.not_lt_zero _ (above?_lt hm hu)
        obtain ⟨p, hp⟩ := hm.exists_parent hi hroot
        obtain ⟨hlt, owner, ho, -⟩ := hm.parent_some hi hp
        -- A variant shares the anchor of its owner; any other item is one level below it.
        have hrec : ∃ k, m.climb? k (m.anchor p) = some c := by
          cases hv : item.source.isVariant with
          | true =>
              rw [anchor_of_variant hm hi hv hp] at hclimb
              exact ⟨n, hclimb⟩
          | false =>
              rw [anchor_of_position ⟨item, hi, hv⟩] at hclimb
              cases n with
              | zero => exact absurd (Option.some.inj hclimb) hne
              | succ n =>
                  obtain ⟨u, hu, hclimb⟩ := climb?_succ_eq_some.mp hclimb
                  rw [above?_of_position hi hv hp] at hu
                  obtain rfl := Option.some.inj hu
                  exact ⟨n, hclimb⟩
        obtain ⟨k, hk⟩ := hrec
        obtain ⟨rest, hrest⟩ := ih p.index hlt ho hk rfl
        exact ⟨rest ++ [id], by rw [path?_of_parent hm hi hp hne, hrest]; rfl⟩

theorem Owners.filter_variant {path : List ItemId} {id : ItemId} {item : Item}
    (hi : m.item? id = some item) (hv : item.source.isVariant = true) :
    (path ++ [id]).filter (!m.isVariant ·) = path.filter (!m.isVariant ·) := by
  simp [isVariant_of_item? hi, hv]

theorem Owners.filter_position {path : List ItemId} {id : ItemId} {item : Item}
    (hi : m.item? id = some item) (hv : item.source.isVariant = false) :
    (path ++ [id]).filter (!m.isVariant ·) = path.filter (!m.isVariant ·) ++ [id] := by
  simp [isVariant_of_item? hi, hv]

/-- The owners that are no variants are the levels that lead down to the item. -/
theorem Owners.leadsDown (hm : m.Sound) {c id : ItemId} {path : List ItemId}
    (h : m.Owners c path id) (hc : m.IsPosition c) :
    m.LeadsDown c (path.filter (!m.isVariant ·)) (m.anchor id) := by
  induction h with
  | here =>
      rw [anchor_of_position hc]
      exact .here
  | @down path p id item h hi hp ih =>
      cases hv : item.source.isVariant with
      | true =>
          rw [filter_variant hi hv, anchor_of_variant hm hi hv hp]
          exact ih
      | false =>
          rw [filter_position hi hv, anchor_of_position ⟨item, hi, hv⟩]
          exact ih.down ⟨item, hi, hv⟩ (above?_of_position hi hv hp)

/-! ## Definitions -/

theorem definition_eq_ok {id d : ItemId} :
    m.definition id = .ok d ↔ ∃ item, m.item? id = some item ∧
      ((item.source.levels? = none ∧ id = d) ∨
        ∃ n, item.source.levels? = some (n + 1) ∧ m.climb? (n + 1) id = some d) := by
  unfold definition
  rw [Fallible.bind_eq_ok]
  simp only [get_eq_ok]
  refine exists_congr fun item => and_congr_right fun _ => ?_
  cases hl : item.source.levels? with
  | none => simp
  | some levels =>
      cases levels with
      | zero => simp
      | succ n => cases hc : m.climb? (n + 1) id <;> simp [hc]

theorem definition_position (hm : m.Sound) {id d : ItemId} (hid : m.IsPosition id)
    (h : m.definition id = .ok d) : m.IsPosition d := by
  obtain ⟨item, -, ⟨-, rfl⟩ | ⟨n, -, hclimb⟩⟩ := definition_eq_ok.mp h
  · exact hid
  · exact climb?_position hm hid hclimb

/-- A definition is never deeper than its item, and as deep only if it is the item itself. -/
theorem definition_depth (hm : m.Sound) {id d : ItemId} (h : m.definition id = .ok d) :
    m.depth d ≤ m.depth id ∧ (m.depth id ≤ m.depth d → d = id) := by
  obtain ⟨item, -, ⟨-, rfl⟩ | ⟨n, -, hclimb⟩⟩ := definition_eq_ok.mp h
  · exact ⟨Nat.le_refl _, fun _ => rfl⟩
  · have := depth_of_climb? hm hclimb
    exact ⟨by omega, fun _ => by omega⟩

end Manifest

end Vetting
