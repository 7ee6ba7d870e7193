import Vetting.Proofs.ValueTree.Unfolded

/-!
# Levels of a value tree

A value is read one level below the definition of its parent, and a recursive item lends it a
definition of a smaller depth. So a definition is at most one level deeper than that of the parent
(`depth_definition_le`), exactly one level only where nothing was borrowed. Two facts follow: a
value has at least as many ancestors as its definition has levels above it (`exists_climb?`), and
where the levels are used up exactly, nothing on the way was borrowed (`readDown_of_climb?`).
-/

namespace Vetting

namespace ValueTree

/-- The values strictly below `w`, down to the last one, were read in order through the items of
a list. -/
inductive ReadDown (t : ValueTree) (w : ValueId) : List ItemId → ValueId → Prop
  | here : ReadDown t w [] w
  | down {items : List ItemId} {p v : ValueId} {item : ItemId} (h : ReadDown t w items p)
      (hp : t.parent? v = some p) (hi : t.readThrough item v = true) :
      ReadDown t w (items ++ [item]) v

variable {t : ValueTree}

theorem climb?_succ_eq_some {n : Nat} {v w : ValueId} :
    t.climb? (n + 1) v = some w ↔ ∃ p, t.parent? v = some p ∧ t.climb? n p = some w := by
  rw [climb?, Option.bind_eq_some_iff]

theorem parent?_eq_some {v p : ValueId} :
    t.parent? v = some p ↔ ∃ node, t.node? v = some node ∧ node.parent = some p := by
  rw [parent?, Option.bind_eq_some_iff]

theorem readThrough_iff {item : ItemId} {v : ValueId} :
    t.readThrough item v = true ↔ ∃ node, t.node? v = some node ∧ node.item = item := by
  simp [readThrough, Option.any_eq_true]

theorem applies_iff {item : ItemId} {v : ValueId} :
    t.applies item v = true ↔ ∃ node, t.node? v = some node ∧ item ∈ node.applied := by
  simp [applies, Option.any_eq_true]

theorem mem_children_iff {v c : ValueId} :
    c ∈ t.children v ↔ ∃ node, t.node? v = some node ∧ c ∈ node.children := by
  unfold children
  cases t.node? v <;> simp

theorem ReadDown.climb? {w v : ValueId} {items : List ItemId} (h : t.ReadDown w items v) :
    t.climb? items.length v = some w := by
  induction h with
  | here => rfl
  | down h hp _ ih =>
      rw [List.length_append]
      exact climb?_succ_eq_some.mpr ⟨_, hp, ih⟩

theorem ReadDown.eq_of_nil {w v : ValueId} (h : t.ReadDown w [] v) : v = w := by
  generalize hitems : ([] : List ItemId) = items at h
  cases h with
  | here => rfl
  | down => simp at hitems

/-- The last value on a way down. -/
theorem ReadDown.of_append {w v : ValueId} {items : List ItemId} {item : ItemId}
    (h : t.ReadDown w (items ++ [item]) v) :
    ∃ p, t.ReadDown w items p ∧ t.parent? v = some p ∧ t.readThrough item v = true := by
  generalize hall : items ++ [item] = all at h
  cases h with
  | here => simp at hall
  | down h hp hi =>
      obtain ⟨rfl, heq⟩ := List.append_inj' hall rfl
      obtain rfl := List.singleton_inj.mp heq
      exact ⟨_, h, hp, hi⟩

end ValueTree

namespace Materialized

variable {m : Manifest} {policy : FailurePolicy} {document : Json} {t : ValueTree} {top : Branch}

theorem anchor_of_applied (h : Materialized m policy document t top) (hm : m.Sound) {v : ValueId}
    {node : ValueNode} (hv : t.node? v = some node) {a : ItemId} (ha : a ∈ node.applied) :
    m.anchor a = node.definition := by
  have hpos := h.item_position hm hv
  obtain ⟨_, _, _, -, rfl, -, hreading⟩ := h.exists_standing hv
  exact hreading.anchor_eq hm hpos ha

theorem owner_of_applied (h : Materialized m policy document t top) (hm : m.Sound) {v : ValueId}
    {node : ValueNode} (hv : t.node? v = some node) {a p : ItemId} {item : Item}
    (ha : a ∈ node.applied) (hi : m.item? a = some item) (hvariant : item.source.isVariant = true)
    (hp : item.parent = some p) : p ∈ node.applied := by
  have hpos := h.item_position hm hv
  obtain ⟨_, _, _, -, rfl, -, hreading⟩ := h.exists_standing hv
  exact hreading.owner_mem hm hpos ha hi hvariant hp

theorem known_of_applied (h : Materialized m policy document t top) (hm : m.Sound) {v : ValueId}
    {node : ValueNode} (hv : t.node? v = some node) {a : ItemId} (ha : a ∈ node.applied) :
    ∃ item, m.item? a = some item := by
  obtain ⟨_, _, _, -, rfl, -, hreading⟩ := h.exists_standing hv
  exact hreading.known hm ha

/-- A value lists the values that name it as their parent. -/
theorem mem_children_iff (h : Materialized m policy document t top) {p v : ValueId} :
    v ∈ t.children p ↔ t.parent? v = some p := by
  constructor
  · intro hv
    obtain ⟨node, hp, hv⟩ := ValueTree.mem_children_iff.mp hv
    obtain ⟨parent, lineage, b, hb, rfl, -, -⟩ := h.exists_standing hp
    obtain ⟨c, -, hc⟩ := exists_right_of_forall₂ hb.children hv
    rw [h.tree]
    exact hc.parent?
  · intro hp
    obtain ⟨node, hv, hp⟩ := ValueTree.parent?_eq_some.mp hp
    obtain ⟨above, _, ha, hmem, -⟩ := h.exists_parent hv hp
    exact ValueTree.mem_children_iff.mpr ⟨above, ha, hmem⟩

theorem above?_item (h : Materialized m policy document t top) (hm : m.Sound) {v p : ValueId}
    {node above : ValueNode} (hv : t.node? v = some node) (hp : node.parent = some p)
    (ha : t.node? p = some above) : m.above? node.item = some above.definition := by
  obtain ⟨above', _, _, ha', -, -, -, -, hab⟩ := (h.unfoldedAt hm hv).parent hp
  obtain rfl := Option.some.inj (ha.symm.trans ha')
  exact hab

/-- A definition is at most one level below that of the parent, and then it is the item itself. -/
theorem depth_definition_le (h : Materialized m policy document t top) (hm : m.Sound)
    {v p : ValueId} {node above : ValueNode} (hv : t.node? v = some node)
    (hp : node.parent = some p) (ha : t.node? p = some above) :
    m.depth node.definition ≤ m.depth above.definition + 1 ∧
      (m.depth above.definition < m.depth node.definition → node.definition = node.item) := by
  have hitem := Manifest.depth_of_above? hm (h.above?_item hm hv hp ha)
  obtain ⟨hle, heq⟩ := Manifest.definition_depth hm (h.unfoldedAt hm hv).definition
  exact ⟨by omega, fun hlt => heq (by omega)⟩

theorem definition_of_top (h : Materialized m policy document t top) (hm : m.Sound) {v : ValueId}
    {node : ValueNode} (hv : t.node? v = some node) (hp : node.parent = none) :
    m.depth node.definition = 0 := by
  have hu := h.unfoldedAt hm hv
  obtain ⟨hle, -⟩ := Manifest.definition_depth hm hu.definition
  have hroot :=
    Manifest.depth_of_above?_none ((Manifest.above?_eq_none hm hm.root_position).mpr rfl)
  rw [(hu.top hp).2.1, hroot] at hle
  exact Nat.le_zero.mp hle

/-- A value has at least as many ancestors as there are levels above its definition. -/
theorem exists_climb? (h : Materialized m policy document t top) (hm : m.Sound) {n : Nat}
    {v : ValueId} {node : ValueNode} (hv : t.node? v = some node)
    (hn : n ≤ m.depth node.definition) :
    ∃ w above, t.climb? n v = some w ∧ t.node? w = some above := by
  induction n generalizing v node with
  | zero => exact ⟨v, node, rfl, hv⟩
  | succ n ih =>
      cases hp : node.parent with
      | none =>
          rw [h.definition_of_top hm hv hp] at hn
          omega
      | some p =>
          obtain ⟨above, _, ha, -⟩ := h.exists_parent hv hp
          obtain ⟨hle, -⟩ := h.depth_definition_le hm hv hp ha
          obtain ⟨w, last, hw, hlast⟩ := ih ha (by omega)
          exact ⟨w, last, ValueTree.climb?_succ_eq_some.mpr
            ⟨p, ValueTree.parent?_eq_some.mpr ⟨node, hv, hp⟩, hw⟩, hlast⟩

theorem depth_le_of_climb? (h : Materialized m policy document t top) (hm : m.Sound) {n : Nat}
    {v w : ValueId} {node above : ValueNode} (hv : t.node? v = some node)
    (hw : t.node? w = some above) (hclimb : t.climb? n v = some w) :
    m.depth node.definition ≤ m.depth above.definition + n := by
  induction n generalizing v node with
  | zero =>
      obtain rfl : v = w := Option.some.inj hclimb
      obtain rfl := Option.some.inj (hv.symm.trans hw)
      exact Nat.le_refl _
  | succ n ih =>
      obtain ⟨p, hp, hclimb⟩ := ValueTree.climb?_succ_eq_some.mp hclimb
      obtain ⟨node', hv', hp⟩ := ValueTree.parent?_eq_some.mp hp
      obtain rfl := Option.some.inj (hv.symm.trans hv')
      obtain ⟨between, _, hb, -⟩ := h.exists_parent hv hp
      obtain ⟨hle, -⟩ := h.depth_definition_le hm hv hp hb
      have := ih hb hclimb
      omega

/-- Where the levels above a definition lead, one by one, to that of an ancestor just as far up,
the values in between were read through the items of these levels: a recursive item on the way
would have lost a level that no later value can gain back. -/
theorem readDown_of_climb? (h : Materialized m policy document t top) (hm : m.Sound)
    {c : ItemId} {ps : List ItemId} {v w : ValueId} {node above : ValueNode}
    (hv : t.node? v = some node) (hw : t.node? w = some above) (hc : above.definition = c)
    (hdown : m.LeadsDown c ps node.definition) (hclimb : t.climb? ps.length v = some w) :
    t.ReadDown w ps v := by
  generalize hd : node.definition = d at hdown
  induction hdown generalizing v node with
  | here =>
      obtain rfl : v = w := Option.some.inj hclimb
      exact .here
  | @down ps d e hrest hpos habove ih =>
      rw [List.length_append] at hclimb
      obtain ⟨p, hp, hclimb⟩ := ValueTree.climb?_succ_eq_some.mp hclimb
      obtain ⟨node', hv', hnp⟩ := ValueTree.parent?_eq_some.mp hp
      obtain rfl := Option.some.inj (hv.symm.trans hv')
      obtain ⟨between, _, hb, -⟩ := h.exists_parent hv hnp
      have hdeep : m.depth between.definition ≤ m.depth c + ps.length :=
        hc ▸ h.depth_le_of_climb? hm hb hw hclimb
      have hdepth := hrest.depth hm
      have hlevel := Manifest.depth_of_above? hm habove
      -- The value above is no deeper than `d`, so one level is gained here: nothing was borrowed.
      obtain ⟨-, hown⟩ := h.depth_definition_le hm hv hnp hb
      rw [hd] at hown
      have hitem := hown (by omega)
      have hbetween : between.definition = d := by
        have := h.above?_item hm hv hnp hb
        rw [← hitem, habove] at this
        exact (Option.some.inj this).symm
      exact (ih hb hclimb hbetween).down hp
        (ValueTree.readThrough_iff.mpr ⟨node, hv, hitem.symm⟩)

/-- Where values were read down through the levels that lead to the definition of the last one,
the first one has the definition that these levels start from. -/
theorem definition_of_readDown (h : Materialized m policy document t top) (hm : m.Sound)
    {c d : ItemId} {ps : List ItemId} {v w : ValueId} {node : ValueNode}
    (hv : t.node? v = some node) (hread : t.ReadDown w ps v) (hdown : m.LeadsDown c ps d)
    (hd : node.definition = d) :
    ∃ above, t.node? w = some above ∧ above.definition = c := by
  induction hread generalizing d node with
  | here => exact ⟨node, hv, hd.trans hdown.eq_of_nil⟩
  | @down items p v item hrest hp hi ih =>
      obtain ⟨rfl, u, hdown, habove⟩ := hdown.of_append
      obtain ⟨node', hv', hnp⟩ := ValueTree.parent?_eq_some.mp hp
      obtain rfl := Option.some.inj (hv.symm.trans hv')
      obtain ⟨between, _, hb, -⟩ := h.exists_parent hv hnp
      have hitem := h.above?_item hm hv hnp hb
      obtain ⟨node', hv', heq⟩ := ValueTree.readThrough_iff.mp hi
      obtain rfl := Option.some.inj (hv.symm.trans hv')
      rw [heq, habove] at hitem
      exact ih hb hdown (Option.some.inj hitem).symm

end Materialized

end Vetting
