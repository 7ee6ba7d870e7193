import Mathlib.Data.List.Nodup
import Vetting.Proofs.ValueTree.InPlace
import Vetting.Proofs.ValueTree.Levels

/-!
# Depth-first numbers

Values are found depth first, and are numbered as they are found. So a tree can be read off its
numbers (`ValueTree.DepthFirst`): parents come before their children, a value and everything below
it fill an interval that starts with the value, and going up through the ancestors ends at the first
value. The intervals are those of the branches that stand at the numbers
(`Materialized.climb?_iff`), and the links follow from what stands above.
-/

namespace Vetting

namespace Branch

theorem count_pos (b : Branch) : 0 < b.count := by
  cases b with
  | node reading children =>
      rw [count]
      omega

theorem numbers_ascending (start : Nat) (bs : List Branch) :
    (numbers start bs).Pairwise (·.index < ·.index) := by
  induction bs generalizing start with
  | nil => exact .nil
  | cons b bs ih =>
      refine .cons (fun id hid => ?_) (ih (start + b.count))
      obtain ⟨before, -, -, -, rfl⟩ := mem_numbers_iff.mp hid
      have := b.count_pos
      dsimp only
      omega

/-- A branch lies within the tree. -/
theorem Stands.le_size {top b : Branch} {parent : Option ValueId} {lineage : List Reading}
    {start : Nat} (h : Stands top parent lineage start b) :
    start + b.count ≤ (ValueTree.ofBranch top).size := by
  have hle := h.nodes_prefix.length_le
  rw [length_nodes, List.length_drop, length_nodes] at hle
  have := b.count_pos
  rw [ValueTree.size_ofBranch]
  omega

end Branch

namespace ValueTree

variable {t : ValueTree}

/-- The values of a tree are numbered depth first, with links both ways. -/
structure DepthFirst (t : ValueTree) (m : Manifest) : Prop where
  root : ∃ node, t.node? root = some node ∧ node.item = Manifest.root ∧ node.parent = none
  /-- Only the root has no parent, and parents come first. -/
  parent {v : ValueId} {node : ValueNode} (hv : t.node? v = some node) (hne : v ≠ ValueTree.root) :
    ∃ p, node.parent = some p ∧ p.index < v.index
  /-- A value is listed once by its parent, and by no other value. -/
  count_children (p c : ValueId) : (t.children p).count c = if t.parent? c = some p then 1 else 0
  children_ascending (p : ValueId) : (t.children p).Pairwise (·.index < ·.index)
  /-- A value and those below it fill an interval. -/
  contiguous {v : ValueId} {node : ValueNode} (hv : t.node? v = some node) :
    ∃ next, v.index < next ∧ next ≤ t.size ∧
      ∀ u, (∃ k, t.climb? k u = some v) ↔ v.index ≤ u.index ∧ u.index < next
  /-- Exactly the elements of collections have a place. -/
  order {v : ValueId} {node : ValueNode} (hv : t.node? v = some node) :
    ∃ item, m.item? node.item = some item ∧ node.order.isSome = item.source.isElement
  ancestors (v : ValueId) (k : Nat) : (t.ancestors v)[k]? = t.climb? (k + 1) v
  /-- There are as many ancestors as there are steps up to the root. -/
  depth {v : ValueId} {node : ValueNode} (hv : t.node? v = some node) (d : Nat) :
    t.climb? d v = some ValueTree.root ↔ d = (t.ancestors v).length
  logicalParent {v : ValueId} {node : ValueNode} (hv : t.node? v = some node) :
    t.logicalParent? v =
      if node.order.isSome then (t.ancestors v)[1]? else (t.ancestors v)[0]?

theorem climb?_succ_eq_bind {v p : ValueId} (hp : t.parent? v = some p) (k : Nat) :
    t.climb? (k + 1) v = t.climb? k p := by
  rw [climb?, hp, Option.bind_some]

/-- The ancestors are the values some steps up, where parents come first. -/
theorem getElem?_ancestors (hlt : ∀ v p, t.parent? v = some p → p.index < v.index) (v : ValueId)
    (k : Nat) : (t.ancestors v)[k]? = t.climb? (k + 1) v := by
  induction k generalizing v with
  | zero =>
      cases hp : t.parent? v with
      | none => rw [ancestors_of_none hp, climb?, hp]; rfl
      | some p => rw [ancestors_of_parent hp (hlt v p hp), climb?, hp]; rfl
  | succ k ih =>
      cases hp : t.parent? v with
      | none => rw [ancestors_of_none hp, climb?, hp]; rfl
      | some p =>
          rw [ancestors_of_parent hp (hlt v p hp), List.getElem?_cons_succ, ih]
          exact (climb?_succ_eq_bind hp (k + 1)).symm

end ValueTree

namespace Materialized

variable {m : Manifest} {policy : FailurePolicy} {document : Json} {t : ValueTree} {top : Branch}

theorem parent_lt (h : Materialized m policy document t top) {v p : ValueId}
    (hp : t.parent? v = some p) : p.index < v.index := by
  obtain ⟨node, hv, hp⟩ := ValueTree.parent?_eq_some.mp hp
  obtain ⟨-, -, -, -, -, -, hlt⟩ := h.exists_parent hv hp
  exact hlt

theorem parent_known (h : Materialized m policy document t top) {v p : ValueId}
    (hp : t.parent? v = some p) : ∃ above, t.node? p = some above := by
  obtain ⟨node, hv, hp⟩ := ValueTree.parent?_eq_some.mp hp
  obtain ⟨above, -, ha, -⟩ := h.exists_parent hv hp
  exact ⟨above, ha⟩

theorem root_node (h : Materialized m policy document t top) :
    ∃ node, t.node? ValueTree.root = some node ∧ node.item = Manifest.root ∧
      node.parent = none := by
  have hitem := (Manifest.reading_eq_ok.mp h.reading).2.1
  rw [h.tree]
  exact ⟨_, Branch.Stands.whole.node?, hitem, rfl⟩

theorem exists_parent_of_ne (h : Materialized m policy document t top) (hm : m.Sound) {v : ValueId}
    {node : ValueNode} (hv : t.node? v = some node) (hne : v ≠ ValueTree.root) :
    ∃ p, node.parent = some p ∧ p.index < v.index := by
  cases hp : node.parent with
  | none => exact absurd ((h.unfoldedAt hm hv).top hp).1 hne
  | some p => exact ⟨p, rfl, h.parent_lt (ValueTree.parent?_eq_some.mpr ⟨node, hv, hp⟩)⟩

theorem children_ascending (h : Materialized m policy document t top) (p : ValueId) :
    (t.children p).Pairwise (·.index < ·.index) := by
  unfold ValueTree.children
  cases hp : t.node? p with
  | none => exact .nil
  | some node =>
      obtain ⟨_, _, b, -, rfl, -, -⟩ := h.exists_standing hp
      exact Branch.numbers_ascending _ _

theorem count_children (h : Materialized m policy document t top) (p c : ValueId) :
    (t.children p).count c = if t.parent? c = some p then 1 else 0 := by
  have hnodup : (t.children p).Nodup :=
    (h.children_ascending p).imp fun hlt heq => Nat.ne_of_lt hlt (congrArg ValueId.index heq)
  simp only [hnodup.count, h.mem_children_iff]

/-! ## Intervals -/

/-- The values from which the parents lead to a branch that stands are those that it numbers. -/
theorem climb?_iff (h : Materialized m policy document t top) {b : Branch}
    {parent : Option ValueId} {lineage : List Reading} {start : Nat}
    (hb : Branch.Stands top parent lineage start b) (u : ValueId) :
    (∃ k, t.climb? k u = some ⟨start⟩) ↔ start ≤ u.index ∧ u.index < start + b.count := by
  constructor
  · rintro ⟨k, hk⟩
    -- By induction on the number of steps. The last of them comes from a child, whose own numbers
    -- lie within those of the branch.
    induction k generalizing parent lineage start b with
    | zero =>
        obtain rfl : u = ⟨start⟩ := Option.some.inj hk
        have := b.count_pos
        dsimp only
        omega
    | succ k ih =>
        rw [ValueTree.climb?_add, Option.bind_eq_some_iff] at hk
        obtain ⟨v, hk, hv⟩ := hk
        obtain ⟨p, hp, hv⟩ := ValueTree.climb?_succ_eq_some.mp hv
        obtain rfl : p = ⟨start⟩ := Option.some.inj hv
        have hmem := h.mem_children_iff.mpr hp
        rw [h.tree, ValueTree.children, hb.node?] at hmem
        cases b with
        | node reading children =>
            obtain ⟨before, c, after, rfl, rfl⟩ := Branch.mem_numbers_iff.mp hmem
            have := ih hb.child hk
            rw [Branch.count, Branch.countAll_append, Branch.countAll]
            omega
  · rintro ⟨hle, hlt⟩
    obtain ⟨_, _, _, -, k, hk⟩ := hb.exists_within (i := u.index - start) (by omega)
    rw [show start + (u.index - start) = u.index by omega] at hk
    rw [h.tree]
    exact ⟨k, hk⟩

theorem contiguous (h : Materialized m policy document t top) {v : ValueId} {node : ValueNode}
    (hv : t.node? v = some node) :
    ∃ next, v.index < next ∧ next ≤ t.size ∧
      ∀ u, (∃ k, t.climb? k u = some v) ↔ v.index ≤ u.index ∧ u.index < next := by
  obtain ⟨_, _, b, hb, -, -, -⟩ := h.exists_standing hv
  have := b.count_pos
  exact ⟨v.index + b.count, by omega, h.tree ▸ hb.le_size, h.climb?_iff hb⟩

/-! ## Places -/

/-- A value with a parent is among the offers that the slot it was read through has drawn. -/
theorem mem_drawn (h : Materialized m policy document t top) {v p : ValueId} {node : ValueNode}
    (hv : t.node? v = some node) (hp : t.parent? v = some p) :
    (node.order, node.value) ∈ t.drawn p node.item := by
  have hthrough : v ∈ t.childrenThrough p node.item :=
    List.mem_filter.mpr ⟨h.mem_children_iff.mpr hp, ValueTree.readThrough_iff.mpr ⟨node, hv, rfl⟩⟩
  refine List.mem_map.mpr ⟨node.toReading, List.mem_filterMap.mpr ⟨v, hthrough, ?_⟩, rfl⟩
  rw [hv]
  rfl

/-- Nothing is read out of a null. -/
theorem isNull_of_mem_children (h : Materialized m policy document t top) (hm : m.Sound)
    {v p : ValueId} {above : ValueNode} (ha : t.node? p = some above) (hv : v ∈ above.children) :
    above.value.isNull = false := by
  cases hnull : above.value.isNull with
  | false => rfl
  | true =>
      rw [((h.unfoldedAt hm ha).null hnull).1] at hv
      cases hv

theorem order_isSome (h : Materialized m policy document t top) (hm : m.Sound) {v : ValueId}
    {node : ValueNode} (hv : t.node? v = some node) :
    ∃ item, m.item? node.item = some item ∧ node.order.isSome = item.source.isElement := by
  cases hp : node.parent with
  | none =>
      obtain ⟨-, hroot, -, horder⟩ := (h.unfoldedAt hm hv).top hp
      obtain ⟨item, hi⟩ := hm.root_known
      refine ⟨item, hroot ▸ hi, ?_⟩
      rw [horder, (hm.source_root hi).mpr rfl]
      rfl
  | some p =>
      obtain ⟨above, a, ha, hmem, haa, hslot, -⟩ := h.exists_parent hv hp
      have habove := h.unfoldedAt hm ha
      have hnull := h.isNull_of_mem_children hm ha hmem
      have hdrawn := h.mem_drawn hv (ValueTree.parent?_eq_some.mpr ⟨node, hv, hp⟩)
      obtain ⟨item, hi, -, hkind⟩ := Manifest.slot_kind hm hslot
      refine ⟨item, hi, ?_⟩
      cases hs : item.source with
      | member name reader levels =>
          obtain ⟨outcome, -, heq⟩ := habove.member hnull haa hslot hi hs
          rw [heq] at hdrawn
          obtain ⟨value, -, heq⟩ := List.mem_map.mp hdrawn
          rw [← (Prod.mk.inj heq).1]
          rfl
      | element enumerator levels =>
          obtain ⟨elements, -, heq⟩ := habove.element hnull haa hslot hi hs
          rw [heq] at hdrawn
          obtain ⟨⟨element, place⟩, -, heq⟩ := List.mem_map.mp (List.mem_of_mem_filter hdrawn)
          rw [← (Prod.mk.inj heq).1]
          rfl
      | root => simp [hs, Source.isMember, Source.isElement] at hkind
      | variant recognizer => simp [hs, Source.isMember, Source.isElement] at hkind

/-! ## The way to the root -/

theorem climb?_ancestors (h : Materialized m policy document t top) (hm : m.Sound) {v : ValueId}
    {node : ValueNode} (hv : t.node? v = some node) :
    t.climb? (t.ancestors v).length v = some ValueTree.root := by
  induction hn : v.index using Nat.strongRecOn generalizing v node with
  | ind n ih =>
      subst hn
      cases hp : t.parent? v with
      | none =>
          rw [ValueTree.ancestors_of_none hp]
          rw [ValueTree.parent?, hv, Option.bind_some] at hp
          rw [((h.unfoldedAt hm hv).top hp).1]
          rfl
      | some p =>
          obtain ⟨above, ha⟩ := h.parent_known hp
          have hlt := h.parent_lt hp
          rw [ValueTree.ancestors_of_parent hp hlt, List.length_cons,
            ValueTree.climb?_succ_eq_bind hp]
          exact ih p.index hlt ha rfl

theorem climb?_root_iff (h : Materialized m policy document t top) (hm : m.Sound) {v : ValueId}
    {node : ValueNode} (hv : t.node? v = some node) (d : Nat) :
    t.climb? d v = some ValueTree.root ↔ d = (t.ancestors v).length := by
  refine ⟨fun hd => ?_, fun hd => hd ▸ h.climb?_ancestors hm hv⟩
  have hancestors := ValueTree.getElem?_ancestors (fun _ _ => h.parent_lt) v
  have hle : d ≤ (t.ancestors v).length := by
    cases d with
    | zero => exact Nat.zero_le _
    | succ d =>
        rw [← hancestors] at hd
        exact (List.getElem?_eq_some_iff.mp hd).1
  -- From the root there is no step further up.
  have hnone : (t.ancestors v)[d]? = none := by
    obtain ⟨top, htop, -, hparent⟩ := h.root_node
    rw [hancestors, ValueTree.climb?_add, hd, Option.bind_some, ValueTree.climb?,
      ValueTree.parent?, htop, Option.bind_some, hparent]
    rfl
  exact Nat.le_antisymm hle (List.getElem?_eq_none_iff.mp hnone)

theorem logicalParent?_eq (h : Materialized m policy document t top) {v : ValueId}
    {node : ValueNode} (hv : t.node? v = some node) :
    t.logicalParent? v =
      if node.order.isSome then (t.ancestors v)[1]? else (t.ancestors v)[0]? := by
  have hancestors := ValueTree.getElem?_ancestors (fun _ _ => h.parent_lt) v
  rw [hancestors, hancestors]
  cases hp : node.parent <;>
    simp [ValueTree.logicalParent?, ValueTree.climb?, ValueTree.parent?, hv, hp]

theorem depthFirst (h : Materialized m policy document t top) (hm : m.Sound) : t.DepthFirst m where
  root := h.root_node
  parent hv := h.exists_parent_of_ne hm hv
  count_children := h.count_children
  children_ascending := h.children_ascending
  contiguous := h.contiguous
  order := h.order_isSome hm
  ancestors := ValueTree.getElem?_ancestors fun _ _ => h.parent_lt
  depth := h.climb?_root_iff hm
  logicalParent := h.logicalParent?_eq

end Materialized

/-- **Values are found depth first**, whatever edits built the manifest and whatever the document
and the policy. A value tree is what is stored when its values are found in place, every value under
its own number, and the numbers are those of a depth-first walk with links both ways. -/
theorem found_depth_first (rootType : String) (edits : List Edit) (policy : FailurePolicy)
    (depth : Nat) (document : Json) {t : ValueTree}
    (h : (Manifest.build rootType edits).materializeTo policy depth document = .ok t) :
    ∃ a, (Manifest.build rootType edits).materializeInPlace policy depth document = .ok a ∧
      a.tree = t ∧
      (∀ (i : Nat) (entry : Numbered ValueId ValueNode),
        a.values[i]? = some entry → entry.id = ⟨i⟩) ∧
      t.DepthFirst (Manifest.build rootType edits) := by
  have hm := Manifest.build_sound rootType edits
  obtain ⟨top, hmat⟩ := exists_materialized h
  refine ⟨store t.nodes.toList, ?_, tree_store _, fun i entry hentry => ?_, hmat.depthFirst hm⟩
  · rw [materializeInPlace_eq hm, h]
    rfl
  · rw [store, Array.getElem?_mapIdx, Option.map_eq_some_iff] at hentry
    obtain ⟨_, -, rfl⟩ := hentry
    rfl

/-- Above the key of a locked entry are the entry, the list of entries and the whole folder. -/
theorem found_depth_first_folder :
    ∃ t, (Manifest.build "Folder" folderEdits).materializeTo .skip 6 folder = .ok t ∧
      t.ancestors ⟨4⟩ = [⟨2⟩, ⟨1⟩, ⟨0⟩] ∧ t.DepthFirst (Manifest.build "Folder" folderEdits) := by
  have hfound : (((Manifest.build "Folder" folderEdits).materializeTo .skip 6
      folder).toOption.map fun t => t.ancestors ⟨4⟩) = some [⟨2⟩, ⟨1⟩, ⟨0⟩] := by
    decide +kernel
  obtain ⟨t, ht, hancestors⟩ := Option.map_eq_some_iff.mp hfound
  have htree := Fallible.eq_ok_of_toOption ht
  obtain ⟨-, -, -, -, hdepth⟩ := found_depth_first "Folder" folderEdits .skip 6 folder htree
  exact ⟨t, htree, hancestors, hdepth⟩

end Vetting
