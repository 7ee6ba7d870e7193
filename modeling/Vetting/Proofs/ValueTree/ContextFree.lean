import Vetting.Proofs.Plan.Check
import Vetting.Proofs.ValueTree.DepthFirst
import Vetting.Proofs.ValueTree.Shrinking

/-!
# What is below a value depends on the value alone

A value is read in some place: below a lineage, after the values before it, in one document or
another. Of all this the unfolding asks for the lineage only, and only to drop a value that repeats
one of it. Where nothing is dropped (`ValueTree.DropsNothing`), what a slot yields is a function of
the value and the slot (`Manifest.yields`), so that branches with the same definition and value have
the same children (`Materialized.children_eq_of_same`).

In the numbered trees such branches stand at different numbers. Numbering a branch from another
number on moves all its numbers by the same distance (`Branch.nodes_moved`), and the checks of a
tree go value by value, so that two such values have the same checks below them in the same order
(`expansion_context_free`).
-/

namespace Vetting

/-- The value that lies as far behind `w` as `x` behind `v`. -/
def ValueId.moved (v w x : ValueId) : ValueId := ⟨w.index + (x.index - v.index)⟩

/-- Whether `x` is among the `n` values from `v` on. -/
def ValueId.within (v : ValueId) (n : Nat) (x : ValueId) : Bool :=
  decide (v.index ≤ x.index ∧ x.index < v.index + n)

/-- A node whose links are moved from behind `v` to behind `w`. -/
def ValueNode.moved (v w : ValueId) (node : ValueNode) : ValueNode :=
  { node with
    parent := node.parent.map (ValueId.moved v w)
    children := node.children.map (ValueId.moved v w) }

/-- Check `d` is by the rule of check `c`, under the same label, of the value that lies as far
behind `w` as that of `c` behind `v`. -/
structure Check.Moved (v w : ValueId) (c d : Check) : Prop where
  rule : d.rule = c.rule
  label : d.label = c.label
  value : d.value = ValueId.moved v w c.value

/-- No recursive slot offers, below any value, that value or an ancestor over again. -/
def ValueTree.DropsNothing (t : ValueTree) (m : Manifest) (policy : FailurePolicy) : Prop :=
  ∀ v node, t.node? v = some node → node.value.isNull = false →
    ∀ a ∈ node.applied, ∀ slot ∈ m.slots a, m.isRecursive slot = true →
      ∀ offered, m.offered policy node.value slot = .ok offered → ∀ offer ∈ offered,
        t.repeatsAbove m v slot offer.2 = false

/-- Value `v` of one tree and value `w` of another have the same below them. Each has `n` values,
itself included, and what is `x` in the one tree is `ValueId.moved v w x` in the other. How `v` and
`w` themselves were read does not matter. -/
structure ValueTree.SameBelow (t : ValueTree) (v : ValueId) (u : ValueTree) (w : ValueId)
    (n : Nat) : Prop where
  spans (x : ValueId) : (∃ k, t.climb? k x = some v) ↔ v.within n x = true
  spans' (x : ValueId) : (∃ k, u.climb? k x = some w) ↔ w.within n x = true
  top : ∃ a b, t.node? v = some a ∧ u.node? w = some b ∧ b.definition = a.definition ∧
    b.applied = a.applied ∧ b.value = a.value ∧ b.identity = a.identity ∧
    b.children = a.children.map (ValueId.moved v w)
  below (x : ValueId) (hx : v.within n x = true) (hne : x ≠ v) :
    u.node? (ValueId.moved v w x) = (t.node? x).map (ValueNode.moved v w)

namespace Manifest

/-- What a slot yields from a value, if it keeps all that it offers. -/
def yields (m : Manifest) (policy : FailurePolicy) (value : Json) (slot : ItemId) :
    Except SetupError (List Reading) := do
  let offered ← m.offered policy value slot
  offered.mapM fun offer => SetupError.ofManifest (m.reading slot offer.1 offer.2)

variable {m : Manifest} {policy : FailurePolicy}

theorem IsReading.eq_of_same {r s : Reading} (hr : m.IsReading r) (hs : m.IsReading s)
    (hdef : s.definition = r.definition) (hvalue : s.value = r.value) :
    s.applied = r.applied ∧ s.identity = r.identity := by
  obtain ⟨defining, hdefining, hidentity⟩ := hr.identity
  obtain ⟨defining', hdefining', hidentity'⟩ := hs.identity
  rw [hdef] at hdefining'
  obtain rfl := Option.some.inj (hdefining.symm.trans hdefining')
  exact ⟨by rw [hr.applied, hs.applied, hdef, hvalue], by rw [hidentity, hidentity', hvalue]⟩

theorem Fills.yields {lineage : List Reading} {value : Json} {slot : ItemId} {group : List Branch}
    (h : m.Fills policy lineage value slot group)
    (hkeeps : ∀ offered, m.offered policy value slot = .ok offered → ∀ offer ∈ offered,
      ∀ below, m.reading slot offer.1 offer.2 = .ok below → m.keeps lineage slot below = true) :
    m.yields policy value slot = .ok (group.map Branch.reading) := by
  obtain ⟨offered, readings, hoffered, hread, hmap⟩ := h.readings
  have hall : readings.filter (m.keeps lineage slot) = readings :=
    List.filter_eq_self.mpr fun below hbelow => by
      obtain ⟨offer, hoffer, hreading⟩ := exists_left_of_forall₂ hread hbelow
      exact hkeeps offered hoffered offer hoffer below hreading
  rw [hmap, hall]
  refine Fallible.bind_eq_ok.mpr ⟨offered, hoffered, Fallible.mapM_eq_ok.mpr ?_⟩
  exact hread.imp fun offer below hbelow => SetupError.ofManifest_eq_ok.mpr hbelow

end Manifest

/-! ## Branches in different places -/

namespace Branch

theorem count_lt_of_mem_children {b c : Branch} (h : c ∈ b.children) : c.count < b.count := by
  cases b with
  | node reading children =>
      obtain ⟨before, after, rfl⟩ := List.append_of_mem h
      rw [count, countAll_append, countAll]
      omega

theorem eq_of_parts {b c : Branch} (hreading : c.reading = b.reading)
    (hchildren : c.children = b.children) : c = b := by
  cases b
  cases c
  simp_all [reading, children]

end Branch

namespace Materialized

variable {m : Manifest} {policy : FailurePolicy} {document document' : Json} {t u : ValueTree}
  {top top' : Branch} {parent parent' : Option ValueId} {lineage lineage' : List Reading}
  {start start' : Nat}

/-- Where nothing is dropped, the children of a value hold all that its slots yield. -/
theorem exists_yields (h : Materialized m policy document t top) (hdrops : t.DropsNothing m policy)
    {b : Branch} (hb : Branch.Stands top parent lineage start b)
    (hnull : b.reading.value.isNull = false) :
    ∃ yielded, (b.reading.applied.flatMap m.slots).mapM (m.yields policy b.reading.value) =
      .ok yielded ∧ b.children.map Branch.reading = yielded.flatten := by
  obtain ⟨rfl, hread, hgrown⟩ := h
  have hchildren := (hb.grown hgrown (Manifest.reading_eq_ok.mp hread).1).1.children
  rw [if_neg (by rw [hnull]; exact Bool.false_ne_true)] at hchildren
  obtain ⟨groups, hfills, hflat⟩ := hchildren
  refine ⟨groups.map (List.map Branch.reading), Fallible.mapM_eq_ok.mpr ?_, ?_⟩
  · refine List.forall₂_map_right_iff.mpr ?_
    have hlisted := (List.forall₂_and_left _ _).mpr ⟨fun _ hslot => hslot, hfills⟩
    refine hlisted.imp fun slot group ⟨hslot, hgroup⟩ => hgroup.yields ?_
    intro offered hoffered offer hoffer below hbelow
    rw [keeps_of_stands hb hbelow]
    cases hrec : m.isRecursive slot with
    | false => rfl
    | true =>
        obtain ⟨a, ha, hslot⟩ := List.mem_flatMap.mp hslot
        rw [hdrops ⟨start⟩ _ hb.node? hnull a ha slot hslot hrec offered hoffered offer hoffer]
        rfl
  · rw [hflat, List.map_flatten]

/-- By induction on the size of the branch: what its slots yield is settled by its definition and
its value, and so is what the slots of its children yield. -/
theorem children_eq_of_same (ht : Materialized m policy document t top)
    (hu : Materialized m policy document' u top') (hdt : t.DropsNothing m policy)
    (hdu : u.DropsNothing m policy) {b c : Branch} (hb : Branch.Stands top parent lineage start b)
    (hc : Branch.Stands top' parent' lineage' start' c)
    (hdef : c.reading.definition = b.reading.definition)
    (hvalue : c.reading.value = b.reading.value) : c.children = b.children := by
  induction hn : b.count using Nat.strongRecOn generalizing b c parent parent' lineage lineage'
    start start' with
  | ind n ih =>
      subst hn
      obtain ⟨hgrownB, hreadB⟩ := hb.grown ht.grown (Manifest.reading_eq_ok.mp ht.reading).1
      obtain ⟨hgrownC, hreadC⟩ := hc.grown hu.grown (Manifest.reading_eq_ok.mp hu.reading).1
      cases hnull : b.reading.value.isNull with
      | true =>
          have hnoneB := hgrownB.children
          have hnoneC := hgrownC.children
          rw [if_pos hnull] at hnoneB
          rw [hvalue, if_pos hnull] at hnoneC
          rw [hnoneB, hnoneC]
      | false =>
          obtain ⟨yielded, hyields, hchildren⟩ := ht.exists_yields hdt hb hnull
          obtain ⟨yielded', hyields', hchildren'⟩ := hu.exists_yields hdu hc (hvalue ▸ hnull)
          rw [(hreadB.eq_of_same hreadC hdef hvalue).1, hvalue, hyields] at hyields'
          cases hyields'
          have hsame := hchildren'.trans hchildren.symm
          refine List.ext_getElem (by simpa using congrArg List.length hsame) fun i hi hi' => ?_
          have hreading : c.children[i].reading = b.children[i].reading := by
            simpa [hi, hi'] using congrArg (·[i]?) hsame
          obtain ⟨id, -, hbi⟩ := exists_left_of_forall₂ hb.children (List.getElem_mem hi')
          obtain ⟨id', -, hci⟩ := exists_left_of_forall₂ hc.children (List.getElem_mem hi)
          have hbelow := ih _ (Branch.count_lt_of_mem_children (List.getElem_mem hi')) hbi hci
            (congrArg Reading.definition hreading) (congrArg Reading.value hreading) rfl
          exact Branch.eq_of_parts hreading hbelow

end Materialized

/-! ## Numbers from another number on -/

@[simp] theorem ValueId.moved_add (v w j : Nat) :
    ValueId.moved ⟨v⟩ ⟨w⟩ ⟨v + j⟩ = ⟨w + j⟩ := by
  simp [ValueId.moved]

namespace Branch

theorem numbers_moved (v w j : Nat) (bs : List Branch) :
    numbers (w + j) bs = (numbers (v + j) bs).map (ValueId.moved ⟨v⟩ ⟨w⟩) := by
  induction bs generalizing j with
  | nil => rfl
  | cons b bs ih =>
      rw [numbers, numbers, List.map_cons, ValueId.moved_add, Nat.add_assoc, Nat.add_assoc, ih]

mutual

/-- A branch below the value `w + i`, numbered from `w + j` on, against the same branch below
`v + i`. -/
theorem nodes_moved (v w i j : Nat) (b : Branch) :
    b.nodes (some ⟨w + i⟩) (w + j) =
      (b.nodes (some ⟨v + i⟩) (v + j)).map (ValueNode.moved ⟨v⟩ ⟨w⟩) := by
  cases b with
  | node reading children =>
      rw [nodes_node, nodes_node, List.map_cons, Nat.add_assoc, Nat.add_assoc,
        nodesAll_moved v w j (j + 1) children, numbers_moved v w (j + 1) children]
      simp [ValueNode.moved]

theorem nodesAll_moved (v w i j : Nat) (bs : List Branch) :
    nodesAll (some ⟨w + i⟩) (w + j) bs =
      (nodesAll (some ⟨v + i⟩) (v + j) bs).map (ValueNode.moved ⟨v⟩ ⟨w⟩) := by
  cases bs with
  | nil => rfl
  | cons b bs =>
      rw [nodesAll, nodesAll, List.map_append, Nat.add_assoc, Nat.add_assoc,
        nodes_moved v w i j b, nodesAll_moved v w i (j + b.count) bs]

end

/-- The values below a branch follow its number. -/
theorem Stands.node?_below {top b : Branch} {parent : Option ValueId} {lineage : List Reading}
    {start : Nat} (h : Stands top parent lineage start b) {i : Nat} (hi : i + 1 < b.count) :
    (ValueTree.ofBranch top).node? ⟨start + (i + 1)⟩ =
      (nodesAll (some ⟨start⟩) (start + 1) b.children)[i]? := by
  obtain ⟨rest, hrest⟩ := h.nodes_prefix
  have hget := congrArg (·[i + 1]?) hrest
  simp only [List.getElem?_drop] at hget
  rw [List.getElem?_append_left (by rw [length_nodes]; exact hi)] at hget
  simp only [ValueTree.node?, ValueTree.ofBranch, List.getElem?_toArray, ← hget]
  cases b with
  | node reading children => rw [nodes_node, List.getElem?_cons_succ, Branch.children]

end Branch

namespace Materialized

variable {m : Manifest} {policy : FailurePolicy} {document document' : Json} {t u : ValueTree}
  {top top' : Branch}

theorem sameBelow (ht : Materialized m policy document t top)
    (hu : Materialized m policy document' u top') (hdt : t.DropsNothing m policy)
    (hdu : u.DropsNothing m policy) {v w : ValueId} {a b : ValueNode} (hv : t.node? v = some a)
    (hw : u.node? w = some b) (hdef : b.definition = a.definition) (hvalue : b.value = a.value) :
    ∃ n, v.index + n ≤ t.size ∧ w.index + n ≤ u.size ∧ t.SameBelow v u w n := by
  obtain ⟨parent, lineage, x, hx, rfl, hgrown, hreading⟩ := ht.exists_standing hv
  obtain ⟨parent', lineage', y, hy, rfl, hgrown', hreading'⟩ := hu.exists_standing hw
  have hchildren := ht.children_eq_of_same hu hdt hdu hx hy hdef hvalue
  obtain ⟨happlied, hidentity⟩ := hreading.eq_of_same hreading' hdef hvalue
  have hcount : y.count = x.count := by
    cases x
    cases y
    simp_all [Branch.count, Branch.children]
  refine ⟨x.count, ht.tree ▸ hx.le_size, hu.tree ▸ hcount ▸ hy.le_size, ?_⟩
  refine ⟨fun z => ?_, fun z => ?_, ⟨_, _, hv, hw, hdef, happlied, hvalue, hidentity, ?_⟩,
    fun z hz hne => ?_⟩
  · rw [ValueId.within, decide_eq_true_iff]
    exact ht.climb?_iff hx z
  · rw [ValueId.within, decide_eq_true_iff, ← hcount]
    exact hu.climb?_iff hy z
  · rw [hchildren]
    exact Branch.numbers_moved v.index w.index 1 x.children
  · obtain ⟨hle, hlt⟩ := of_decide_eq_true hz
    obtain ⟨i, hi⟩ : ∃ i, z.index = v.index + (i + 1) := by
      have hdiff : z.index ≠ v.index := fun heq => hne (ValueId.eq_iff.mpr heq)
      exact ⟨z.index - v.index - 1, by omega⟩
    obtain rfl : z = ⟨v.index + (i + 1)⟩ := ValueId.eq_iff.mpr hi
    have hmoved : ValueId.moved v w ⟨v.index + (i + 1)⟩ = ⟨w.index + (i + 1)⟩ :=
      ValueId.moved_add v.index w.index (i + 1)
    rw [hmoved, ht.tree, hu.tree, hx.node?_below (by omega), hy.node?_below (by omega), hchildren,
      ← List.getElem?_map]
    exact congrArg (·[i]?) (Branch.nodesAll_moved v.index w.index 0 1 x.children)

end Materialized

/-! ## The checks below a value -/

/-- A test of the members of groups that goes by group selects groups. -/
theorem filter_flatMap_of_group {α β : Type} {f : α → List β} {p : β → Bool} {q : α → Bool}
    (h : ∀ a, ∀ b ∈ f a, p b = q a) (as : List α) :
    (as.flatMap f).filter p = (as.filter q).flatMap f := by
  induction as with
  | nil => rfl
  | cons a as ih =>
      rw [List.flatMap_cons, List.filter_append, ih]
      cases hq : q a with
      | true =>
          rw [List.filter_cons_of_pos hq, List.flatMap_cons,
            List.filter_eq_self.mpr fun b hb => (h a b hb).trans hq]
      | false =>
          rw [List.filter_cons_of_neg (by rw [hq]; exact Bool.false_ne_true),
            List.filter_eq_nil_iff.mpr fun b hb hp =>
              Bool.false_ne_true (hq.symm.trans ((h a b hb).symm.trans hp)), List.nil_append]

namespace ValueTree

/-- Values in the same place have the same items applied to them, and the same identity. -/
theorem SameBelow.exists_node {t u : ValueTree} {v w : ValueId} {n : Nat}
    (h : t.SameBelow v u w n) {x : ValueId} (hx : v.within n x = true) {a : ValueNode}
    (ha : t.node? x = some a) :
    ∃ b, u.node? (ValueId.moved v w x) = some b ∧ b.applied = a.applied ∧
      b.identity = a.identity := by
  by_cases hxv : x = v
  · subst hxv
    obtain ⟨a', b, ha', hb, -, happlied, -, hidentity, -⟩ := h.top
    obtain rfl := Option.some.inj (ha.symm.trans ha')
    have hmoved : ValueId.moved x w x = w := by
      rw [ValueId.moved, Nat.sub_self, Nat.add_zero]
    exact ⟨b, by rw [hmoved, hb], happlied, hidentity⟩
  · rw [h.below x hx hxv, ha]
    exact ⟨_, rfl, rfl, rfl⟩

theorem ids_within {t : ValueTree} {v : ValueId} {n : Nat} (h : v.index + n ≤ t.size) :
    t.ids.filter (v.within n) = (List.range n).map fun i => ⟨v.index + i⟩ := by
  obtain ⟨rest, hrest⟩ := Nat.exists_eq_add_of_le h
  have hbefore : (List.range v.index).filter (v.within n ∘ ValueId.mk) = [] :=
    List.filter_eq_nil_iff.mpr fun i hi hin => by
      have := List.mem_range.mp hi
      have := of_decide_eq_true hin
      dsimp only at this
      omega
  have hin : ((List.range n).map (v.index + ·)).filter (v.within n ∘ ValueId.mk) =
      (List.range n).map (v.index + ·) :=
    List.filter_eq_self.mpr fun i hi => by
      obtain ⟨j, hj, rfl⟩ := List.mem_map.mp hi
      have := List.mem_range.mp hj
      exact decide_eq_true ⟨by dsimp only; omega, by dsimp only; omega⟩
  have hafter : ((List.range rest).map (v.index + n + ·)).filter (v.within n ∘ ValueId.mk) = [] :=
    List.filter_eq_nil_iff.mpr fun i hi hin => by
      obtain ⟨j, -, rfl⟩ := List.mem_map.mp hi
      have := of_decide_eq_true hin
      dsimp only at this
      omega
  rw [ids, hrest, List.filter_map, List.range_add, List.range_add, List.filter_append,
    List.filter_append, hbefore, hin, hafter, List.nil_append, List.append_nil, List.map_map]
  rfl

end ValueTree

namespace Manifest

variable {m : Manifest} {t u : ValueTree} {v w : ValueId} {n : Nat}

theorem pairsOf_moved (h : t.SameBelow v u w n) (ht : v.index + n ≤ t.size) {i : Nat} (hi : i < n) :
    m.pairsOf u ⟨w.index + i⟩ =
      (m.pairsOf t ⟨v.index + i⟩).map (Prod.map id (ValueId.moved v w)) := by
  have hsize : v.index + i < t.nodes.size := Nat.lt_of_lt_of_le (Nat.add_lt_add_left hi _) ht
  have hwithin : v.within n ⟨v.index + i⟩ = true :=
    decide_eq_true ⟨Nat.le_add_right _ _, Nat.add_lt_add_left hi _⟩
  have hmoved : ValueId.moved v w ⟨v.index + i⟩ = ⟨w.index + i⟩ :=
    ValueId.moved_add v.index w.index i
  have ha : t.node? ⟨v.index + i⟩ = some t.nodes[v.index + i] := Array.getElem?_eq_getElem hsize
  obtain ⟨b, hb, happlied, -⟩ := h.exists_node hwithin ha
  rw [hmoved] at hb
  rw [pairsOf, pairsOf, ha, hb, Option.map_some, Option.map_some, happlied, List.map_flatMap]
  simp only [List.map_map, Function.comp_def, Prod.map, id, hmoved]

/-- The pairs below the one value are those below the other. -/
theorem pairs_moved (h : t.SameBelow v u w n) (ht : v.index + n ≤ t.size)
    (hu : w.index + n ≤ u.size) :
    (m.pairs u).filter (fun p => w.within n p.2) =
      ((m.pairs t).filter fun p => v.within n p.2).map (Prod.map id (ValueId.moved v w)) := by
  have hgroup : ∀ {t : ValueTree} (v x : ValueId), ∀ p ∈ m.pairsOf t x,
      v.within n p.2 = v.within n x := fun v x p hp => by rw [snd_of_mem_pairsOf hp]
  rw [pairs, pairs, filter_flatMap_of_group (hgroup v), filter_flatMap_of_group (hgroup w),
    ValueTree.ids_within ht, ValueTree.ids_within hu, List.map_flatMap, List.flatMap_map,
    List.flatMap_map]
  exact List.flatMap_congr fun i hi => pairsOf_moved h ht (List.mem_range.mp hi)

theorem checks_moved {registry registry' : RuleRegistry} {cs ds : List Check}
    (h : t.SameBelow v u w n) (ht : v.index + n ≤ t.size) (hu : w.index + n ≤ u.size)
    (hcs : m.checks registry t = .ok cs) (hds : m.checks registry' u = .ok ds) :
    List.Forall₂ (Check.Moved v w) (cs.filter fun c => v.within n c.value)
      (ds.filter fun d => w.within n d.value) := by
  have hpairs : (ds.filter fun d => w.within n d.value).map (fun d => (d.rule, d.value)) =
      (cs.filter fun c => v.within n c.value).map fun c => (c.rule, ValueId.moved v w c.value) := by
    have hall := pairs_moved (m := m) h ht hu
    rw [← (checks_pairs hcs).1, ← (checks_pairs hds).1, List.filter_map, List.filter_map,
      List.map_map] at hall
    exact hall
  rw [← List.forall₂_eq_eq_eq, List.forall₂_map_left_iff, List.forall₂_map_right_iff] at hpairs
  refine forall₂_imp_of_mem hpairs.flip fun c hc d hd hsame => ?_
  obtain ⟨hrule, hvalue⟩ := Prod.mk.inj hsame
  obtain ⟨hc, hwithin⟩ := List.mem_filter.mp hc
  have hfresh := (checks_pairs hcs).2 c hc
  have hfresh' := (checks_pairs hds).2 d (List.mem_of_mem_filter hd)
  obtain ⟨decl, hdecl, hkey, -⟩ := hfresh.exists_rule
  obtain ⟨decl', hdecl', hkey', -⟩ := hfresh'.exists_rule
  obtain ⟨a, ha, hidentity⟩ := hfresh.exists_node
  obtain ⟨b, hb, hidentity'⟩ := hfresh'.exists_node
  obtain ⟨b', hb', -, hsame⟩ := h.exists_node hwithin ha
  rw [hrule] at hdecl'
  rw [hvalue] at hb
  obtain rfl := Option.some.inj (hdecl.symm.trans hdecl')
  obtain rfl := Option.some.inj (hb.symm.trans hb')
  refine ⟨hrule, ?_, hvalue⟩
  show (⟨d.label.key, d.label.identity⟩ : RuleLabel) = ⟨c.label.key, c.label.identity⟩
  rw [hkey, hkey', hidentity, hidentity', hsame]

end Manifest

/-- In ordinary data nothing repeats an ancestor. -/
theorem Materialized.dropsNothing {m : Manifest} {policy : FailurePolicy} {document : Json}
    {t : ValueTree} {top : Branch} (h : Materialized m policy document t top)
    (hplain : m.Plain policy) : t.DropsNothing m policy :=
  fun _ _ hv hnull _ _ _ _ hrec _ hoffered _ hoffer =>
    h.repeatsAbove_eq_false hplain hv hnull hrec hoffered hoffer

/-- **What is below a value depends on its definition and the value alone.** Whatever edits built
the manifest, whatever two documents were materialized under one policy, and however deep: if no
value was dropped as a repeated ancestor, then two values with the same definition that are the same
have the same below them, up to a shift of the numbers, and the checks of the one and all below it
are those of the other, rule by rule. -/
theorem expansion_context_free (rootType : String) (edits : List Edit) {policy : FailurePolicy}
    {depth depth' : Nat} {document document' : Json} {t u : ValueTree}
    (ht : (Manifest.build rootType edits).materializeTo policy depth document = .ok t)
    (hu : (Manifest.build rootType edits).materializeTo policy depth' document' = .ok u)
    (hdt : t.DropsNothing (Manifest.build rootType edits) policy)
    (hdu : u.DropsNothing (Manifest.build rootType edits) policy) {v w : ValueId}
    {a b : ValueNode} (hv : t.node? v = some a) (hw : u.node? w = some b)
    (hdef : b.definition = a.definition) (hvalue : b.value = a.value) :
    ∃ n, t.SameBelow v u w n ∧ ∀ registry registry' cs ds,
      (Manifest.build rootType edits).checks registry t = .ok cs →
      (Manifest.build rootType edits).checks registry' u = .ok ds →
      List.Forall₂ (Check.Moved v w) (cs.filter fun c => v.within n c.value)
        (ds.filter fun d => w.within n d.value) := by
  obtain ⟨top, hmat⟩ := exists_materialized ht
  obtain ⟨top', hmat'⟩ := exists_materialized hu
  obtain ⟨n, hsize, hsize', hsame⟩ := hmat.sameBelow hmat' hdt hdu hv hw hdef hvalue
  exact ⟨n, hsame, fun registry registry' cs ds hcs hds =>
    Manifest.checks_moved hsame hsize hsize' hcs hds⟩

def twig : Json := .object [("name", .string "twig"), ("next", .object [])]

/-- Two twigs side by side, and a third further down. -/
def hedge : Json := .object [("children", .array [twig, twig]), ("next", .object [("next", twig)])]

/-- A twig of the hedge, read as an element, has below it what it has as a document of its own. -/
theorem expansion_context_free_twig :
    ∃ t u n, (Manifest.build "Node" plantEdits).materializeTo .propagate 9 hedge = .ok t ∧
      (Manifest.build "Node" plantEdits).materializeTo .propagate 5 twig = .ok u ∧
      t.value? ⟨2⟩ = some twig ∧ u.value? ⟨0⟩ = some twig ∧ t.SameBelow ⟨2⟩ u ⟨0⟩ n := by
  have hhedge : (((Manifest.build "Node" plantEdits).materializeTo .propagate 9
      hedge).toOption.bind fun t => (t.node? ⟨2⟩).map fun node => (node.definition, node.value)) =
        some (⟨0⟩, twig) := by with_unfolding_all rfl
  have htwig : (((Manifest.build "Node" plantEdits).materializeTo .propagate 5
      twig).toOption.bind fun u => (u.node? ⟨0⟩).map fun node => (node.definition, node.value)) =
        some (⟨0⟩, twig) := by with_unfolding_all rfl
  obtain ⟨t, ht, hv⟩ := Option.bind_eq_some_iff.mp hhedge
  obtain ⟨u, hu, hw⟩ := Option.bind_eq_some_iff.mp htwig
  obtain ⟨a, hv, ha⟩ := Option.map_eq_some_iff.mp hv
  obtain ⟨b, hw, hb⟩ := Option.map_eq_some_iff.mp hw
  obtain ⟨hdef, hvalue⟩ := Prod.mk.inj (hb.trans ha.symm)
  have htree := Fallible.eq_ok_of_toOption ht
  have htree' := Fallible.eq_ok_of_toOption hu
  obtain ⟨top, hmat⟩ := exists_materialized htree
  obtain ⟨top', hmat'⟩ := exists_materialized htree'
  obtain ⟨n, hsame, -⟩ := expansion_context_free "Node" plantEdits htree htree'
    (hmat.dropsNothing plain_plant) (hmat'.dropsNothing plain_plant) hv hw hdef hvalue
  refine ⟨t, u, n, htree, htree', ?_, ?_, hsame⟩
  · rw [ValueTree.value?, hv, Option.map_some, (Prod.mk.inj ha).2]
  · rw [ValueTree.value?, hw, Option.map_some, (Prod.mk.inj hb).2]

end Vetting
