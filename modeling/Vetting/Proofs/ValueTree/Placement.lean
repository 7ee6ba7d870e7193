import Mathlib.Data.List.Forall2
import Vetting.ValueTree.Numbering

/-!
# Where branches stand in a numbered tree

A numbered tree lays a branch out in pre-order, so that every number belongs to one branch below
the top (`exists_stands`), whose values follow from that number on (`Stands.nodes_prefix`). What
the tree knows of a number is thereby what the branch knows: its reading, its parent, the numbers of
its children in order (`Stands.children`) and the readings of its ancestors (`Stands.lineage`).
Facts about the growth of branches become facts about the numbered tree through these lemmas.
-/

namespace Vetting

@[simp] theorem ValueId.mk_index (id : ValueId) : (⟨id.index⟩ : ValueId) = id := rfl

theorem ValueId.eq_iff {v w : ValueId} : v = w ↔ v.index = w.index := by
  cases v; cases w; simp

theorem ValueTree.climb?_add (t : ValueTree) (j k : Nat) (id : ValueId) :
    t.climb? (j + k) id = (t.climb? j id).bind (t.climb? k) := by
  induction j generalizing id with
  | zero =>
      rw [Nat.zero_add]
      rfl
  | succ j ih =>
      rw [Nat.succ_add, climb?, climb?, Option.bind_assoc]
      exact congrArg _ (funext ih)

namespace Branch

/-- Branch `b` stands at number `start` of the tree of `top`, below `parent`. The readings of its
ancestors are the `lineage`, the closest first. -/
inductive Stands (top : Branch) : Option ValueId → List Reading → Nat → Branch → Prop
  | whole : Stands top none [] 0 top
  | child {parent : Option ValueId} {lineage : List Reading} {start : Nat} {reading : Reading}
      {before after : List Branch} {b : Branch}
      (h : Stands top parent lineage start (.node reading (before ++ b :: after))) :
      Stands top (some ⟨start⟩) (reading :: lineage) (start + 1 + countAll before) b

/-! ## Neighbouring branches -/

theorem countAll_append (xs ys : List Branch) :
    countAll (xs ++ ys) = countAll xs + countAll ys := by
  induction xs with
  | nil => simp [countAll]
  | cons x xs ih =>
      rw [List.cons_append, countAll, countAll, ih]
      omega

theorem nodesAll_append (parent : Option ValueId) (start : Nat) (xs ys : List Branch) :
    nodesAll parent start (xs ++ ys) =
      nodesAll parent start xs ++ nodesAll parent (start + countAll xs) ys := by
  induction xs generalizing start with
  | nil => simp [nodesAll, countAll]
  | cons x xs ih =>
      rw [List.cons_append, nodesAll, nodesAll, countAll, ih, List.append_assoc, Nat.add_assoc]

theorem numbers_append (start : Nat) (xs ys : List Branch) :
    numbers start (xs ++ ys) = numbers start xs ++ numbers (start + countAll xs) ys := by
  induction xs generalizing start with
  | nil => simp [numbers, countAll]
  | cons x xs ih =>
      rw [List.cons_append, numbers, numbers, countAll, ih, List.cons_append, Nat.add_assoc]

/-- Neighbouring branches are numbered by what the branches before them take up. -/
theorem mem_numbers_iff {start : Nat} {bs : List Branch} {id : ValueId} :
    id ∈ numbers start bs ↔
      ∃ before c after, bs = before ++ c :: after ∧ id = ⟨start + countAll before⟩ := by
  constructor
  · intro h
    induction bs generalizing start with
    | nil => cases h
    | cons b bs ih =>
        rcases List.mem_cons.mp h with rfl | h
        · exact ⟨[], b, bs, rfl, rfl⟩
        · obtain ⟨before, c, after, rfl, rfl⟩ := ih h
          exact ⟨b :: before, c, after, rfl, by rw [countAll, Nat.add_assoc]⟩
  · rintro ⟨before, c, after, rfl, rfl⟩
    rw [numbers_append]
    exact List.mem_append_right _ List.mem_cons_self

/-- A number within neighbouring branches is within one of them. -/
theorem exists_split {bs : List Branch} {i : Nat} (h : i < countAll bs) :
    ∃ before c after j, bs = before ++ c :: after ∧ i = countAll before + j ∧ j < c.count := by
  induction bs generalizing i with
  | nil => exact absurd h (Nat.not_lt_zero _)
  | cons b bs ih =>
      rw [countAll] at h
      by_cases hb : i < b.count
      · exact ⟨[], b, bs, i, rfl, (Nat.zero_add i).symm, hb⟩
      · obtain ⟨before, c, after, j, rfl, hij, hj⟩ := ih (i := i - b.count) (by omega)
        exact ⟨b :: before, c, after, j, rfl, by rw [countAll]; omega, hj⟩

theorem nodes_node (parent : Option ValueId) (start : Nat) (reading : Reading)
    (children : List Branch) :
    (node reading children).nodes parent start =
      { reading with parent, children := numbers (start + 1) children } ::
        nodesAll (some ⟨start⟩) (start + 1) children := by
  rw [nodes]

/-! ## The values of a branch follow from its number on -/

theorem Stands.nodes_prefix {top b : Branch} {parent : Option ValueId} {lineage : List Reading}
    {start : Nat} (h : Stands top parent lineage start b) :
    b.nodes parent start <+: (top.nodes none 0).drop start := by
  induction h with
  | whole => exact List.prefix_refl _
  | @child parent lineage start reading before after b h ih =>
      rw [nodes_node, nodesAll_append, nodesAll] at ih
      obtain ⟨rest, hrest⟩ := ih
      refine ⟨nodesAll (some ⟨start⟩) (start + 1 + countAll before + b.count) after ++ rest, ?_⟩
      have hstart : start + 1 + countAll before = start + (countAll before + 1) := by omega
      rw [hstart, ← List.drop_drop, ← hrest, List.cons_append, List.drop_succ_cons,
        List.append_assoc, List.drop_left' (length_nodesAll _ _ _), List.append_assoc, hstart]

theorem Stands.node? {top b : Branch} {parent : Option ValueId} {lineage : List Reading}
    {start : Nat} (h : Stands top parent lineage start b) :
    (ValueTree.ofBranch top).node? ⟨start⟩ =
      some { b.reading with parent, children := numbers (start + 1) b.children } := by
  obtain ⟨rest, hrest⟩ := h.nodes_prefix
  cases b with
  | node reading children =>
      rw [nodes_node, List.cons_append] at hrest
      have hget := congrArg (·[0]?) hrest
      simp only [List.getElem?_cons_zero, List.getElem?_drop, Nat.add_zero] at hget
      simp only [ValueTree.node?, ValueTree.ofBranch, List.getElem?_toArray, ← hget]
      rfl

theorem Stands.parent? {top b : Branch} {parent : Option ValueId} {lineage : List Reading}
    {start : Nat} (h : Stands top parent lineage start b) :
    (ValueTree.ofBranch top).parent? ⟨start⟩ = parent := by
  rw [ValueTree.parent?, h.node?]
  rfl

/-- Every number from that of a branch up to the next neighbour belongs to a branch within, from
which the parents lead back. -/
theorem Stands.exists_within {top : Branch} {b : Branch} {parent : Option ValueId}
    {lineage : List Reading} {start : Nat} (h : Stands top parent lineage start b) {i : Nat}
    (hi : i < b.count) :
    ∃ parent' lineage' b', Stands top parent' lineage' (start + i) b' ∧
      ∃ k, (ValueTree.ofBranch top).climb? k ⟨start + i⟩ = some ⟨start⟩ := by
  induction i using Nat.strongRecOn generalizing b parent lineage start with
  | ind i ih =>
      match b, i with
      | b, 0 => exact ⟨parent, lineage, b, h, 0, rfl⟩
      | .node reading children, i + 1 =>
          rw [count] at hi
          obtain ⟨before, c, after, j, rfl, rfl, hj⟩ := exists_split (Nat.lt_of_succ_lt_succ hi)
          obtain ⟨p, l, b', hb', k, hk⟩ := ih j (by omega) h.child hj
          have hnumber : start + (countAll before + j + 1) = start + 1 + countAll before + j := by
            omega
          refine ⟨p, l, b', hnumber ▸ hb', k + 1, ?_⟩
          rw [hnumber, ValueTree.climb?_add, hk, Option.bind_some, ValueTree.climb?,
            h.child.parent?]
          rfl

theorem exists_stands {top : Branch} {id : ValueId} {node : ValueNode}
    (h : (ValueTree.ofBranch top).node? id = some node) :
    ∃ parent lineage b, Stands top parent lineage id.index b := by
  have hlt : id.index < top.count := by
    rw [← ValueTree.size_ofBranch]
    exact (Array.getElem?_eq_some_iff.mp h).1
  obtain ⟨parent, lineage, b, hb, -⟩ := Stands.whole.exists_within hlt
  rw [Nat.zero_add] at hb
  exact ⟨parent, lineage, b, hb⟩

/-! ## Children and ancestors -/

/-- The numbers of the children of a branch are those at which its own branches stand. -/
theorem Stands.children {top b : Branch} {parent : Option ValueId} {lineage : List Reading}
    {start : Nat} (h : Stands top parent lineage start b) :
    List.Forall₂ (fun id c => Stands top (some ⟨start⟩) (b.reading :: lineage) id.index c)
      (numbers (start + 1) b.children) b.children := by
  cases b with
  | node reading children =>
      have hafter : ∀ after before, children = before ++ after →
          List.Forall₂ (fun id c => Stands top (some ⟨start⟩) (reading :: lineage) id.index c)
            (numbers (start + 1 + countAll before) after) after := by
        intro after
        induction after with
        | nil => exact fun _ _ => .nil
        | cons c after ih =>
            rintro before rfl
            have hrest := ih (before ++ [c]) (by simp)
            rw [countAll_append, countAll, countAll, Nat.add_zero, ← Nat.add_assoc] at hrest
            exact .cons h.child hrest
      exact hafter children [] rfl

end Branch

namespace ValueTree

/-- What was read at the numbers of a list. -/
def readings (t : ValueTree) (ids : List ValueId) : List Reading :=
  ids.filterMap fun id => (t.node? id).map (·.toReading)

theorem readings_cons {t : ValueTree} {id : ValueId} {node : ValueNode}
    (h : t.node? id = some node) (ids : List ValueId) :
    t.readings (id :: ids) = node.toReading :: t.readings ids := by
  simp [readings, h]

theorem ancestors_of_parent {t : ValueTree} {id p : ValueId} (h : t.parent? id = some p)
    (hlt : p.index < id.index) : t.ancestors id = p :: t.ancestors p := by
  rw [ancestors, h]
  simp [hlt]

theorem ancestors_of_none {t : ValueTree} {id : ValueId} (h : t.parent? id = none) :
    t.ancestors id = [] := by
  rw [ancestors, h]

end ValueTree

namespace Branch

/-- The lineage of a branch is what was read at its ancestors. -/
theorem Stands.lineage {top b : Branch} {parent : Option ValueId} {lineage : List Reading}
    {start : Nat} (h : Stands top parent lineage start b) :
    (ValueTree.ofBranch top).readings ((ValueTree.ofBranch top).ancestors ⟨start⟩) = lineage := by
  induction h with
  | whole =>
      rw [ValueTree.ancestors_of_none Stands.whole.parent?]
      rfl
  | child h ih =>
      rw [ValueTree.ancestors_of_parent h.child.parent? (by dsimp only; omega),
        ValueTree.readings_cons h.node?, ih]
      rfl

end Branch

end Vetting
