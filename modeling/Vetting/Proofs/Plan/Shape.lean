import Vetting.Proofs.Plan.Rings
import Vetting.Proofs.Plan.Setup

/-!
# Checks depend on the shape of a tree only

Two trees have one shape if at every place there are values read through the same item, with the
same items applying to them and the same neighbours (`ValueTree.SameShape`); what the values are,
how the objects are called and in what order they arrived plays no part. Making the checks of such
trees, resolving them and refusing those that wait for each other comes to the same, stage by stage
(`checks_of_sameShape`): to checks that differ only in the objects that their labels name
(`Check.Twin`), or to one kind of fault about the same checks (`SameFault`).

Each stage is compared with itself on the other tree, with the lemmas on `Fallible.Alike`.
-/

namespace Vetting

/-! ## Shapes -/

/-- What there is to a value besides what was read: where it comes from, what applies to it, and its
neighbours. -/
structure Shape where
  item : ItemId
  applied : List ItemId
  parent : Option ValueId
  children : List ValueId
deriving DecidableEq

def ValueNode.shape (node : ValueNode) : Shape where
  item := node.item
  applied := node.applied
  parent := node.parent
  children := node.children

namespace ValueTree

/-- The values at every place of two trees have the same shape. -/
def SameShape (t u : ValueTree) : Prop :=
  ∀ id, (t.node? id).map ValueNode.shape = (u.node? id).map ValueNode.shape

theorem sameShape_iff {t u : ValueTree} :
    t.SameShape u ↔ t.nodes.map ValueNode.shape = u.nodes.map ValueNode.shape := by
  constructor
  · intro h
    refine Array.ext_getElem? fun i => ?_
    rw [Array.getElem?_map, Array.getElem?_map]
    exact h ⟨i⟩
  · intro h id
    have hid := congrArg (·[id.index]?) h
    simp only [Array.getElem?_map] at hid
    exact hid

instance (t u : ValueTree) : Decidable (t.SameShape u) := decidable_of_iff' _ sameShape_iff

namespace SameShape

variable {t u : ValueTree}

theorem size_eq (h : t.SameShape u) : t.size = u.size := by
  have hsize := congrArg Array.size (sameShape_iff.mp h)
  simp only [Array.size_map] at hsize
  exact hsize

theorem ids_eq (h : t.SameShape u) : t.ids = u.ids := by
  rw [ids, ids, h.size_eq]

/-- What two trees of one shape have at a place. -/
theorem node?_cases (h : t.SameShape u) (id : ValueId) :
    (t.node? id = none ∧ u.node? id = none) ∨
      ∃ a b, t.node? id = some a ∧ u.node? id = some b ∧ a.shape = b.shape := by
  have hid := h id
  cases ht : t.node? id with
  | none =>
      rw [ht, Option.map_none, eq_comm, Option.map_eq_none_iff] at hid
      exact .inl ⟨rfl, hid⟩
  | some a =>
      rw [ht, Option.map_some, eq_comm, Option.map_eq_some_iff] at hid
      obtain ⟨b, hb, hshape⟩ := hid
      exact .inr ⟨a, b, rfl, hb, hshape.symm⟩

theorem parent?_eq (h : t.SameShape u) : t.parent? = u.parent? := by
  funext id
  unfold parent?
  rcases h.node?_cases id with ⟨ht, hu⟩ | ⟨a, b, ht, hu, hshape⟩
  · rw [ht, hu]
  · rw [ht, hu]
    exact congrArg Shape.parent hshape

theorem children_eq (h : t.SameShape u) : t.children = u.children := by
  funext id
  unfold children
  rcases h.node?_cases id with ⟨ht, hu⟩ | ⟨a, b, ht, hu, hshape⟩
  · rw [ht, hu]
  · rw [ht, hu]
    exact congrArg Shape.children hshape

theorem readThrough_eq (h : t.SameShape u) : t.readThrough = u.readThrough := by
  funext item id
  unfold readThrough
  rcases h.node?_cases id with ⟨ht, hu⟩ | ⟨a, b, ht, hu, hshape⟩
  · rw [ht, hu]
  · rw [ht, hu]
    exact congrArg (·.item == item) hshape

theorem applies_eq (h : t.SameShape u) : t.applies = u.applies := by
  funext item id
  unfold applies
  rcases h.node?_cases id with ⟨ht, hu⟩ | ⟨a, b, ht, hu, hshape⟩
  · rw [ht, hu]
  · rw [ht, hu]
    exact congrArg (·.applied.contains item) hshape

theorem climb?_eq (h : t.SameShape u) (levels : Nat) : t.climb? levels = u.climb? levels := by
  induction levels with
  | zero => rfl
  | succ levels ih =>
      funext id
      rw [climb?, climb?, h.parent?_eq, ih]

end SameShape

end ValueTree

/-! ## Checks that differ in their objects only -/

/-- Two checks that differ at most in the object that their labels name. -/
structure Check.Twin (c d : Check) : Prop where
  rule : c.rule = d.rule
  key : c.label.key = d.label.key
  value : c.value = d.value
  logic : c.logic = d.logic
  dependencies : c.dependencies = d.dependencies
  unsatisfiable : c.unsatisfiable = d.unsatisfiable

/-- Two faults of one kind, about the same checks of two lists. -/
inductive SameFault (cs ds : List Check) : SetupError → SetupError → Prop
  | same (e : SetupError) : SameFault cs ds e e
  | noAncestor {i : Nat} {c d : Check} (hc : cs[i]? = some c) (hd : ds[i]? = some d)
      (ref : RuleRef) : SameFault cs ds (.noAncestor c.label ref) (.noAncestor d.label ref)
  | circular {ring : List Nat} {labels labels' : List RuleLabel}
      (hc : Check.Labelled cs ring labels) (hd : Check.Labelled ds ring labels') :
      SameFault cs ds (.circular labels) (.circular labels')

theorem map_eq_of_forall₂ {α β γ : Type} {R : α → β → Prop} {f : α → γ} {g : β → γ} {as : List α}
    {bs : List β} (h : List.Forall₂ R as bs) (hfg : ∀ a b, R a b → f a = g b) :
    as.map f = bs.map g := by
  induction h with
  | nil => rfl
  | cons hab _ ih => rw [List.map_cons, List.map_cons, hfg _ _ hab, ih]

/-- Lists side by side, with the places of their elements. -/
theorem forall₂_places {α β : Type} {R : α → β → Prop} {as : List α} {bs : List β}
    (h : List.Forall₂ R as bs) :
    List.Forall₂ (fun a b => R a b ∧ ∃ i : Nat, as[i]? = some a ∧ bs[i]? = some b) as bs := by
  refine List.forall₂_iff_get.mpr ⟨h.length_eq, fun i hi hi' => ⟨h.get hi hi', i, ?_, ?_⟩⟩
  · exact List.getElem?_eq_getElem hi
  · exact List.getElem?_eq_getElem hi'

theorem forall₂_eq_self {α : Type} {R : α → α → Prop} (h : ∀ a, R a a) (as : List α) :
    List.Forall₂ R as as :=
  List.forall₂_same.mpr fun a _ => h a

/-! ## Making checks -/

namespace Manifest

open Fallible (Alike)

variable {m : Manifest} {registry : RuleRegistry} {t u : ValueTree} {cs ds : List Check}

theorem check_alike (value : ValueId) (identity identity' : Option String) (rule : RuleId) :
    Alike Eq Check.Twin (m.check registry value identity rule)
      (m.check registry value identity' rule) := by
  unfold check
  refine (Alike.refl (fun _ => rfl) _).bind fun decl _ hdecl => ?_
  subst hdecl
  refine (Alike.refl (fun _ => rfl) _).bind fun logic _ hlogic => ?_
  subst hlogic
  exact .ok ⟨rfl, rfl, rfl, rfl, rfl, rfl⟩

theorem checksOfItem_alike (value : ValueId) (identity identity' : Option String) (item : ItemId) :
    Alike Eq (List.Forall₂ Check.Twin) (m.checksOfItem registry value identity item)
      (m.checksOfItem registry value identity' item) := by
  unfold checksOfItem
  refine (Alike.refl (fun _ => rfl) _).bind fun owner _ howner => ?_
  subst howner
  exact .mapM (forall₂_eq_self (check_alike value identity identity') _)

theorem checksOfValue_alike (h : t.SameShape u) (id : ValueId) :
    Alike Eq (List.Forall₂ Check.Twin) (m.checksOfValue registry t id)
      (m.checksOfValue registry u id) := by
  unfold checksOfValue
  rcases h.node?_cases id with ⟨ht, hu⟩ | ⟨a, b, ht, hu, hshape⟩
  · rw [ht, hu]
    exact .ok .nil
  · have happlied : a.applied = b.applied := congrArg Shape.applied hshape
    rw [ht, hu]
    dsimp only
    rw [happlied]
    refine (Alike.mapM (forall₂_eq_self (checksOfItem_alike id _ _) _)).map ?_
    intro groups groups' hgroups
    exact List.rel_flatten hgroups

/-- The checks of trees of one shape are twins. -/
theorem checks_alike (h : t.SameShape u) :
    Alike Eq (List.Forall₂ Check.Twin) (m.checks registry t) (m.checks registry u) := by
  unfold checks
  rw [h.ids_eq]
  refine (Alike.mapM (forall₂_eq_self (checksOfValue_alike h) _)).map ?_
  intro groups groups' hgroups
  exact List.rel_flatten hgroups

/-! ## Resolving -/

theorem stepDown_eq (h : t.SameShape u) : m.stepDown t = m.stepDown u := by
  funext values item
  rw [stepDown, stepDown, h.applies_eq, h.children_eq, h.readThrough_eq]

theorem descend_eq (h : t.SameShape u) : m.descend t = m.descend u := by
  funext start path
  rw [descend, descend, stepDown_eq h]

theorem find?_eq_of_twins (h : List.Forall₂ Check.Twin cs ds) (rule : RuleId) :
    Check.find? cs rule = Check.find? ds rule := by
  funext value
  unfold Check.find?
  induction h with
  | nil => rfl
  | cons hcd _ ih => rw [List.findIdx?_cons, List.findIdx?_cons, hcd.rule, hcd.value, ih]

variable {c d : Check}

theorem meant_alike (h : t.SameShape u) (hcd : c.Twin d) {i : Nat} (hc : cs[i]? = some c)
    (hd : ds[i]? = some d) (decl : RuleDecl) (ref : RuleRef) :
    Alike (SameFault cs ds) Eq (m.meant t c decl ref) (m.meant u d decl ref) := by
  unfold meant
  refine (Alike.refl (.same) _).bind fun way _ hway => ?_
  subst hway
  obtain ⟨levels, path⟩ := way
  dsimp only
  rw [h.climb?_eq, hcd.value, descend_eq h]
  cases u.climb? levels d.value with
  | none => exact .error (.noAncestor hc hd ref)
  | some start => exact .ok rfl

theorem prerequisites_alike (h : t.SameShape u) (hcs : List.Forall₂ Check.Twin cs ds)
    (hcd : c.Twin d) {i : Nat} (hc : cs[i]? = some c) (hd : ds[i]? = some d) (decl : RuleDecl)
    (ref : RuleRef) :
    Alike (SameFault cs ds) Eq (m.prerequisites t cs c decl ref)
      (m.prerequisites u ds d decl ref) := by
  unfold prerequisites
  refine (Alike.refl (.same) _).bind fun target _ htarget => ?_
  subst htarget
  refine (meant_alike h hcd hc hd decl ref).bind fun values _ hvalues => ?_
  subst hvalues
  rw [find?_eq_of_twins hcs]
  exact .ok rfl

theorem resolveCheck_alike (h : t.SameShape u) (hcs : List.Forall₂ Check.Twin cs ds)
    (hcd : c.Twin d) {i : Nat} (hc : cs[i]? = some c) (hd : ds[i]? = some d) :
    Alike (SameFault cs ds) Check.Twin (m.resolveCheck t cs c) (m.resolveCheck u ds d) := by
  unfold resolveCheck
  rw [hcd.rule]
  refine (Alike.refl (.same) _).bind fun decl _ hdecl => ?_
  subst hdecl
  refine (Alike.mapM (forall₂_eq_self (prerequisites_alike h hcs hcd hc hd decl) _)).bind ?_
  intro found found' hfound
  rw [List.forall₂_eq_eq_eq] at hfound
  subst hfound
  refine .ok ⟨rfl, hcd.key, hcd.value, hcd.logic, ?_, ?_⟩
  · rw [hcd.dependencies]
  · rw [hcd.unsatisfiable]

/-- Resolving twins in trees of one shape gives twins. -/
theorem resolve_alike (h : t.SameShape u) (hcs : List.Forall₂ Check.Twin cs ds) :
    Alike (SameFault cs ds) (List.Forall₂ Check.Twin) (m.resolve t cs) (m.resolve u ds) := by
  refine .mapM ((forall₂_places hcs).imp ?_)
  rintro c d ⟨hcd, i, hc, hd⟩
  exact resolveCheck_alike h hcs hcd hc hd

end Manifest

/-! ## Refusing cycles -/

namespace Check

variable {rs ss : List Check}

theorem graph_eq_of_twins (h : List.Forall₂ Twin rs ss) : graph rs = graph ss := by
  have hdependents : ∀ checks : List Check, dependents checks = fun index =>
      ((checks.map (·.dependencies)).zipIdx.filterMap fun (dependencies, i) =>
        if dependencies.contains index then some i else none).reverse := by
    intro checks
    funext index
    rw [dependents, List.zipIdx_map, List.filterMap_map]
    rfl
  have hmap : rs.map (·.dependencies) = ss.map (·.dependencies) :=
    map_eq_of_forall₂ h fun _ _ hrs => hrs.dependencies
  rw [graph, graph, hdependents rs, hdependents ss, hmap, h.length_eq]

theorem acyclic_alike (h : List.Forall₂ Twin rs ss) :
    Fallible.Alike (SameFault rs ss) Eq (acyclic rs) (acyclic ss) := by
  have hgraph := graph_eq_of_twins h
  cases hr : acyclic rs with
  | ok _ =>
      have hnone : (graph ss).firstCycle? = none := hgraph ▸ acyclic_eq_ok.mp hr
      rw [acyclic_eq_ok.mpr hnone]
      exact .ok rfl
  | error e =>
      obtain ⟨ring, labels, hring, -, hlabels, rfl⟩ := acyclic_eq_error hr
      rw [hgraph] at hring
      cases hs : acyclic ss with
      | ok _ =>
          rw [acyclic_eq_ok.mp hs] at hring
          cases hring
      | error e' =>
          obtain ⟨ring', labels', hring', -, hlabels', rfl⟩ := acyclic_eq_error hs
          obtain rfl := Option.some.inj (hring.symm.trans hring')
          exact .error (.circular hlabels hlabels')

end Check

/-- What the stages of a plan come to in two trees. Either the checks of both cannot be made, for
the same reason, or they are twins; either resolving these fails in both trees, with one kind of
fault about the same check, or it makes twins again; and either both lists are refused for the same
ring of checks, or neither is. -/
def Manifest.StagesAlike (m : Manifest) (registry : RuleRegistry) (t u : ValueTree) : Prop :=
  Fallible.Alike Eq
    (fun cs ds => List.Forall₂ Check.Twin cs ds ∧
      Fallible.Alike (SameFault cs ds)
        (fun rs ss => List.Forall₂ Check.Twin rs ss ∧
          Fallible.Alike (SameFault rs ss) Eq (Check.acyclic rs) (Check.acyclic ss))
        (m.resolve t cs) (m.resolve u ds))
    (m.checks registry t) (m.checks registry u)

/-- **Checks depend on the shape of a tree only.** For any two trees of one shape, whatever the
values in them, the names of the objects and the order in which they arrived, the stages of a plan
come to the same. -/
theorem checks_of_sameShape (m : Manifest) (registry : RuleRegistry) {t u : ValueTree}
    (h : t.SameShape u) : m.StagesAlike registry t u := by
  refine (Manifest.checks_alike h).imp (fun _ _ => id) fun cs ds hcs => ⟨hcs, ?_⟩
  refine (Manifest.resolve_alike h hcs).imp (fun _ _ => id) fun rs ss hrs => ⟨hrs, ?_⟩
  exact Check.acyclic_alike hrs

/-- Folders that know their names. -/
def namedEdits : List Edit := lockedEdits ++ [.setIdentity ⟨0⟩ (.field "name")]

/-- A folder with a locked entry and an empty one. -/
def namedFolder (name key : String) : Json :=
  .object [
    ("entries", .array [.object [("key", .string key), ("name", .string (name ++ "/1"))], .null]),
    ("name", .string name)]

theorem checks_of_sameShape_named :
    ∃ t u, (Manifest.build "Folder" namedEdits).materializeTo .skip 6 (namedFolder "a" "k") =
        .ok t ∧
      (Manifest.build "Folder" namedEdits).materializeTo .skip 6 (namedFolder "b" "l") = .ok u ∧
      t.SameShape u ∧ (Manifest.build "Folder" namedEdits).StagesAlike lockedRules t u := by
  have hsome : (((Manifest.build "Folder" namedEdits).materializeTo .skip 6
      (namedFolder "a" "k")).toOption.bind fun t =>
        ((Manifest.build "Folder" namedEdits).materializeTo .skip 6
          (namedFolder "b" "l")).toOption.filter fun u => decide (t.SameShape u)).isSome =
            true := by decide +kernel
  obtain ⟨u, hu⟩ := Option.isSome_iff_exists.mp hsome
  obtain ⟨t, ht, hu⟩ := Option.bind_eq_some_iff.mp hu
  obtain ⟨hu, hshape⟩ := Option.filter_eq_some_iff.mp hu
  have hsame : t.SameShape u := of_decide_eq_true hshape
  exact ⟨t, u, Fallible.eq_ok_of_toOption ht, Fallible.eq_ok_of_toOption hu, hsame,
    checks_of_sameShape (Manifest.build "Folder" namedEdits) lockedRules hsame⟩

end Vetting
