import Vetting.Proofs.ValueTree.Growth
import Vetting.Proofs.ValueTree.Placement

/-!
# A value tree is the unfolding of its manifest

What every value of a materialized tree owes to the manifest (`UnfoldedAt`): its definition and
identity, the items that apply to it, the item that it was read through, and for each slot of an
item that applies the values read through that slot, neither more nor fewer than the data give. The
headline is `materializeTo_unfolded`.

The facts come from the growth of branches (`Manifest.Fills`) and are carried over to numbers by
`Branch.Stands`. A tree that was materialized (`Materialized`) is one whose top branch has grown
from the document.
-/

namespace Vetting

/-! ## Grouped lists -/

/-- A list that falls into groups falls into as many groups alongside. -/
theorem exists_groups_of_forall₂ {α β : Type} {R : α → β → Prop} {as : List α}
    {groups : List (List β)} (h : List.Forall₂ R as groups.flatten) :
    ∃ ass : List (List α), ass.flatten = as ∧ List.Forall₂ (List.Forall₂ R) ass groups := by
  induction groups generalizing as with
  | nil =>
      cases h
      exact ⟨[], rfl, .nil⟩
  | cons group groups ih =>
      obtain ⟨ass, hflat, hass⟩ := ih (List.forall₂_drop_append as group _ h)
      refine ⟨as.take group.length :: ass, ?_, .cons (List.forall₂_take_append as group _ h) hass⟩
      rw [List.flatten_cons, hflat, List.take_append_drop]

theorem forall₂_through {α β γ : Type} {R : α → β → Prop} {S : γ → β → Prop} {as : List α}
    {bs : List β} {cs : List γ} (hr : List.Forall₂ R as bs) (hs : List.Forall₂ S cs bs) :
    List.Forall₂ (fun a c => ∃ b, R a b ∧ S c b) as cs := by
  induction hr generalizing cs with
  | nil =>
      cases hs
      exact .nil
  | cons hab _ ih =>
      cases hs with
      | cons hcb hrest => exact .cons ⟨_, hab, hcb⟩ (ih hrest)

/-- Groups that are told apart by a test are what the test selects. -/
theorem filter_flatten_of_forall₂ {α β : Type} {p : α → β → Bool} {as : List α}
    {groups : List (List β)} (has : as.Nodup)
    (h : List.Forall₂ (fun a group => ∀ b ∈ group, ∀ a', p a' b = true ↔ a' = a) as groups) :
    List.Forall₂ (fun a group => groups.flatten.filter (p a) = group) as groups := by
  induction h with
  | nil => exact .nil
  | @cons a group as groups hgroup hrest ih =>
      obtain ⟨hmem, hnodup⟩ := List.nodup_cons.mp has
      have hself : group.filter (p a) = group :=
        List.filter_eq_self.mpr fun b hb => (hgroup b hb a).mpr rfl
      have hnone : groups.flatten.filter (p a) = [] := by
        refine List.filter_eq_nil_iff.mpr fun b hb hp => ?_
        obtain ⟨other, hother, hb⟩ := List.mem_flatten.mp hb
        obtain ⟨a', ha', hr⟩ := exists_left_of_forall₂ hrest hother
        exact hmem ((hr b hb a).mp hp ▸ ha')
      refine .cons ?_ ?_
      · rw [List.flatten_cons, List.filter_append, hself, hnone, List.append_nil]
      · have hlisted := (List.forall₂_and_left as groups).mpr ⟨fun _ ha' => ha', ih hnodup⟩
        refine hlisted.imp fun a' group' ⟨ha', hr⟩ => ?_
        have hskip : group.filter (p a') = [] := by
          refine List.filter_eq_nil_iff.mpr fun b hb hp => ?_
          exact hmem ((hgroup b hb a').mp hp ▸ ha')
        rw [List.flatten_cons, List.filter_append, hskip, List.nil_append, hr]

/-! ## What slots give -/

/-- What a member reads out of a value: a value, the default, or nothing. -/
inductive MemberOutcome (policy : FailurePolicy) (item : Item) (reader : Reader) (value : Json) :
    Option Json → Prop
  | read {found : Json} (h : reader.read value = .ok found) :
      MemberOutcome policy item reader value (some found)
  | fallback {failure : ReadFailure} (h : reader.read value = .error failure)
      (hpolicy : item.onFailure.getD policy = .useDefault) :
      MemberOutcome policy item reader value (some item.fallback)
  | skipped {failure : ReadFailure} (h : reader.read value = .error failure)
      (hpolicy : item.onFailure.getD policy = .skip) :
      MemberOutcome policy item reader value none

/-- What an element reads out of a value: the elements, or none of them. -/
inductive ElementOutcome (policy : FailurePolicy) (item : Item) (enumerator : Enumerator)
    (value : Json) : List Json → Prop
  | read {elements : List Json} (h : enumerator.elements value = .ok elements) :
      ElementOutcome policy item enumerator value elements
  | failed {failure : ReadFailure} (h : enumerator.elements value = .error failure)
      (hpolicy : item.onFailure.getD policy ≠ .propagate) :
      ElementOutcome policy item enumerator value []

namespace Manifest

variable {m : Manifest}

theorem isRecursive_of_item? {id : ItemId} {item : Item} (hi : m.item? id = some item) :
    m.isRecursive id = item.source.isRecursive := by
  simp [isRecursive, hi]

theorem offered_member {policy : FailurePolicy} {value : Json} {slot : ItemId} {item : Item}
    {name : String} {reader : Reader} {levels : Option Nat} {offered : List (Option Nat × Json)}
    (hi : m.item? slot = some item) (hs : item.source = .member name reader levels)
    (h : m.offered policy value slot = .ok offered) :
    ∃ outcome, MemberOutcome policy item reader value outcome ∧
      offered = outcome.toList.map (none, ·) := by
  obtain ⟨item', hget, h⟩ := Fallible.bind_eq_ok.mp h
  obtain rfl := Option.some.inj (hi.symm.trans (get_eq_ok.mp (SetupError.ofManifest_eq_ok.mp hget)))
  simp only [hs] at h
  cases hr : reader.read value with
  | ok found =>
      rw [hr] at h
      cases h
      exact ⟨some found, .read hr, rfl⟩
  | error failure =>
      rw [hr] at h
      cases hp : item.onFailure.getD policy with
      | propagate => rw [hp] at h; cases h
      | useDefault =>
          rw [hp] at h
          cases h
          exact ⟨some item.fallback, .fallback hr hp, rfl⟩
      | skip =>
          rw [hp] at h
          cases h
          exact ⟨none, .skipped hr hp, rfl⟩

theorem offered_element {policy : FailurePolicy} {value : Json} {slot : ItemId} {item : Item}
    {enumerator : Enumerator} {levels : Option Nat} {offered : List (Option Nat × Json)}
    (hi : m.item? slot = some item) (hs : item.source = .element enumerator levels)
    (h : m.offered policy value slot = .ok offered) :
    ∃ elements, ElementOutcome policy item enumerator value elements ∧
      offered = elements.zipIdx.map fun (element, place) => (some place, element) := by
  obtain ⟨item', hget, h⟩ := Fallible.bind_eq_ok.mp h
  obtain rfl := Option.some.inj (hi.symm.trans (get_eq_ok.mp (SetupError.ofManifest_eq_ok.mp hget)))
  simp only [hs] at h
  cases hr : enumerator.elements value with
  | ok elements =>
      rw [hr] at h
      cases h
      exact ⟨elements, .read hr, rfl⟩
  | error failure =>
      rw [hr] at h
      cases hp : item.onFailure.getD policy with
      | propagate => rw [hp] at h; cases h
      | useDefault =>
          rw [hp] at h
          cases h
          exact ⟨[], .failed hr (by rw [hp]; exact nofun), rfl⟩
      | skip =>
          rw [hp] at h
          cases h
          exact ⟨[], .failed hr (by rw [hp]; exact nofun), rfl⟩

end Manifest

/-! ## Materialized trees -/

/-- A tree whose top branch has grown from a reading of the document. -/
structure Materialized (m : Manifest) (policy : FailurePolicy) (document : Json) (t : ValueTree)
    (top : Branch) : Prop where
  tree : t = .ofBranch top
  reading : m.reading Manifest.root none document = .ok top.reading
  grown : m.Grown policy [] top

theorem exists_materialized {m : Manifest} {policy : FailurePolicy} {depth : Nat} {document : Json}
    {t : ValueTree} (h : m.materializeTo policy depth document = .ok t) :
    ∃ top, Materialized m policy document t top := by
  obtain ⟨top, htop, rfl⟩ := Fallible.map_eq_ok.mp h
  obtain ⟨r, hr, hgrow⟩ := Fallible.bind_eq_ok.mp htop
  have hreading := SetupError.ofManifest_eq_ok.mp hr
  rw [← Manifest.reading_of_grow hgrow] at hreading
  exact ⟨top, rfl, hreading, Manifest.grown_of_grow hgrow⟩

/-- Every branch that stands in a materialized tree has grown below its lineage. -/
theorem Branch.Stands.grown {m : Manifest} {policy : FailurePolicy} {top b : Branch}
    {parent : Option ValueId} {lineage : List Reading} {start : Nat}
    (h : Stands top parent lineage start b) (htop : m.Grown policy [] top)
    (hreading : m.IsReading top.reading) :
    m.Grown policy lineage b ∧ m.IsReading b.reading := by
  induction h with
  | whole => exact ⟨htop, hreading⟩
  | child h ih =>
      obtain ⟨hgrown, hread, -⟩ := ih.1.child (List.mem_append_right _ List.mem_cons_self)
      exact ⟨hgrown, hread⟩

/-- A branch that stands is the top, or it is among the branches of the one that stands above. -/
theorem Branch.Stands.parent_cases {top b : Branch} {parent : Option ValueId}
    {lineage : List Reading} {start : Nat} (h : Stands top parent lineage start b) :
    (parent = none ∧ start = 0 ∧ b = top) ∨
      ∃ p parent' lineage' above, parent = some ⟨p⟩ ∧ p < start ∧
        Stands top parent' lineage' p above ∧ b ∈ above.children ∧
        ⟨start⟩ ∈ numbers (p + 1) above.children := by
  cases h with
  | whole => exact .inl ⟨rfl, rfl, rfl⟩
  | @child parent lineage p reading before after b h =>
      exact .inr ⟨p, parent, lineage, _, rfl, by omega, h,
        List.mem_append_right _ List.mem_cons_self,
        mem_numbers_iff.mpr ⟨before, b, after, rfl, rfl⟩⟩

namespace ValueTree

/-- Whether `value`, read through `slot` below the value `v`, is `v` or one of its ancestors over
again. -/
def repeatsAbove (t : ValueTree) (m : Manifest) (v : ValueId) (slot : ItemId) (value : Json) :
    Bool :=
  match m.reading slot none value with
  | .ok below => (t.readings (v :: t.ancestors v)).any below.repeats
  | .error _ => false

/-- The children of a value that were read through a slot, in order. -/
def childrenThrough (t : ValueTree) (v : ValueId) (slot : ItemId) : List ValueId :=
  (t.children v).filter (t.readThrough slot)

/-- What was read through a slot below a value, with the places of elements. -/
def drawn (t : ValueTree) (v : ValueId) (slot : ItemId) : List (Option Nat × Json) :=
  (t.readings (t.childrenThrough v slot)).map fun r => (r.order, r.value)

/-- Value `v` of a tree, which is `node`, is what the manifest makes of it and has below it what
the manifest reads out of it. -/
structure UnfoldedAt (t : ValueTree) (m : Manifest) (policy : FailurePolicy) (document : Json)
    (v : ValueId) (node : ValueNode) : Prop where
  /-- The value without a parent is the document, read through the root. -/
  top (h : node.parent = none) :
    v = root ∧ node.item = Manifest.root ∧ node.value = document ∧ node.order = none
  definition : m.definition node.item = .ok node.definition
  identity : ∃ defining, m.item? node.definition = some defining ∧
    node.identity = defining.identityOf node.value
  /-- The parent lists the value, and the item of the value belongs to an item that applies to the
  parent, one level below its definition. -/
  parent {p : ValueId} (hp : node.parent = some p) :
    ∃ above item a, t.node? p = some above ∧ v ∈ above.children ∧
      m.item? node.item = some item ∧ item.parent = some a ∧ a ∈ above.applied ∧
      m.above? node.item = some above.definition
  null (h : node.value.isNull = true) : node.children = [] ∧ node.applied = [node.definition]
  applied_nodup : node.applied.Nodup
  /-- A variant of an item that applies does so, too, if its recognizer accepts the value. -/
  mem_applied (h : node.value.isNull = false) (x : ItemId) :
    x ∈ node.applied ↔ x = node.definition ∨
      ∃ a ∈ node.applied, x ∈ m.variants a ∧
        ∃ item recognizer, m.item? x = some item ∧ item.source = .variant recognizer ∧
          recognizer.accepts node.value = true
  /-- A member yields one value or none; a recursive one drops a repeated value. -/
  member (h : node.value.isNull = false) {a slot : ItemId} {item : Item} {name : String}
    {reader : Reader} {levels : Option Nat} (ha : a ∈ node.applied) (hslot : slot ∈ m.slots a)
    (hi : m.item? slot = some item) (hs : item.source = .member name reader levels) :
    ∃ outcome, MemberOutcome policy item reader node.value outcome ∧
      t.drawn v slot = (outcome.toList.filter fun value =>
        !(levels.isSome && t.repeatsAbove m v slot value)).map (none, ·)
  /-- An element yields every element with its place; a recursive one drops repeated elements and
  leaves their places out. -/
  element (h : node.value.isNull = false) {a slot : ItemId} {item : Item} {enumerator : Enumerator}
    {levels : Option Nat} (ha : a ∈ node.applied) (hslot : slot ∈ m.slots a)
    (hi : m.item? slot = some item) (hs : item.source = .element enumerator levels) :
    ∃ elements, ElementOutcome policy item enumerator node.value elements ∧
      t.drawn v slot = (elements.zipIdx.map fun (element, place) => (some place, element)).filter
        fun offer => !(levels.isSome && t.repeatsAbove m v slot offer.2)
  /-- The children are those read through the slots of the items that apply, slot by slot. -/
  children : node.children = (node.applied.flatMap m.slots).flatMap (t.childrenThrough v)

end ValueTree

/-! ## From branches to numbers -/

section Standing

variable {m : Manifest} {policy : FailurePolicy} {top b : Branch} {parent : Option ValueId}
  {lineage : List Reading} {start : Nat}

/-- What was read at the numbers of branches that stand is what the branches hold. -/
theorem readings_of_stands {parent : Option ValueId} {lineage : List Reading} {ids : List ValueId}
    {bs : List Branch}
    (h : List.Forall₂ (fun id c => Branch.Stands top parent lineage id.index c) ids bs) :
    (ValueTree.ofBranch top).readings ids = bs.map Branch.reading := by
  induction h with
  | nil => rfl
  | @cons id c ids bs hc _ ih =>
      rw [ValueTree.readings_cons hc.node?, ih]
      rfl

theorem readThrough_of_stands {id : ValueId} (h : Branch.Stands top parent lineage id.index b)
    (slot : ItemId) :
    (ValueTree.ofBranch top).readThrough slot id = true ↔ b.reading.item = slot := by
  rw [ValueTree.readThrough, show (ValueTree.ofBranch top).node? id = _ from h.node?]
  simp

/-- The children of a value, slot by slot: the numbers of the branches that fill the slot. -/
theorem childrenThrough_of_stands (hm : m.Sound) (h : Branch.Stands top parent lineage start b)
    (hgrown : m.Grown policy lineage b) (hreading : m.IsReading b.reading)
    (hnull : b.reading.value.isNull = false) :
    let t := ValueTree.ofBranch top
    let slots := b.reading.applied.flatMap m.slots
    t.children ⟨start⟩ = slots.flatMap (t.childrenThrough ⟨start⟩) ∧
      ∀ slot ∈ slots, ∃ group,
        m.Fills policy (b.reading :: lineage) b.reading.value slot group ∧
        t.readings (t.childrenThrough ⟨start⟩ slot) = group.map Branch.reading := by
  intro t slots
  have hchildren := hgrown.children
  rw [if_neg (by rw [hnull]; exact Bool.false_ne_true)] at hchildren
  obtain ⟨groups, hfills, hflat⟩ := hchildren
  have hstands := h.children
  rw [hflat] at hstands
  obtain ⟨idss, hids, hidss⟩ := exists_groups_of_forall₂ hstands
  have hslots : List.Forall₂ (fun slot ids => ∃ group,
      m.Fills policy (b.reading :: lineage) b.reading.value slot group ∧
        List.Forall₂
          (fun id c => Branch.Stands top (some ⟨start⟩) (b.reading :: lineage) id.index c) ids
          group) slots idss := forall₂_through hfills hidss
  have hthrough : List.Forall₂ (fun slot ids => t.childrenThrough ⟨start⟩ slot = ids) slots
      idss := by
    have htest : t.children ⟨start⟩ = idss.flatten := by
      rw [ValueTree.children, h.node?, hids]
      rw [hflat]
      rfl
    simp only [ValueTree.childrenThrough, htest]
    refine filter_flatten_of_forall₂ (Manifest.flatMap_slots_nodup hm (hreading.nodup hm)) ?_
    refine hslots.imp fun slot ids ⟨group, hgroup, hids⟩ id hid slot' => ?_
    obtain ⟨c, hc, hstand⟩ := exists_right_of_forall₂ hids hid
    rw [readThrough_of_stands hstand, (hgroup.item hc).2]
    exact eq_comm
  constructor
  · have hmap : slots.map (t.childrenThrough ⟨start⟩) = idss :=
      List.forall₂_eq_eq_eq ▸ List.forall₂_map_left_iff.mpr hthrough
    rw [List.flatMap_def, hmap, hids, ValueTree.children, h.node?, hflat]
    rfl
  · intro slot hslot
    have hboth := List.Forall₂.mp (fun _ _ hgroup hids => And.intro hgroup hids) hslots hthrough
    obtain ⟨ids, -, ⟨group, hgroup, hstand⟩, heq⟩ := exists_right_of_forall₂ hboth hslot
    exact ⟨group, hgroup, by rw [heq, readings_of_stands hstand]⟩

/-- Whether a slot keeps a reading, said of the numbered tree. -/
theorem keeps_of_stands (h : Branch.Stands top parent lineage start b) {slot : ItemId}
    {offer : Option Nat × Json} {below : Reading}
    (hbelow : m.reading slot offer.1 offer.2 = .ok below) :
    m.keeps (b.reading :: lineage) slot below = !(m.isRecursive slot &&
      (ValueTree.ofBranch top).repeatsAbove m ⟨start⟩ slot offer.2) := by
  have hlineage : (ValueTree.ofBranch top).readings
      (⟨start⟩ :: (ValueTree.ofBranch top).ancestors ⟨start⟩) = b.reading :: lineage := by
    rw [ValueTree.readings_cons h.node?, h.lineage]
  obtain ⟨⟨hd, hidentity, happlied⟩, rfl, -, hvalue⟩ := Manifest.reading_eq_ok.mp hbelow
  have hnone : m.reading below.item none offer.2 = .ok { below with order := none } :=
    Manifest.reading_eq_ok.mpr ⟨⟨hd, hidentity, happlied⟩, rfl, rfl, hvalue⟩
  rw [ValueTree.repeatsAbove, hnone, hlineage]
  rfl

/-- What a slot keeps of its offers, said of the numbered tree. -/
theorem drawn_of_stands (hm : m.Sound) (h : Branch.Stands top parent lineage start b)
    (hgrown : m.Grown policy lineage b) (hreading : m.IsReading b.reading)
    (hnull : b.reading.value.isNull = false) {slot : ItemId}
    (hslot : slot ∈ b.reading.applied.flatMap m.slots) :
    ∃ offered, m.offered policy b.reading.value slot = .ok offered ∧
      (ValueTree.ofBranch top).drawn ⟨start⟩ slot = offered.filter fun offer =>
        !(m.isRecursive slot && (ValueTree.ofBranch top).repeatsAbove m ⟨start⟩ slot offer.2) := by
  obtain ⟨group, hgroup, hreadings⟩ :=
    (childrenThrough_of_stands hm h hgrown hreading hnull).2 slot hslot
  obtain ⟨offered, readings, hoffered, hread, hmap⟩ := hgroup.readings
  refine ⟨offered, hoffered, ?_⟩
  rw [ValueTree.drawn, hreadings, hmap]
  clear hoffered hmap
  induction hread with
  | nil => rfl
  | @cons offer below offered readings hbelow _ ih =>
      obtain ⟨-, -, horder, hvalue⟩ := Manifest.reading_eq_ok.mp hbelow
      rw [List.filter_cons, List.filter_cons, keeps_of_stands h hbelow]
      split
      · rw [List.map_cons, ih, horder, hvalue]
      · exact ih

end Standing

namespace Materialized

variable {m : Manifest} {policy : FailurePolicy} {document : Json} {t : ValueTree} {top : Branch}

/-- Every value of a materialized tree is that of a branch which stands at its number. -/
theorem exists_standing (h : Materialized m policy document t top) {v : ValueId} {node : ValueNode}
    (hv : t.node? v = some node) :
    ∃ parent lineage b, Branch.Stands top parent lineage v.index b ∧
      node = { b.reading with parent, children := Branch.numbers (v.index + 1) b.children } ∧
      m.Grown policy lineage b ∧ m.IsReading b.reading := by
  obtain ⟨rfl, hread, hgrown⟩ := h
  obtain ⟨parent, lineage, b, hb⟩ := Branch.exists_stands hv
  have hnode := hb.node?
  rw [ValueId.mk_index, hv] at hnode
  exact ⟨parent, lineage, b, hb, Option.some.inj hnode,
    hb.grown hgrown (Manifest.reading_eq_ok.mp hread).1⟩

/-- A value with a parent was read through a slot of an item that applies to the parent. -/
theorem exists_parent (h : Materialized m policy document t top) {v p : ValueId} {node : ValueNode}
    (hv : t.node? v = some node) (hp : node.parent = some p) :
    ∃ above a, t.node? p = some above ∧ v ∈ above.children ∧ a ∈ above.applied ∧
      node.item ∈ m.slots a ∧ p.index < v.index := by
  obtain ⟨parent, lineage, b, hb, rfl, -, -⟩ := h.exists_standing hv
  obtain ⟨rfl, hread, hgrown⟩ := h
  rcases hb.parent_cases with ⟨rfl, -, -⟩ | ⟨q, parent', lineage', above, rfl, hlt, ha, hc, hmem⟩
  · cases hp
  · obtain rfl : (⟨q⟩ : ValueId) = p := Option.some.inj hp
    obtain ⟨hgrownA, -⟩ := ha.grown hgrown (Manifest.reading_eq_ok.mp hread).1
    obtain ⟨-, -, hitem⟩ := hgrownA.child hc
    obtain ⟨a, haa, hslot⟩ := List.mem_flatMap.mp hitem
    exact ⟨_, a, ha.node?, hmem, haa, hslot, hlt⟩

/-- Every value was read through an item with a level of its own. -/
theorem item_position (h : Materialized m policy document t top) (hm : m.Sound) {v : ValueId}
    {node : ValueNode} (hv : t.node? v = some node) : m.IsPosition node.item := by
  cases hp : node.parent with
  | some p =>
      obtain ⟨above, a, -, -, -, hslot, -⟩ := h.exists_parent hv hp
      obtain ⟨item, hi, -, hvariant⟩ := Manifest.slot_spec hm hslot
      exact ⟨item, hi, hvariant⟩
  | none =>
      obtain ⟨parent, lineage, b, hb, rfl, -, -⟩ := h.exists_standing hv
      rcases hb.parent_cases with ⟨-, -, rfl⟩ | ⟨q, _, _, _, rfl, _⟩
      · rw [show b.reading.item = Manifest.root from (Manifest.reading_eq_ok.mp h.reading).2.1]
        exact hm.root_position
      · cases hp

/-- What the slots of the items that apply keep of their offers. -/
theorem drawn_of_slot (h : Materialized m policy document t top) (hm : m.Sound) {v : ValueId}
    {node : ValueNode} (hv : t.node? v = some node) (hnull : node.value.isNull = false)
    {a slot : ItemId} {item : Item} (ha : a ∈ node.applied) (hslot : slot ∈ m.slots a)
    (hi : m.item? slot = some item) :
    ∃ offered, m.offered policy node.value slot = .ok offered ∧
      t.drawn v slot = offered.filter fun offer =>
        !(item.source.isRecursive && t.repeatsAbove m v slot offer.2) := by
  obtain ⟨parent, lineage, b, hb, rfl, hgrown, hreading⟩ := h.exists_standing hv
  obtain ⟨offered, hoffered, hdrawn⟩ := drawn_of_stands hm hb hgrown hreading hnull
    (List.mem_flatMap.mpr ⟨a, ha, hslot⟩)
  refine ⟨offered, hoffered, ?_⟩
  rw [h.tree, ← Manifest.isRecursive_of_item? hi]
  exact hdrawn

/-- The children of a value are those read through its slots, slot by slot. -/
theorem children_eq (h : Materialized m policy document t top) (hm : m.Sound) {v : ValueId}
    {node : ValueNode} (hv : t.node? v = some node) :
    node.children = (node.applied.flatMap m.slots).flatMap (t.childrenThrough v) := by
  have hchildrenOf : t.children v = node.children := by rw [ValueTree.children, hv]; rfl
  obtain ⟨parent, lineage, b, hb, rfl, hgrown, hreading⟩ := h.exists_standing hv
  cases hnull : b.reading.value.isNull with
  | true =>
      have hchildren := hgrown.children
      rw [if_pos hnull] at hchildren
      have hnone : t.children v = [] := by
        rw [hchildrenOf, hchildren]
        rfl
      rw [← hchildrenOf]
      simp [ValueTree.childrenThrough, hnone]
  | false =>
      obtain ⟨hchildren, -⟩ := childrenThrough_of_stands hm hb hgrown hreading hnull
      rw [← h.tree, ValueId.mk_index, hchildrenOf] at hchildren
      exact hchildren

theorem unfoldedAt (h : Materialized m policy document t top) (hm : m.Sound) {v : ValueId}
    {node : ValueNode} (hv : t.node? v = some node) :
    t.UnfoldedAt m policy document v node := by
  have hparent := fun p => h.exists_parent (p := p) hv
  have hchildren := h.children_eq hm hv
  obtain ⟨parent, lineage, b, hb, rfl, hgrown, hreading⟩ := h.exists_standing hv
  have happlied := hreading.applied
  refine ⟨?_, hreading.definition, hreading.identity, ?_, ?_, hreading.nodup hm, ?_, ?_, ?_,
    hchildren⟩
  · intro hnone
    rcases hb.parent_cases with ⟨-, hstart, rfl⟩ | ⟨q, _, _, _, rfl, _⟩
    · obtain ⟨-, hitem, horder, hvalue⟩ := Manifest.reading_eq_ok.mp h.reading
      exact ⟨congrArg ValueId.mk hstart, hitem, hvalue, horder⟩
    · cases hnone
  · intro p hp
    obtain ⟨above, a, hap, hmem, haa, hslot, -⟩ := hparent p hp
    obtain ⟨item, hi, hia, hvariant⟩ := Manifest.slot_spec hm hslot
    obtain ⟨_, _, c, _, rfl, -, hreadingA⟩ := h.exists_standing hap
    refine ⟨_, item, a, hap, hmem, hi, hia, haa, ?_⟩
    rw [Manifest.above?_of_position hi hvariant hia,
      hreadingA.anchor_eq hm (h.item_position hm hap) haa]
  · intro hnull
    have hnone := hgrown.children
    rw [if_pos hnull] at hnone happlied
    exact ⟨by rw [hnone]; rfl, happlied⟩
  · intro hnull x
    rw [if_neg (by rw [hnull]; exact Bool.false_ne_true)] at happlied
    simp only [happlied, ← Manifest.recognizes_iff]
    exact Manifest.mem_applied_iff hm
  · intro hnull a slot item name reader levels ha hslot hi hs
    obtain ⟨offered, hoffered, hdrawn⟩ := h.drawn_of_slot hm hv hnull ha hslot hi
    obtain ⟨outcome, houtcome, rfl⟩ := Manifest.offered_member hi hs hoffered
    refine ⟨outcome, houtcome, ?_⟩
    rw [hdrawn, hs, List.filter_map]
    rfl
  · intro hnull a slot item enumerator levels ha hslot hi hs
    obtain ⟨offered, hoffered, hdrawn⟩ := h.drawn_of_slot hm hv hnull ha hslot hi
    obtain ⟨elements, helements, rfl⟩ := Manifest.offered_element hi hs hoffered
    refine ⟨elements, helements, ?_⟩
    rw [hdrawn, hs]
    rfl

end Materialized

/-- **A value tree is exactly the unfolding of the manifest over the data**: whatever edits built
the manifest, whatever the document and the policy, and to whatever depth the tree was followed,
every value of a materialized tree is what the manifest makes of it and has below it what the
manifest reads out of it. -/
theorem materializeTo_unfolded (rootType : String) (edits : List Edit) {policy : FailurePolicy}
    {depth : Nat} {document : Json} {t : ValueTree}
    (h : (Manifest.build rootType edits).materializeTo policy depth document = .ok t)
    {v : ValueId} {node : ValueNode} (hv : t.node? v = some node) :
    t.UnfoldedAt (Manifest.build rootType edits) policy document v node := by
  obtain ⟨top, hmat⟩ := exists_materialized h
  exact hmat.unfoldedAt (Manifest.build_sound rootType edits) hv

/-- A folder with entries that are folders, a variant that has a member of its own, a member that
cannot be read, and a recursive member that reads the folder itself. -/
def folderEdits : List Edit := [
  .addMember ⟨0⟩ "entries" "Entries" (.field "entries"),
  .setRecursiveElement ⟨1⟩ .standard 2,
  .addVariant ⟨0⟩ (.withField "Locked" "key"),
  .addMember ⟨3⟩ "key" "Key" (.field "key"),
  .addMember ⟨0⟩ "owner" "User" (.failing "offline"),
  .addRecursiveMember ⟨0⟩ "link" .itself 1]

def folder : Json := .object [("entries", .array [.object [("key", .string "k")], .null])]

/-- The first entry has a key, so the variant applies to it. -/
theorem materializeTo_unfolded_folder :
    ∃ t node, (Manifest.build "Folder" folderEdits).materializeTo .skip 6 folder = .ok t ∧
      t.node? ⟨2⟩ = some node ∧ node.applied = [⟨0⟩, ⟨3⟩] ∧
      t.UnfoldedAt (Manifest.build "Folder" folderEdits) .skip folder ⟨2⟩ node := by
  have hsome : (((Manifest.build "Folder" folderEdits).materializeTo .skip 6 folder).toOption.bind
      (·.node? ⟨2⟩)).any (·.applied == [⟨0⟩, ⟨3⟩]) = true := by decide +kernel
  obtain ⟨node, hnode, happlied⟩ := (Option.any_eq_true _ _).mp hsome
  obtain ⟨t, ht, hnode⟩ := Option.bind_eq_some_iff.mp hnode
  have htree := Fallible.eq_ok_of_toOption ht
  exact ⟨t, node, htree, hnode, eq_of_beq happlied,
    materializeTo_unfolded "Folder" folderEdits htree hnode⟩

end Vetting
