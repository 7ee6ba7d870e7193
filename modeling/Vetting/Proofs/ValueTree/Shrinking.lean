import Vetting.Proofs.ValueTree.Unfolded

/-!
# Ordinary data is never dropped

A recursive item drops a value that repeats one of its ancestors. Where values are fields of
objects and elements of collections, no value does: what is read out of a value is smaller than the
value, a missing field counting as a null and a null as nothing, while values that are the same are
of one size (`weight_of_same`). So a value is smaller than all its ancestors (`Stands.weight_lt`)
and the same as none. An identity could tell otherwise, and so could a default, which is not read
out of anything.
-/

namespace Vetting

namespace Json

/-! ## Sizes -/

theorem size_pos (v : Json) : 0 < v.size := by
  cases v <;> simp [size]

mutual

theorem size_of_same {a b : Json} (h : a.same b = true) : a.size = b.size := by
  cases a <;> cases b <;> simp only [same, Bool.false_eq_true] at h <;> try rfl
  case array.array as bs => simp only [size, sizeItems_of_same h]
  case object.object fs gs => simp only [size, sizeFields_of_same h]

theorem sizeItems_of_same {as bs : List Json} (h : sameItems as bs = true) :
    sizeItems as = sizeItems bs := by
  cases as with
  | nil =>
      cases bs with
      | nil => rfl
      | cons b bs => cases h
  | cons a as =>
      cases bs with
      | nil => cases h
      | cons b bs =>
          obtain ⟨ha, has⟩ := Bool.and_eq_true_iff.mp h
          simp only [sizeItems, size_of_same ha, sizeItems_of_same has]

theorem sizeFields_of_same {fs gs : List (String × Json)} (h : sameFields fs gs = true) :
    sizeFields fs = sizeFields gs := by
  cases fs with
  | nil =>
      cases gs with
      | nil => rfl
      | cons g gs => cases h
  | cons f fs =>
      cases gs with
      | nil => cases h
      | cons g gs =>
          obtain ⟨hf, hfs⟩ := Bool.and_eq_true_iff.mp h
          simp only [sizeFields, size_of_same (Bool.and_eq_true_iff.mp hf).2,
            sizeFields_of_same hfs]

end

theorem size_le_sizeItems {a : Json} {items : List Json} (h : a ∈ items) :
    a.size ≤ sizeItems items := by
  induction items with
  | nil => cases h
  | cons b items ih =>
      rw [sizeItems]
      rcases List.mem_cons.mp h with rfl | h
      · omega
      · have := ih h
        omega

theorem size_le_sizeFields {f : String × Json} {fields : List (String × Json)} (h : f ∈ fields) :
    f.2.size ≤ sizeFields fields := by
  induction fields with
  | nil => cases h
  | cons g fields ih =>
      rw [sizeFields]
      rcases List.mem_cons.mp h with rfl | h
      · omega
      · have := ih h
        omega

/-- The number of values in a value, a null counting for nothing. -/
def weight (v : Json) : Nat := if v.isNull then 0 else v.size

theorem weight_le_size (v : Json) : v.weight ≤ v.size := by
  unfold weight
  split
  · exact Nat.zero_le _
  · exact Nat.le_refl _

theorem weight_lt_of_item {a : Json} {items : List Json} (h : a ∈ items) :
    a.weight < (array items).size :=
  Nat.lt_succ_of_le (Nat.le_trans a.weight_le_size (size_le_sizeItems h))

theorem weight_lt_of_field {f : String × Json} {fields : List (String × Json)} (h : f ∈ fields) :
    f.2.weight < (object fields).size :=
  Nat.lt_succ_of_le (Nat.le_trans f.2.weight_le_size (size_le_sizeFields h))

theorem weight_of_not_null {v : Json} (h : v.isNull = false) : v.weight = v.size := by
  simp [weight, h]

theorem isNull_of_same {a b : Json} (h : a.same b = true) : a.isNull = b.isNull := by
  cases a <;> cases b <;> first | rfl | simp [same] at h

theorem weight_of_same {a b : Json} (h : a.same b = true) : a.weight = b.weight := by
  rw [weight, weight, isNull_of_same h, size_of_same h]

end Json

/-! ## Reading makes smaller -/

/-- All that the source reads out of a value that is not null is smaller. -/
def Source.Shrinks : Source → Prop
  | .member _ reader _ => ∀ v found, v.isNull = false → reader.read v = .ok found →
      found.weight < v.weight
  | .element enumerator _ => ∀ v elements, v.isNull = false → enumerator.elements v = .ok elements →
      ∀ found ∈ elements, found.weight < v.weight
  | .root | .variant _ => True

theorem Reader.field_shrinks (name key : String) (levels : Option Nat) :
    (Source.member name (.field key) levels).Shrinks := by
  intro v found hnull h
  rw [Json.weight_of_not_null hnull]
  cases v with
  | object fields =>
      obtain rfl := Except.ok.inj h
      cases hfield : fields.lookup key with
      | none => exact Json.size_pos _
      | some w =>
          obtain ⟨before, after, hfields, -⟩ := List.lookup_eq_some_iff.mp hfield
          have hmem : (key, w) ∈ fields := by simp [hfields]
          exact Json.weight_lt_of_field hmem
  | _ => cases h

theorem Enumerator.standard_shrinks (levels : Option Nat) :
    (Source.element .standard levels).Shrinks := by
  intro v elements hnull h found hfound
  rw [Json.weight_of_not_null hnull]
  cases v with
  | array items =>
      obtain rfl := Except.ok.inj h
      exact Json.weight_lt_of_item hfound
  | object fields =>
      obtain rfl := Except.ok.inj h
      obtain ⟨f, hf, rfl⟩ := List.mem_map.mp hfound
      exact Json.weight_lt_of_field hf
  | null => cases hnull
  | _ => cases h

/-- A source that reads a field, or enumerates in the standard way. -/
def Source.Plain : Source → Prop
  | .member _ reader _ => ∃ key, reader = .field key
  | .element enumerator _ => enumerator = .standard
  | .root | .variant _ => True

theorem Source.Plain.shrinks {source : Source} (h : source.Plain) : source.Shrinks := by
  cases source with
  | root | «variant» => trivial
  | member name reader levels =>
      obtain ⟨key, rfl⟩ := h
      exact Reader.field_shrinks name key levels
  | element enumerator levels =>
      obtain rfl := h
      exact Enumerator.standard_shrinks levels

theorem MemberOutcome.eq_of_read {policy : FailurePolicy} {item : Item} {reader : Reader}
    {value found : Json} {outcome : Option Json}
    (h : MemberOutcome policy item reader value outcome) (hread : reader.read value = .ok found) :
    outcome = some found := by
  cases h with
  | read h => rw [← Except.ok.inj (h.symm.trans hread)]
  | fallback h | skipped h => cases h.symm.trans hread

theorem ElementOutcome.eq_of_read {policy : FailurePolicy} {item : Item} {enumerator : Enumerator}
    {value : Json} {elements found : List Json}
    (h : ElementOutcome policy item enumerator value elements)
    (hread : enumerator.elements value = .ok found) : elements = found := by
  cases h with
  | read h => exact Except.ok.inj (h.symm.trans hread)
  | failed h => cases h.symm.trans hread

namespace Manifest

variable {m : Manifest} {policy : FailurePolicy}

/-- A manifest that reads fields and elements only. What recursive items borrow has no identity, and
no default stands in for a member. -/
structure Plain (m : Manifest) (policy : FailurePolicy) : Prop where
  source {id : ItemId} {item : Item} (hi : m.item? id = some item) : item.source.Plain
  anonymous {id d : ItemId} {defining : Item} (hrec : m.isRecursive id = true)
    (hd : m.definition id = .ok d) (hi : m.item? d = some defining) : defining.identity = none
  noDefault {id : ItemId} {item : Item} (hi : m.item? id = some item)
    (hmember : item.source.isMember = true) : item.onFailure.getD policy ≠ .useDefault

theorem Plain.offered_lt (h : m.Plain policy) {value : Json} {slot : ItemId}
    {offered : List (Option Nat × Json)} {offer : Option Nat × Json} (hnull : value.isNull = false)
    (hoffered : m.offered policy value slot = .ok offered) (hoffer : offer ∈ offered) :
    offer.2.weight < value.weight := by
  obtain ⟨item, hget, hbody⟩ := Fallible.bind_eq_ok.mp hoffered
  have hi := get_eq_ok.mp (SetupError.ofManifest_eq_ok.mp hget)
  have hshrinks := (h.source hi).shrinks
  cases hs : item.source with
  | root | «variant» =>
      simp only [hs] at hbody
      cases hbody
      cases hoffer
  | member name reader levels =>
      rw [hs] at hshrinks
      obtain ⟨outcome, houtcome, rfl⟩ := offered_member hi hs hoffered
      cases houtcome with
      | read hread =>
          obtain rfl := List.mem_singleton.mp hoffer
          exact hshrinks value _ hnull hread
      | fallback _ hpolicy => exact absurd hpolicy (h.noDefault hi (by rw [hs]; rfl))
      | skipped => cases hoffer
  | element enumerator levels =>
      rw [hs] at hshrinks
      obtain ⟨elements, houtcome, rfl⟩ := offered_element hi hs hoffered
      obtain ⟨⟨found, place⟩, hmem, rfl⟩ := List.mem_map.mp hoffer
      cases houtcome with
      | read hread => exact hshrinks value _ hnull hread found (List.fst_mem_of_mem_zipIdx hmem)
      | failed => cases hmem

end Manifest

/-! ## Nothing repeats an ancestor -/

/-- A value that stands in an unfolded tree is smaller than all its ancestors. -/
theorem Branch.Stands.weight_lt {m : Manifest} {policy : FailurePolicy} {top b : Branch}
    {parent : Option ValueId} {lineage : List Reading} {start : Nat}
    (h : Stands top parent lineage start b) (hplain : m.Plain policy)
    (htop : m.Grown policy [] top) (hreading : m.IsReading top.reading) :
    ∀ r ∈ lineage, b.reading.value.weight < r.value.weight := by
  induction h with
  | whole => exact nofun
  | @child parent lineage start reading before after b h ih =>
      obtain ⟨hgrown, -⟩ := h.grown htop hreading
      obtain ⟨hnull, slot, -, group, hb, hfills⟩ :=
        hgrown.child_fills (List.mem_append_right before List.mem_cons_self)
      obtain ⟨offered, offer, hoffered, hoffer, hread⟩ := hfills.exists_offer hb
      obtain ⟨-, -, -, hvalue⟩ := Manifest.reading_eq_ok.mp hread
      have hlt : b.reading.value.weight < reading.value.weight :=
        hvalue ▸ hplain.offered_lt hnull hoffered hoffer
      exact List.forall_mem_cons.mpr ⟨hlt, fun r hr => Nat.lt_trans hlt (ih r hr)⟩

namespace Materialized

variable {m : Manifest} {policy : FailurePolicy} {document : Json} {t : ValueTree} {top : Branch}

/-- What a recursive slot offers below a value is neither the value nor an ancestor over again. -/
theorem repeatsAbove_eq_false (h : Materialized m policy document t top) (hplain : m.Plain policy)
    {v : ValueId} {node : ValueNode} (hv : t.node? v = some node)
    (hnull : node.value.isNull = false) {slot : ItemId} (hrec : m.isRecursive slot = true)
    {offered : List (Option Nat × Json)} (hoffered : m.offered policy node.value slot = .ok offered)
    {offer : Option Nat × Json} (hoffer : offer ∈ offered) :
    t.repeatsAbove m v slot offer.2 = false := by
  obtain ⟨parent, lineage, b, hb, rfl, -, -⟩ := h.exists_standing hv
  have hlineage : t.readings (v :: t.ancestors v) = b.reading :: lineage := by
    rw [ValueTree.readings_cons hv]
    rw [h.tree]
    exact congrArg _ hb.lineage
  have habove : ∀ r ∈ b.reading :: lineage, offer.2.weight < r.value.weight := by
    have hlt := hplain.offered_lt hnull hoffered hoffer
    have hbelow := hb.weight_lt hplain h.grown (Manifest.reading_eq_ok.mp h.reading).1
    exact List.forall_mem_cons.mpr ⟨hlt, fun r hr => Nat.lt_trans hlt (hbelow r hr)⟩
  unfold ValueTree.repeatsAbove
  split
  · rename_i below hbelow
    obtain ⟨⟨hd, ⟨defining, hdefining, hidentity⟩, -⟩, rfl, -, hvalue⟩ :=
      Manifest.reading_eq_ok.mp hbelow
    have hnone : below.identity = none := by
      rw [hidentity, Item.identityOf, hplain.anonymous hrec hd hdefining]
      rfl
    rw [hlineage, List.any_eq_false]
    intro r hr hrepeats
    rw [Reading.repeats, hnone, Bool.and_eq_true, hvalue] at hrepeats
    exact absurd (Json.weight_of_same hrepeats.2) (Nat.ne_of_lt (habove r hr))
  · rfl

/-- The slots of the items that apply keep all that they offer. -/
theorem drawn_eq_offered (h : Materialized m policy document t top) (hm : m.Sound)
    (hplain : m.Plain policy) {v : ValueId} {node : ValueNode} (hv : t.node? v = some node)
    (hnull : node.value.isNull = false) {a slot : ItemId} {item : Item} (ha : a ∈ node.applied)
    (hslot : slot ∈ m.slots a) (hi : m.item? slot = some item) :
    m.offered policy node.value slot = .ok (t.drawn v slot) := by
  obtain ⟨offered, hoffered, hdrawn⟩ := h.drawn_of_slot hm hv hnull ha hslot hi
  rw [hoffered, hdrawn, List.filter_eq_self.mpr]
  intro offer hoffer
  cases hrec : item.source.isRecursive with
  | false => rfl
  | true =>
      rw [← Manifest.isRecursive_of_item? hi] at hrec
      rw [h.repeatsAbove_eq_false hplain hv hnull hrec hoffered hoffer]
      rfl

end Materialized

/-- **The check for repeated values drops no ordinary data.** Whatever edits built the manifest, if
its members read fields, its elements are enumerated in the standard way, what recursive items
borrow has no identity, and no default stands in for a member, then nothing that a recursive item
offers repeats the value that it was read from or an ancestor of it. So each value has below it
everything that its members and elements read, recursive or not: a member one value, and an element
as many values as there are elements, with their places from zero on. -/
theorem ordinary_data_kept (rootType : String) (edits : List Edit) {policy : FailurePolicy}
    {depth : Nat} {document : Json} {t : ValueTree}
    (h : (Manifest.build rootType edits).materializeTo policy depth document = .ok t)
    (hplain : (Manifest.build rootType edits).Plain policy) {v : ValueId} {node : ValueNode}
    (hv : t.node? v = some node) (hnull : node.value.isNull = false) {a slot : ItemId} {item : Item}
    (ha : a ∈ node.applied) (hslot : slot ∈ (Manifest.build rootType edits).slots a)
    (hi : (Manifest.build rootType edits).item? slot = some item) :
    (∀ offered, (Manifest.build rootType edits).offered policy node.value slot = .ok offered →
      item.source.isRecursive = true → ∀ offer ∈ offered,
        t.repeatsAbove (Manifest.build rootType edits) v slot offer.2 = false) ∧
    (∀ name reader levels found, item.source = .member name reader levels →
      reader.read node.value = .ok found → t.drawn v slot = [(none, found)]) ∧
    (∀ enumerator levels elements, item.source = .element enumerator levels →
      enumerator.elements node.value = .ok elements →
      t.drawn v slot = elements.zipIdx.map fun (element, place) => (some place, element)) := by
  obtain ⟨top, hmat⟩ := exists_materialized h
  have hm := Manifest.build_sound rootType edits
  have hdrawn := hmat.drawn_eq_offered hm hplain hv hnull ha hslot hi
  refine ⟨fun offered hoffered hrec offer hoffer => ?_, fun name reader levels found hs hread => ?_,
    fun enumerator levels elements hs hread => ?_⟩
  · rw [← Manifest.isRecursive_of_item? hi] at hrec
    exact hmat.repeatsAbove_eq_false hplain hv hnull hrec hoffered hoffer
  · obtain ⟨outcome, houtcome, heq⟩ := Manifest.offered_member hi hs hdrawn
    obtain rfl := houtcome.eq_of_read hread
    exact heq
  · obtain ⟨elements', houtcome, heq⟩ := Manifest.offered_element hi hs hdrawn
    obtain rfl := houtcome.eq_of_read hread
    exact heq

/-- A node with nodes in a list and one node that follows it, where a named node may have a twin. -/
def plantEdits : List Edit := [
  .addMember ⟨0⟩ "children" "Nodes" (.field "children"),
  .setRecursiveElement ⟨1⟩ .standard 2,
  .addRecursiveMember ⟨0⟩ "next" (.field "next") 1,
  .addVariant ⟨0⟩ (.withField "Named" "name"),
  .addRecursiveMember ⟨4⟩ "twin" (.field "twin") 1]

/-- Nodes that are the same turn up side by side, below each other's neighbours, and as nulls. -/
def plant : Json := .object [("children", .array [.object [], .object [], .null]),
  ("name", .string "plant"), ("next", .object [("name", .null)])]

theorem plain_plant : (Manifest.build "Node" plantEdits).Plain .propagate := by
  have hsources : (Manifest.build "Node" plantEdits).items.toList.map (·.source) =
      [.root, .member "children" (.field "children") none, .element .standard (some 2),
        .member "next" (.field "next") (some 1), .variant (.withField "Named" "name"),
        .member "twin" (.field "twin") (some 1)] := rfl
  have hmem : ∀ {id item}, (Manifest.build "Node" plantEdits).item? id = some item →
      item ∈ (Manifest.build "Node" plantEdits).items.toList := fun hi =>
    Array.mem_toList_iff.mpr (Array.mem_of_getElem? hi)
  refine ⟨fun {id item} hi => ?_, fun {id d defining} _ _ hi => ?_, fun {id item} hi _ => ?_⟩
  · have hall : ∀ s ∈ (Manifest.build "Node" plantEdits).items.toList.map (·.source), s.Plain := by
      rw [hsources]
      simp [Source.Plain]
    exact hall _ (List.mem_map_of_mem (hmem hi))
  · have hall : (Manifest.build "Node" plantEdits).items.toList.all (·.identity.isNone) = true :=
      rfl
    exact Option.isNone_iff_eq_none.mp (List.all_eq_true.mp hall _ (hmem hi))
  · have hall : (Manifest.build "Node" plantEdits).items.toList.all (·.onFailure.isNone) = true :=
      rfl
    rw [Option.isNone_iff_eq_none.mp (List.all_eq_true.mp hall _ (hmem hi))]
    exact nofun

theorem ordinary_data_kept_plant :
    (Manifest.build "Node" plantEdits).Plain .propagate ∧
    ∃ t node elements, (Manifest.build "Node" plantEdits).materializeTo .propagate 9 plant = .ok t ∧
      t.node? ⟨1⟩ = some node ∧ Enumerator.standard.elements node.value = .ok elements ∧
      elements.length = 3 ∧
      t.drawn ⟨1⟩ ⟨2⟩ = elements.zipIdx.map fun (element, place) => (some place, element) := by
  have hsome : ((Manifest.build "Node" plantEdits).materializeTo .propagate 9 plant).toOption.any
      (fun t => (t.node? ⟨1⟩).any fun node =>
        node.applied.contains ⟨1⟩ && !node.value.isNull &&
          (Enumerator.standard.elements node.value).toOption.any (·.length == 3)) = true := by
    decide +kernel
  obtain ⟨t, ht, hsome⟩ := (Option.any_eq_true _ _).mp hsome
  obtain ⟨node, hnode, hsome⟩ := (Option.any_eq_true _ _).mp hsome
  obtain ⟨hnode', hlength⟩ := Bool.and_eq_true_iff.mp hsome
  obtain ⟨happlied, hnull⟩ := Bool.and_eq_true_iff.mp hnode'
  obtain ⟨elements, helements, hlength⟩ := (Option.any_eq_true _ _).mp hlength
  have htree := Fallible.eq_ok_of_toOption ht
  have hread := Fallible.eq_ok_of_toOption helements
  refine ⟨plain_plant, t, node, elements, htree, hnode, hread, by simpa using hlength, ?_⟩
  exact (ordinary_data_kept "Node" plantEdits htree plain_plant hnode (by simpa using hnull)
    (List.contains_iff_mem.mp happlied) (List.mem_singleton.mpr rfl) rfl).2.2
      .standard (some 2) elements rfl hread

end Vetting
