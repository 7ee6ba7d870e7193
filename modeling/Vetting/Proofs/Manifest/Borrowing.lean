import Vetting.Proofs.Manifest.Stability

/-!
# Borrowed definitions

A recursive item gets its type when it is added, counted from its owner because the item is not
there yet. Its definition is looked up later, counted from the item itself. The two agree in
whatever manifest edits build (`borrowed_definition`): where the levels lead to an item, that item
lends its type and its definition, and it has a definition of its own; where they do not, the item
has the type of its owner and no definition.

The type is that of `borrowedType` at the moment of the edit. Since the levels above an owner stay
as they are, it is that of every later moment, too (`TypesBorrowed`).
-/

namespace Vetting

namespace Manifest

variable {m m' : Manifest}

/-! ## Items above an item have definitions of their own -/

/-- `id` is an item with a level and a definition of its own. -/
def IsOwn (m : Manifest) (id : ItemId) : Prop :=
  ∃ item, m.item? id = some item ∧ item.source.isVariant = false ∧ item.source.isRecursive = false

theorem IsOwn.definition {id : ItemId} (h : m.IsOwn id) : m.definition id = .ok id := by
  obtain ⟨item, hi, -, hrec⟩ := h
  have hnone : item.source.levels? = none := by simpa [Source.isRecursive] using hrec
  exact definition_eq_ok.mpr ⟨item, hi, .inl ⟨hnone, rfl⟩⟩

/-- Owners are not recursive, and so nor is the anchor of one. -/
theorem anchor_own (hm : m.Sound) {id : ItemId} {item : Item} (hi : m.item? id = some item)
    (hrec : item.source.isRecursive = false) : m.IsOwn (m.anchor id) := by
  induction hn : id.index using Nat.strongRecOn generalizing id item with
  | ind n ih =>
      subst hn
      cases hv : item.source.isVariant with
      | false =>
          rw [anchor_of_position ⟨item, hi, hv⟩]
          exact ⟨item, hi, hv, hrec⟩
      | true =>
          obtain ⟨p, hp⟩ := hm.exists_parent hi (hm.variant_ne_root hi hv)
          obtain ⟨hlt, owner, ho, hown⟩ := hm.parent_some hi hp
          rw [anchor_of_variant hm hi hv hp]
          exact ih p.index hlt ho hown rfl

theorem above?_own (hm : m.Sound) {id u : ItemId} (h : m.above? id = some u) : m.IsOwn u := by
  obtain ⟨item, p, hi, hp, rfl⟩ := above?_eq_some.mp h
  obtain ⟨-, owner, ho, hown⟩ := hm.parent_some hi hp
  exact anchor_own hm ho hown

theorem climb?_own (hm : m.Sound) {n : Nat} {id a : ItemId} (h : m.climb? (n + 1) id = some a) :
    m.IsOwn a := by
  induction n generalizing id with
  | zero =>
      obtain ⟨u, hu, ha⟩ := climb?_succ_eq_some.mp h
      obtain rfl : u = a := Option.some.inj ha
      exact above?_own hm hu
  | succ n ih =>
      obtain ⟨u, -, ha⟩ := climb?_succ_eq_some.mp h
      exact ih ha

/-! ## The type that is borrowed -/

/-- A recursive item has an owner. -/
theorem Sound.exists_owner (hm : m.Sound) {r : ItemId} {item : Item} {levels : Nat}
    (hi : m.item? r = some item) (hl : item.source.levels? = some levels) :
    ∃ owner ownerItem, item.parent = some owner ∧ m.item? owner = some ownerItem := by
  have hroot : r ≠ root := by
    rintro rfl
    rw [(hm.source_root hi).mpr rfl] at hl
    cases hl
  obtain ⟨owner, hp⟩ := hm.exists_parent hi hroot
  obtain ⟨-, ownerItem, ho, -⟩ := hm.parent_some hi hp
  exact ⟨owner, ownerItem, hp, ho⟩

/-- Counted from the owner or from the item, the levels lead to the same item. -/
theorem borrowedType_succ {id owner : ItemId} {item ownerItem : Item} {n : Nat}
    (hi : m.item? id = some item) (hv : item.source.isVariant = false)
    (hp : item.parent = some owner) :
    m.borrowedType owner (n + 1) ownerItem =
      (((m.climb? (n + 1) id).bind m.item?).getD ownerItem).validatedType := by
  rw [borrowedType, climb?, above?_of_position hi hv hp]
  rfl

/-- What there is to borrow below an owner stays the same. -/
theorem GrowsInto.borrowedType (h : m.GrowsInto m') (hm : m.Sound) (hm' : m'.Sound)
    {owner : ItemId} {ownerItem ownerItem' : Item} (ho : m.item? owner = some ownerItem)
    (ho' : m'.item? owner = some ownerItem') (levels : Nat) :
    m'.borrowedType owner levels ownerItem' = m.borrowedType owner levels ownerItem := by
  have htype : ownerItem'.validatedType = ownerItem.validatedType := by
    obtain ⟨later, hlater, hcont⟩ := h.item? ho
    obtain rfl := Option.some.inj (ho'.symm.trans hlater)
    exact hcont.validatedType
  cases levels with
  | zero => exact htype
  | succ n =>
      have hpos := anchor_position hm ho
      obtain ⟨anchorItem, ha, -⟩ := id hpos
      rw [Manifest.borrowedType, Manifest.borrowedType, h.anchor hm hm' ho, h.climb? hm hm' ha]
      cases hc : m.climb? n (m.anchor owner) with
      | none => exact htype
      | some target =>
          obtain ⟨item, hi, -⟩ := climb?_position hm hpos hc
          obtain ⟨item', hi', hcont⟩ := h.item? hi
          simp only [Option.bind_some, hi, hi', Option.getD_some, hcont.validatedType]

/-- Every recursive item has the type that it would get if it were added now. -/
def TypesBorrowed (m : Manifest) : Prop :=
  ∀ ⦃id item levels owner ownerItem⦄, m.item? id = some item →
    item.source.levels? = some levels → item.parent = some owner →
    m.item? owner = some ownerItem → item.validatedType = m.borrowedType owner levels ownerItem

theorem ofType_typesBorrowed (rootType : String) : (ofType rootType).TypesBorrowed := by
  intro id item levels owner ownerItem hi hl
  have hlt : id.index < 1 := item?_lt hi
  obtain rfl : id = root := ItemId.eq_iff.mpr (by simp only [root]; omega)
  obtain rfl := Option.some.inj hi
  cases hl

/-- An item that an edit brings along is the one that the edit says. -/
theorem Step.newItem {e : Edit} (h : m.Step m' e) {id : ItemId} {item' : Item}
    (hnone : m.item? id = none) (hi' : m'.item? id = some item') :
    ∃ owner source validatedType ownerItem, e.newItem? m = some (owner, source, validatedType) ∧
      m.item? owner = some ownerItem ∧ item' = { source, validatedType, parent := some owner } := by
  cases h with
  | adds hnew _ _ h =>
      rcases h.cases_item? hi' with ⟨-, rfl⟩ | ⟨item, hi, -⟩
      · exact ⟨_, _, _, _, hnew, h.owner_known, rfl⟩
      · rw [hnone] at hi
        cases hi
  | changes _ h =>
      subst h
      rw [item?_modifyItem, hnone] at hi'
      split at hi' <;> cases hi'
  | declares h =>
      obtain ⟨item, hi, -⟩ := h.cases_item? hi'
      rw [hnone] at hi
      cases hi
  | depends h =>
      rw [h.item?, hnone] at hi'
      cases hi'

theorem newItem?_borrows {e : Edit} {owner : ItemId} {source : Source} {validatedType : String}
    {ownerItem : Item} {levels : Nat} (hnew : e.newItem? m = some (owner, source, validatedType))
    (ho : m.item? owner = some ownerItem) (hl : source.levels? = some levels) :
    validatedType = m.borrowedType owner levels ownerItem := by
  cases e <;> simp only [Edit.newItem?, Option.some.injEq, Option.map_eq_some_iff, Prod.mk.injEq,
    reduceCtorEq] at hnew
  case addMember | setElement | addVariant =>
    obtain ⟨rfl, rfl, rfl⟩ := hnew
    cases hl
  case addRecursiveMember | setRecursiveElement =>
    obtain ⟨item, hi, rfl, rfl, rfl⟩ := hnew
    obtain rfl := Option.some.inj (hi.symm.trans ho)
    obtain rfl := Option.some.inj hl
    rfl

theorem apply_typesBorrowed (hm : m.Sound) (h : m.TypesBorrowed) {e : Edit} {receipt : Receipt}
    (happly : m.apply e = .ok (m', receipt)) : m'.TypesBorrowed := by
  have hm' := apply_sound hm happly
  have hgrows := apply_growsInto happly
  intro id item' levels owner ownerItem' hi' hl hp ho'
  cases hi : m.item? id with
  | some item =>
      obtain ⟨later, hlater, hcont⟩ := hgrows.item? hi
      obtain rfl := Option.some.inj (hi'.symm.trans hlater)
      rw [hcont.source] at hl
      rw [hcont.parent] at hp
      obtain ⟨-, ownerItem, ho, -⟩ := hm.parent_some hi hp
      rw [hcont.validatedType, h hi hl hp ho, hgrows.borrowedType hm hm' ho ho']
  | none =>
      obtain ⟨_, source, _, ownerItem, hnew, ho, rfl⟩ := (apply_step happly).newItem hi hi'
      obtain rfl := Option.some.inj hp
      rw [hgrows.borrowedType hm hm' ho ho']
      exact newItem?_borrows hnew ho hl

theorem build_typesBorrowed (rootType : String) (edits : List Edit) :
    (build rootType edits).TypesBorrowed := by
  unfold build
  induction edits using List.reverseRecOn with
  | nil => exact ofType_typesBorrowed rootType
  | append_singleton edits e ih =>
      rw [List.foldl_append, List.foldl_cons, List.foldl_nil, edit]
      split
      · rename_i happly
        exact apply_typesBorrowed (build_sound rootType edits) ih happly
      · exact ih

/-! ## Lenders -/

/-- `d` lends its definition to `r`, an item of type `validatedType` that is recursive by
`levels`. -/
structure Lends (m : Manifest) (d r : ItemId) (levels : Nat) (validatedType : String) : Prop where
  climbed : m.climb? levels r = some d
  own : m.IsOwn d
  depth_lt : m.depth d < m.depth r
  definition : m.definition d = .ok d
  type_eq : (m.item? d).map (·.validatedType) = some validatedType

theorem lends_of_definition (hm : m.Sound) (h : m.TypesBorrowed) {r d : ItemId} {item : Item}
    {levels : Nat} (hi : m.item? r = some item) (hl : item.source.levels? = some levels)
    (hd : m.definition r = .ok d) : m.Lends d r levels item.validatedType := by
  obtain ⟨item', hi', ⟨hnone, -⟩ | ⟨n, hn, hclimb⟩⟩ := definition_eq_ok.mp hd
  · obtain rfl := Option.some.inj (hi.symm.trans hi')
    rw [hl] at hnone
    cases hnone
  · obtain rfl := Option.some.inj (hi.symm.trans hi')
    obtain rfl := Option.some.inj (hl.symm.trans hn)
    have hown := climb?_own hm hclimb
    have hdepth := depth_of_climb? hm hclimb
    obtain ⟨target, ht, -⟩ := id hown
    obtain ⟨owner, ownerItem, hp, ho⟩ := hm.exists_owner hi hl
    refine ⟨hclimb, hown, by omega, hown.definition, ?_⟩
    rw [h hi hl hp ho, borrowedType_succ hi (isVariant_of_levels? hl) hp, hclimb,
      Option.bind_some, ht]
    rfl

/-- An item whose levels lead nowhere has the type of its owner. -/
theorem type_of_unreached (hm : m.Sound) (h : m.TypesBorrowed) {r : ItemId} {item : Item}
    {levels : Nat} (hi : m.item? r = some item) (hl : item.source.levels? = some levels)
    (hbad : ¬ (1 ≤ levels ∧ levels ≤ m.depth r)) :
    m.definition r = .error (.noSuchAncestor r levels) ∧
      ∃ owner ownerItem, item.parent = some owner ∧ m.item? owner = some ownerItem ∧
        item.validatedType = ownerItem.validatedType := by
  obtain ⟨owner, ownerItem, hp, ho⟩ := hm.exists_owner hi hl
  have htype := h hi hl hp ho
  cases levels with
  | zero =>
      refine ⟨?_, owner, ownerItem, hp, ho, htype⟩
      simp only [Manifest.definition, get_eq_ok.mpr hi, bind, Except.bind, hl]
  | succ n =>
      have hnone : m.climb? (n + 1) r = none := by
        cases hc : m.climb? (n + 1) r with
        | none => rfl
        | some a =>
            have := depth_of_climb? hm hc
            omega
      refine ⟨?_, owner, ownerItem, hp, ho, ?_⟩
      · simp only [Manifest.definition, get_eq_ok.mpr hi, bind, Except.bind, hl, hnone]
      · rw [htype, borrowedType_succ hi (isVariant_of_levels? hl) hp, hnone]
        rfl

end Manifest

/-- **A recursive item borrows type and definition from one and the same item**, in whatever
manifest edits have built. It has a definition exactly if its levels, however many were asked for,
lead to an item above it, and that item lends both. Otherwise it has no definition and the type of
its owner. -/
theorem borrowed_definition (rootType : String) (edits : List Edit) {r : ItemId} {item : Item}
    {levels : Nat} (hi : (Manifest.build rootType edits).item? r = some item)
    (hl : item.source.levels? = some levels) :
    let m := Manifest.build rootType edits
    ((∃ d, m.definition r = .ok d) ↔ 1 ≤ levels ∧ levels ≤ m.depth r) ∧
      (∀ d, m.definition r = .ok d → m.Lends d r levels item.validatedType) ∧
      (¬ (1 ≤ levels ∧ levels ≤ m.depth r) →
        m.definition r = .error (.noSuchAncestor r levels) ∧
          ∃ owner ownerItem, item.parent = some owner ∧ m.item? owner = some ownerItem ∧
            item.validatedType = ownerItem.validatedType) := by
  have hm := Manifest.build_sound rootType edits
  have htypes := Manifest.build_typesBorrowed rootType edits
  refine ⟨?_, fun d => Manifest.lends_of_definition hm htypes hi hl,
    Manifest.type_of_unreached hm htypes hi hl⟩
  rw [Manifest.exists_definition_iff hm hi, hl]
  simp

/-- Children of nodes, which are nodes two levels above them, and a member that asks for more levels
than there can be. -/
def recursiveEdits : List Edit := nodeEdits ++ [
  .setRecursiveElement ⟨2⟩ .standard 2,
  .addRecursiveMember ⟨1⟩ "origin" (.field "origin") 18446744073709551615]

/-- The children borrow from the root, through the variant of their list. The member has the type of
the list. -/
theorem borrowed_definition_node :
    let m := Manifest.build "Node" recursiveEdits
    (∃ item, m.item? ⟨3⟩ = some item ∧ item.source.levels? = some 2 ∧
      m.Lends Manifest.root ⟨3⟩ 2 item.validatedType) ∧
    ∃ item, m.item? ⟨4⟩ = some item ∧ item.source.levels? = some 18446744073709551615 ∧
      m.definition ⟨4⟩ = .error (.noSuchAncestor ⟨4⟩ 18446744073709551615) ∧
      item.validatedType = "Nodes" := by
  intro m
  have hfound : ((m.item? ⟨3⟩).any (·.source.levels? == some 2) &&
      (m.item? ⟨4⟩).any (·.source.levels? == some 18446744073709551615)) = true := by
    decide +kernel
  simp only [Bool.and_eq_true, Option.any_eq_true, beq_iff_eq] at hfound
  obtain ⟨⟨child, hchild, hlevels⟩, origin, horigin, hfar⟩ := hfound
  have hroot : m.definition ⟨3⟩ = .ok Manifest.root :=
    Fallible.eq_ok_of_toOption (by decide +kernel)
  have hdepth : ¬ (1 ≤ 18446744073709551615 ∧ 18446744073709551615 ≤ m.depth ⟨4⟩) := by
    decide +kernel
  obtain ⟨-, hlends, -⟩ := borrowed_definition "Node" recursiveEdits hchild hlevels
  obtain ⟨-, -, hunreached⟩ := borrowed_definition "Node" recursiveEdits horigin hfar
  obtain ⟨hnone, owner, ownerItem, hp, ho, htype⟩ := hunreached hdepth
  refine ⟨⟨child, hchild, hlevels, hlends _ hroot⟩, origin, horigin, hfar, hnone, ?_⟩
  have howner : ((m.item? ⟨4⟩).bind fun item => (item.parent.bind m.item?).map
      (·.validatedType)) = some "Nodes" := by decide +kernel
  rw [horigin, Option.bind_some, hp, Option.bind_some, ho] at howner
  exact htype.trans (Option.some.inj howner)

end Vetting
