import Mathlib.Data.List.Find
import Vetting.Proofs.Manifest.InPlace
import Vetting.Proofs.Manifest.Position
import Vetting.Proofs.Manifest.WellFormed

/-!
# Answers that outlast edits

A manifest only grows. An edit takes nothing from an item or a rule that is there and changes
nothing of its place; at most it lists more below it (`GrowsInto`). So whatever was asked about
known items and rules has the same answer ever after (`AnswersAlike`), and a manifest that is fit
for use can become unfit only through what an edit brings along (`Edit.Fits`).

Every query walks towards the root, where nothing changes. The proofs follow the walks: anchors by
induction on the number of the item, levels and depths from anchors, meeting points and paths from
levels.
-/

namespace Vetting

/-- `b` is the item `a` at a later time. -/
structure Item.Continues (a b : Item) : Prop where
  source : b.source = a.source
  validatedType : b.validatedType = a.validatedType
  parent : b.parent = a.parent
  rules : a.rules <+: b.rules

/-- `b` is the rule `a` at a later time. -/
structure RuleDecl.Continues (a b : RuleDecl) : Prop where
  key : b.key = a.key
  item : b.item = a.item
  config : b.config = a.config

theorem Item.Continues.refl (item : Item) : item.Continues item :=
  ⟨rfl, rfl, rfl, List.prefix_refl _⟩

theorem Item.Continues.trans {a b c : Item} (h : a.Continues b) (h' : b.Continues c) :
    a.Continues c :=
  ⟨h'.source.trans h.source, h'.validatedType.trans h.validatedType, h'.parent.trans h.parent,
    h.rules.trans h'.rules⟩

theorem RuleDecl.Continues.refl (rule : RuleDecl) : rule.Continues rule := ⟨rfl, rfl, rfl⟩

theorem RuleDecl.Continues.trans {a b c : RuleDecl} (h : a.Continues b) (h' : b.Continues c) :
    a.Continues c :=
  ⟨h'.key.trans h.key, h'.item.trans h.item, h'.config.trans h.config⟩

theorem Manifest.SamePlace.continues {a b : Item} (h : SamePlace a b) : a.Continues b :=
  ⟨h.source.symm, h.validatedType.symm, h.parent.symm, h.rules ▸ List.prefix_refl _⟩

namespace Manifest

/-- `m'` is `m` at a later time: all items and rules are still there. -/
structure GrowsInto (m m' : Manifest) : Prop where
  item? {id : ItemId} {item : Item} (h : m.item? id = some item) :
    ∃ item', m'.item? id = some item' ∧ item.Continues item'
  rule? {r : RuleId} {rule : RuleDecl} (h : m.rule? r = some rule) :
    ∃ rule', m'.rule? r = some rule' ∧ rule.Continues rule'

theorem GrowsInto.refl (m : Manifest) : m.GrowsInto m :=
  ⟨fun h => ⟨_, h, .refl _⟩, fun h => ⟨_, h, .refl _⟩⟩

theorem GrowsInto.trans {a b c : Manifest} (h : a.GrowsInto b) (h' : b.GrowsInto c) :
    a.GrowsInto c := by
  constructor
  · intro id item hi
    obtain ⟨item', hi', hcont⟩ := h.item? hi
    obtain ⟨item'', hi'', hcont'⟩ := h'.item? hi'
    exact ⟨item'', hi'', hcont.trans hcont'⟩
  · intro r rule hr
    obtain ⟨rule', hr', hcont⟩ := h.rule? hr
    obtain ⟨rule'', hr'', hcont'⟩ := h'.rule? hr'
    exact ⟨rule'', hr'', hcont.trans hcont'⟩

/-! ## Edits let a manifest grow -/

section Edits

variable {m m' : Manifest}

theorem modifyItem_growsInto (m : Manifest) (id : ItemId) {f : Item → Item}
    (hf : ∀ item, SamePlace item (f item)) : m.GrowsInto (m.modifyItem id f) := by
  refine ⟨fun {j item} hj => ?_, fun hr => ⟨_, hr, .refl _⟩⟩
  obtain ⟨item', hj', hs⟩ := exists_of_some_rel (hj ▸ modifyItem_samePlace hf j)
  exact ⟨item', hj', hs.continues⟩

theorem Depends.growsInto {rule : RuleId} {target : RuleRef} (h : m.Depends m' rule target) :
    m.GrowsInto m' := by
  refine ⟨fun hi => ⟨_, (h.item? _).trans hi, .refl _⟩, fun {r decl} hr => ?_⟩
  rw [h.rule?, hr]
  split
  · exact ⟨_, rfl, rfl, rfl, rfl⟩
  · exact ⟨_, rfl, .refl _⟩

theorem Extends.growsInto {owner : ItemId} {ownerItem newItem : Item}
    {attach : ItemId → Item → Item} {kind : Source}
    (h : m.Extends m' owner ownerItem newItem attach) (hattach : Attaches attach kind) :
    m.GrowsInto m' := by
  refine ⟨fun {j item} hj => ⟨_, h.item?_old hj, ?_⟩, fun hr => ⟨_, (h.rule? _).trans hr, .refl _⟩⟩
  split
  · exact ⟨hattach.source _ _, hattach.validatedType _ _, hattach.parent _ _,
      hattach.rules _ _ ▸ List.prefix_refl _⟩
  · exact .refl item

theorem Declares.growsInto {owner : ItemId} {ownerItem : Item} {newRule : RuleDecl}
    (h : m.Declares m' owner ownerItem newRule) : m.GrowsInto m' := by
  refine ⟨fun {j item} hj => ⟨_, h.item?_old hj, rfl, rfl, rfl, ?_⟩,
    fun {r rule} hr => ⟨rule, (h.rule?_old r (rule?_ne_size hr)).trans hr, .refl _⟩⟩
  show item.rules <+: if j = owner then item.rules ++ [⟨m.rules.size⟩] else item.rules
  split
  · exact List.prefix_append _ _
  · exact List.prefix_refl _

theorem apply_growsInto {e : Edit} {receipt : Receipt} (happly : m.apply e = .ok (m', receipt)) :
    m.GrowsInto m' := by
  cases apply_step happly with
  | adds _ hattach _ h => exact h.growsInto hattach
  | changes hchange h =>
      subst h
      exact modifyItem_growsInto m _ (change?_samePlace hchange)
  | declares h => exact h.growsInto
  | depends h => exact h.growsInto

theorem edit_growsInto (m : Manifest) (e : Edit) : m.GrowsInto (m.edit e) := by
  unfold edit
  split
  · rename_i happly
    exact apply_growsInto happly
  · exact .refl m

theorem build_growsInto (rootType : String) (edits more : List Edit) :
    (build rootType edits).GrowsInto (build rootType (edits ++ more)) := by
  induction more using List.reverseRecOn with
  | nil =>
      rw [List.append_nil]
      exact .refl _
  | append_singleton more e ih =>
      have hlast : build rootType (edits ++ (more ++ [e])) =
          (build rootType (edits ++ more)).edit e := by
        simp only [build, List.foldl_append, List.foldl_cons, List.foldl_nil]
      rw [hlast]
      exact ih.trans (edit_growsInto _ e)

end Edits

/-! ## What is asked stays answered -/

namespace GrowsInto

variable {m m' : Manifest} (h : m.GrowsInto m') (hm : m.Sound) (hm' : m'.Sound)

include h

theorem position {id : ItemId} (hid : m.IsPosition id) : m'.IsPosition id := by
  obtain ⟨item, hi, hv⟩ := hid
  obtain ⟨item', hi', hcont⟩ := h.item? hi
  exact ⟨item', hi', hcont.source ▸ hv⟩

include hm

/-- The rules that an item has got since come after those that it had. -/
theorem findRule? {ref : RuleRef} {r : RuleId} (hfind : m.findRule? ref = some r) :
    m'.findRule? ref = some r := by
  obtain ⟨item, hi, hfind⟩ := Option.bind_eq_some_iff.mp hfind
  obtain ⟨item', hi', hcont⟩ := h.item? hi
  obtain ⟨later, hlater⟩ := hcont.rules
  have hsame : ∀ s ∈ item.rules,
      (m'.rule? s).any (·.key == ref.key) = (m.rule? s).any (·.key == ref.key) := by
    intro s hs
    obtain ⟨rule, hr, -⟩ := ((hm.linked hi).mem_rules s).mp hs
    obtain ⟨rule', hr', hkeep⟩ := h.rule? hr
    rw [hr, hr', Option.any_some, Option.any_some, hkeep.key]
  refine Option.bind_eq_some_iff.mpr ⟨item', hi', ?_⟩
  rw [← hlater, List.find?_append, List.find?_congr hsame, hfind]
  rfl

include hm'

theorem anchor {id : ItemId} {item : Item} (hi : m.item? id = some item) :
    m'.anchor id = m.anchor id := by
  induction hn : id.index using Nat.strongRecOn generalizing id item with
  | ind n ih =>
      subst hn
      obtain ⟨item', hi', hcont⟩ := h.item? hi
      cases hv : item.source.isVariant with
      | false =>
          rw [anchor_of_position ⟨item, hi, hv⟩, anchor_of_position (h.position ⟨item, hi, hv⟩)]
      | true =>
          obtain ⟨p, hp⟩ := hm.exists_parent hi (hm.variant_ne_root hi hv)
          obtain ⟨hlt, owner, ho, -⟩ := hm.parent_some hi hp
          rw [anchor_of_variant hm hi hv hp,
            anchor_of_variant hm' hi' (hcont.source ▸ hv) (hcont.parent.trans hp)]
          exact ih p.index hlt ho rfl

theorem above? {id : ItemId} {item : Item} (hi : m.item? id = some item) :
    m'.above? id = m.above? id := by
  obtain ⟨anchorItem, ha, -⟩ := anchor_position hm hi
  obtain ⟨anchorItem', ha', hcont⟩ := h.item? ha
  simp only [Manifest.above?, h.anchor hm hm' hi, ha, ha', Option.bind_eq_bind, Option.bind_some,
    hcont.parent]
  cases hp : anchorItem.parent with
  | none => rfl
  | some p =>
      obtain ⟨-, owner, ho, -⟩ := hm.parent_some ha hp
      rw [Option.bind_some, Option.bind_some, h.anchor hm hm' ho]

theorem depth {id : ItemId} {item : Item} (hi : m.item? id = some item) :
    m'.depth id = m.depth id := by
  induction hn : id.index using Nat.strongRecOn generalizing id item with
  | ind n ih =>
      subst hn
      have habove := h.above? hm hm' hi
      cases ha : m.above? id with
      | none => rw [depth_of_above?_none ha, depth_of_above?_none (habove.trans ha)]
      | some u =>
          obtain ⟨_, hu, -⟩ := above?_position hm ha
          rw [depth_of_above? hm ha, depth_of_above? hm' (habove.trans ha),
            ih u.index (above?_lt hm ha) hu rfl]

theorem climb? {n : Nat} {id : ItemId} {item : Item} (hi : m.item? id = some item) :
    m'.climb? n id = m.climb? n id := by
  induction n generalizing id item with
  | zero => rfl
  | succ n ih =>
      rw [Manifest.climb?, Manifest.climb?, h.above? hm hm' hi]
      cases ha : m.above? id with
      | none => rfl
      | some u =>
          obtain ⟨_, hu, -⟩ := above?_position hm ha
          exact ih hu

theorem definition {id : ItemId} {item : Item} (hi : m.item? id = some item) :
    m'.definition id = m.definition id := by
  obtain ⟨item', hi', hcont⟩ := h.item? hi
  simp only [Manifest.definition, get_eq_ok.mpr hi, get_eq_ok.mpr hi', bind, Except.bind,
    hcont.source, h.climb? hm hm' hi]

theorem join? {n : Nat} {a b : ItemId} {itemA itemB : Item} (ha : m.item? a = some itemA)
    (hb : m.item? b = some itemB) : m'.join? n a b = m.join? n a b := by
  induction n generalizing a b itemA itemB with
  | zero => rfl
  | succ n ih =>
      rw [Manifest.join?, Manifest.join?, h.above? hm hm' ha, h.above? hm hm' hb]
      cases hu : m.above? a with
      | none => rfl
      | some u =>
          cases hv : m.above? b with
          | none => rfl
          | some v =>
              obtain ⟨_, hu, -⟩ := above?_position hm hu
              obtain ⟨_, hv, -⟩ := above?_position hm hv
              simp only [Option.bind_eq_bind, Option.bind_some, ih hu hv]

theorem meet? {a b : ItemId} {itemA itemB : Item} (ha : m.item? a = some itemA)
    (hb : m.item? b = some itemB) : m'.meet? a b = m.meet? a b := by
  obtain ⟨upA, ha', hpa⟩ := anchor_position hm ha
  obtain ⟨upB, hb', hpb⟩ := anchor_position hm hb
  obtain ⟨_, hla, -⟩ := h.item? ha'
  obtain ⟨_, hlb, -⟩ := h.item? hb'
  simp only [Manifest.meet?, h.anchor hm hm' ha, h.anchor hm hm' hb, h.depth hm hm' ha',
    h.depth hm hm' hb', h.climb? hm hm' ha', h.climb? hm hm' hb', ha', hb', hla, hlb,
    Option.bind_eq_bind, Option.bind_some]
  -- What is left to compare are the climbs from the two items at which both sides have arrived.
  cases hca : m.climb? (m.depth (m.anchor a) - m.depth (m.anchor b)) (m.anchor a) with
  | none => rfl
  | some u =>
      cases hcb : m.climb? (m.depth (m.anchor b) - m.depth (m.anchor a)) (m.anchor b) with
      | none => rfl
      | some v =>
          obtain ⟨_, hu, -⟩ := climb?_position hm ⟨_, ha', hpa⟩ hca
          obtain ⟨_, hv, -⟩ := climb?_position hm ⟨_, hb', hpb⟩ hcb
          exact h.join? hm hm' hu hv

theorem path? (a : ItemId) {b : ItemId} {item : Item} (hb : m.item? b = some item) :
    m'.path? a b = m.path? a b := by
  induction hn : b.index using Nat.strongRecOn generalizing b item with
  | ind n ih =>
      subst hn
      by_cases hba : b = a
      · rw [hba, path?_self, path?_self]
      · obtain ⟨item', hb', hcont⟩ := h.item? hb
        cases hp : item.parent with
        | none =>
            rw [Manifest.path?, Manifest.path?, if_neg hba, if_neg hba, hb, hb', Option.bind_some,
              Option.bind_some, hcont.parent, hp]
        | some p =>
            obtain ⟨hlt, owner, ho, -⟩ := hm.parent_some hb hp
            rw [path?_of_parent hm hb hp hba, path?_of_parent hm' hb' (hcont.parent.trans hp) hba,
              ih p.index hlt ho rfl]

/-- Where a manifest was fit for use it still is, if every new item has a definition and every new
reference finds its rule. -/
theorem validate (hvalid : m.validate = .ok ())
    (hitems : ∀ id item', m'.item? id = some item' → m.item? id = none →
      ∃ d, m'.definition id = .ok d)
    (hrefs : ∀ r rule', m'.rule? r = some rule' → ∀ ref ∈ rule'.dependencies,
      (∃ rule, m.rule? r = some rule ∧ ref ∈ rule.dependencies) ∨
        ∃ t, m'.findRule? ref = some t) :
    m'.validate = .ok () := by
  obtain ⟨hdefinitions, hreferences⟩ := validate_eq_ok.mp hvalid
  refine validate_eq_ok.mpr ⟨fun id item' hi' => ?_, fun r rule' hr' ref hmem => ?_⟩
  · cases hi : m.item? id with
    | none => exact hitems id item' hi' hi
    | some item =>
        rw [h.definition hm hm' hi]
        exact hdefinitions id item hi
  · rcases hrefs r rule' hr' ref hmem with ⟨rule, hr, hold⟩ | hfound
    · obtain ⟨t, ht⟩ := hreferences r rule hr ref hold
      exact ⟨t, h.findRule? hm ht⟩
    · exact hfound

end GrowsInto

/-- The answers of `m` to questions about its items and rules are those of `m'`. -/
structure AnswersAlike (m m' : Manifest) : Prop where
  item {id : ItemId} {item : Item} (hi : m.item? id = some item) :
    ∃ item', m'.item? id = some item' ∧ item'.parent = item.parent ∧
      item'.source = item.source ∧ item'.validatedType = item.validatedType
  rule {r : RuleId} {rule : RuleDecl} (hr : m.rule? r = some rule) :
    ∃ rule', m'.rule? r = some rule' ∧ rule'.key = rule.key ∧ rule'.item = rule.item ∧
      rule'.config = rule.config
  found {ref : RuleRef} {r : RuleId} (h : m.findRule? ref = some r) : m'.findRule? ref = some r
  anchor {id : ItemId} {item : Item} (hi : m.item? id = some item) : m'.anchor id = m.anchor id
  above {id : ItemId} {item : Item} (hi : m.item? id = some item) : m'.above? id = m.above? id
  depth {id : ItemId} {item : Item} (hi : m.item? id = some item) : m'.depth id = m.depth id
  definition {id : ItemId} {item : Item} (hi : m.item? id = some item) :
    m'.definition id = m.definition id
  meet {a b : ItemId} {itemA itemB : Item} (ha : m.item? a = some itemA)
    (hb : m.item? b = some itemB) : m'.meet? a b = m.meet? a b
  path {a b : ItemId} {itemA itemB : Item} (ha : m.item? a = some itemA)
    (hb : m.item? b = some itemB) : m'.path? a b = m.path? a b

theorem GrowsInto.answersAlike {m m' : Manifest} (h : m.GrowsInto m') (hm : m.Sound)
    (hm' : m'.Sound) : m.AnswersAlike m' := by
  constructor
  case item =>
    intro id item hi
    obtain ⟨item', hi', hcont⟩ := h.item? hi
    exact ⟨item', hi', hcont.parent, hcont.source, hcont.validatedType⟩
  case rule =>
    intro r rule hr
    obtain ⟨rule', hr', hcont⟩ := h.rule? hr
    exact ⟨rule', hr', hcont.key, hcont.item, hcont.config⟩
  case found => exact h.findRule? hm
  case anchor => exact h.anchor hm hm'
  case above => exact h.above? hm hm'
  case depth => exact h.depth hm hm'
  case definition => exact h.definition hm hm'
  case meet => exact h.meet? hm hm'
  case path => exact fun {a b _ _} _ hb => h.path? hm hm' a hb

/-! ## Staying fit for use -/

section Fitness

variable {m m' : Manifest}

/-- What is recursive has a level of its own. -/
theorem isVariant_of_levels? {source : Source} {levels : Nat} (h : source.levels? = some levels) :
    source.isVariant = false := by
  cases source with
  | root | member | element => rfl
  | variant => cases h

/-- An item has a definition unless it is recursive with no levels, or with more of them than there
are above it. -/
theorem exists_definition_iff (hm : m.Sound) {id : ItemId} {item : Item}
    (hi : m.item? id = some item) :
    (∃ d, m.definition id = .ok d) ↔
      ∀ levels, item.source.levels? = some levels → 1 ≤ levels ∧ levels ≤ m.depth id := by
  constructor
  · rintro ⟨d, hd⟩ levels hl
    obtain ⟨item', hi', hcases⟩ := definition_eq_ok.mp hd
    obtain rfl := Option.some.inj (hi.symm.trans hi')
    rcases hcases with ⟨hnone, -⟩ | ⟨n, hn, hclimb⟩
    · rw [hl] at hnone
      cases hnone
    · obtain rfl := Option.some.inj (hl.symm.trans hn)
      have := depth_of_climb? hm hclimb
      omega
  · intro hlevels
    cases hl : item.source.levels? with
    | none => exact ⟨id, definition_eq_ok.mpr ⟨item, hi, .inl ⟨hl, rfl⟩⟩⟩
    | some levels =>
        obtain ⟨hpos, hle⟩ := hlevels levels hl
        obtain ⟨n, rfl⟩ := Nat.exists_eq_add_of_lt hpos
        rw [Nat.zero_add] at hl hle
        obtain ⟨d, hd⟩ := exists_climb? hm hle
        exact ⟨d, definition_eq_ok.mpr ⟨item, hi, .inr ⟨n, hl, hd⟩⟩⟩

/-- Every recursive item has at least one level above it, and as many as it asks for. -/
def LevelsThere (m : Manifest) : Prop :=
  ∀ id item levels, m.item? id = some item → item.source.levels? = some levels →
    1 ≤ levels ∧ levels ≤ m.depth id

theorem Extends.depth_new {owner : ItemId} {ownerItem newItem : Item}
    {attach : ItemId → Item → Item} (h : m.Extends m' owner ownerItem newItem attach)
    (hm' : m'.Sound) (hparent : newItem.parent = some owner)
    (hv : newItem.source.isVariant = false) : m'.depth ⟨m.items.size⟩ = m'.depth owner + 1 := by
  rw [depth_of_above? hm' (above?_of_position h.item?_new hv hparent),
    depth_anchor hm' h.item?_owner]

/-- With one more item a manifest stays fit for use exactly if the levels of the item, where it has
any, lead to an item. -/
theorem Extends.validate_iff {owner : ItemId} {ownerItem newItem : Item}
    {attach : ItemId → Item → Item} {kind : Source}
    (h : m.Extends m' owner ownerItem newItem attach) (hattach : Attaches attach kind)
    (hm : m.Sound) (hm' : m'.Sound) (hparent : newItem.parent = some owner)
    (hvalid : m.validate = .ok ()) :
    m'.validate = .ok () ↔ ∀ levels, newItem.source.levels? = some levels →
      1 ≤ levels ∧ levels ≤ m'.depth owner + 1 := by
  have hnew : (∃ d, m'.definition ⟨m.items.size⟩ = .ok d) ↔
      ∀ levels, newItem.source.levels? = some levels →
        1 ≤ levels ∧ levels ≤ m'.depth owner + 1 := by
    rw [exists_definition_iff hm' h.item?_new]
    refine forall_congr' fun levels => imp_congr_right fun hl => ?_
    rw [h.depth_new hm' hparent (isVariant_of_levels? hl)]
  rw [← hnew]
  constructor
  · intro hvalid'
    exact (validate_eq_ok.mp hvalid').1 _ _ h.item?_new
  · intro hdefined
    refine (h.growsInto hattach).validate hm hm' hvalid (fun id item' hi' hnone => ?_)
      fun r rule' hr' ref hmem => .inl ⟨rule', h.rule? r ▸ hr', hmem⟩
    rcases h.cases_item? hi' with ⟨rfl, -⟩ | ⟨item, hi, -⟩
    · exact hdefined
    · rw [hnone] at hi
      cases hi

/-- What no link depends on has no part in whether a manifest is fit for use. -/
theorem modifyItem_validate {id : ItemId} {f : Item → Item}
    (hf : ∀ item, SamePlace item (f item)) (hm : m.Sound) (hvalid : m.validate = .ok ()) :
    (m.modifyItem id f).validate = .ok () := by
  refine (modifyItem_growsInto m id hf).validate hm (modifyItem_sound hf hm) hvalid
    (fun j item' hj hnone => ?_) fun r rule' hr' ref hmem => .inl ⟨rule', hr', hmem⟩
  rw [item?_modifyItem, hnone] at hj
  split at hj <;> cases hj

theorem Declares.validate_iff {owner : ItemId} {ownerItem : Item} {newRule : RuleDecl}
    (h : m.Declares m' owner ownerItem newRule) (hm : m.Sound) (hm' : m'.Sound)
    (hvalid : m.validate = .ok ()) :
    m'.validate = .ok () ↔ ∀ ref ∈ newRule.dependencies, ∃ t, m'.findRule? ref = some t := by
  constructor
  · intro hvalid'
    exact (validate_eq_ok.mp hvalid').2 _ _ h.rule?_new
  · intro hfound
    refine h.growsInto.validate hm hm' hvalid (fun id item' hi' hnone => ?_)
      fun r rule' hr' ref hmem => ?_
    · obtain ⟨item, hi, -⟩ := h.cases_item? hi'
      rw [hnone] at hi
      cases hi
    · rcases h.cases_rule? hr' with ⟨-, rfl⟩ | ⟨-, hr⟩
      · exact .inr (hfound ref hmem)
      · exact .inl ⟨rule', hr, hmem⟩

theorem Depends.validate_iff {rule : RuleId} {target : RuleRef} (h : m.Depends m' rule target)
    (hm : m.Sound) (hm' : m'.Sound) (hvalid : m.validate = .ok ()) :
    m'.validate = .ok () ↔ ∃ t, m'.findRule? target = some t := by
  obtain ⟨decl, hdecl⟩ := h.known
  constructor
  · intro hvalid'
    have hdecl' := h.rule? rule
    rw [if_pos rfl, hdecl] at hdecl'
    exact (validate_eq_ok.mp hvalid').2 _ _ hdecl' target
      (List.mem_append_right _ (List.mem_singleton_self target))
  · intro hfound
    refine h.growsInto.validate hm hm' hvalid (fun id item' hi' hnone => ?_)
      fun r rule' hr' ref hmem => ?_
    · rw [h.item?, hnone] at hi'
      cases hi'
    · rw [h.rule?] at hr'
      split at hr'
      · obtain ⟨old, hr, rfl⟩ := Option.map_eq_some_iff.mp hr'
        rcases List.mem_append.mp hmem with hmem | hmem
        · exact .inl ⟨old, hr, hmem⟩
        · exact .inr (List.mem_singleton.mp hmem ▸ hfound)
      · exact .inl ⟨rule', hr', hmem⟩

end Fitness

end Manifest

/-- No fault comes with an edit: the levels of a new recursive item lead to an item above it, and
the references that are added find their rules in the manifest after the edit. -/
def Edit.Fits (m' : Manifest) : Edit → Prop
  | .addRecursiveMember owner _ _ levels | .setRecursiveElement owner _ levels =>
    1 ≤ levels ∧ levels ≤ m'.depth owner + 1
  | .addRule _ _ _ _ dependencies => ∀ ref ∈ dependencies, ∃ r, m'.findRule? ref = some r
  | .addDependency _ target => ∃ r, m'.findRule? target = some r
  | _ => True

namespace Manifest

variable {m m' : Manifest}

theorem fits_of_newItem? {e : Edit} {owner : ItemId} {source : Source} {validatedType : String}
    (hnew : e.newItem? m = some (owner, source, validatedType)) :
    e.Fits m' ↔ ∀ levels, source.levels? = some levels →
      1 ≤ levels ∧ levels ≤ m'.depth owner + 1 := by
  cases e <;> simp only [Edit.newItem?, Option.some.injEq, Option.map_eq_some_iff, Prod.mk.injEq,
    reduceCtorEq] at hnew
  case addMember | setElement | addVariant =>
    obtain ⟨rfl, rfl, rfl⟩ := hnew
    simp [Edit.Fits, Source.levels?]
  case addRecursiveMember | setRecursiveElement =>
    obtain ⟨_, -, rfl, rfl, rfl⟩ := hnew
    simp [Edit.Fits, Source.levels?]

theorem fits_of_change? {e : Edit} {id : ItemId} {f : Item → Item}
    (hchange : e.change? = some (id, f)) : e.Fits m' := by
  cases e <;> simp only [Edit.change?, reduceCtorEq] at hchange
  all_goals trivial

/-- What an edit must not get wrong. -/
theorem apply_validate_iff (hm : m.Sound) {e : Edit} {receipt : Receipt}
    (happly : m.apply e = .ok (m', receipt)) (hvalid : m.validate = .ok ()) :
    m'.validate = .ok () ↔ e.Fits m' := by
  have hm' := apply_sound hm happly
  cases apply_step happly with
  | adds hnew hattach _ h =>
      exact (h.validate_iff hattach hm hm' rfl hvalid).trans (fits_of_newItem? hnew).symm
  | changes hchange h =>
      subst h
      exact iff_of_true (modifyItem_validate (change?_samePlace hchange) hm hvalid)
        (fits_of_change? hchange)
  | declares h => exact h.validate_iff hm hm' hvalid
  | depends h => exact h.validate_iff hm hm' hvalid

end Manifest

/-- **Answers outlast edits.** Whatever edits an arena has seen and whatever edits follow, some of
which may fail, all questions about items and rules that were known are answered as before. And
where the manifest was fit for use, it is fit after one more edit exactly if no fault comes with the
edit. -/
theorem answers_outlast_edits (rootType : String) (edits : List Edit) :
    (∀ more : List Edit, (Arena.build rootType edits).manifest.AnswersAlike
      (Arena.build rootType (edits ++ more)).manifest) ∧
    ∀ (e : Edit) (receipt : Receipt) (a : Arena),
      e.inPlace.run (Arena.build rootType edits) = .ok receipt a →
      (Arena.build rootType edits).manifest.validate = .ok () →
      (a.manifest.validate = .ok () ↔ e.Fits a.manifest) := by
  have hm := Manifest.build_sound rootType edits
  simp only [Arena.build_eq, Manifest.manifest_arena]
  constructor
  · intro more
    exact (Manifest.build_growsInto rootType edits more).answersAlike hm
      (Manifest.build_sound rootType (edits ++ more))
  · intro e receipt a hrun hvalid
    rw [run_inPlace] at hrun
    cases happly : (Manifest.build rootType edits).apply e with
    | error err =>
        rw [happly] at hrun
        cases hrun
    | ok result =>
        obtain ⟨m', receipt'⟩ := result
        rw [happly] at hrun
        cases hrun
        rw [Manifest.manifest_arena]
        exact Manifest.apply_validate_iff hm happly hvalid

/-- A tree of nodes, and a variant of its list of children. -/
def nodeEdits : List Edit := [
  .addMember Manifest.root "children" "Nodes" (.field "children"),
  .addVariant ⟨1⟩ (.always "Branches")]

/-- Children of the variant may be validated like the node two levels above them, but there are no
three levels above them. -/
theorem answers_outlast_edits_node :
    (∃ a, (Edit.setRecursiveElement ⟨2⟩ .standard 2).inPlace.run (Arena.build "Node" nodeEdits) =
      .ok (.item ⟨3⟩) a ∧ a.manifest.validate = .ok ()) ∧
    ∃ a, (Edit.setRecursiveElement ⟨2⟩ .standard 3).inPlace.run (Arena.build "Node" nodeEdits) =
      .ok (.item ⟨3⟩) a ∧ a.manifest.validate ≠ .ok () := by
  have hrun : ∀ n, (Edit.setRecursiveElement ⟨2⟩ .standard n).inPlace.run
      (Arena.build "Node" nodeEdits) = .ok (.item ⟨3⟩)
        ((Manifest.build "Node" nodeEdits).edit (.setRecursiveElement ⟨2⟩ .standard n)).arena := by
    intro n
    rw [Arena.build_eq, run_inPlace]
    rfl
  have hvalid : (Arena.build "Node" nodeEdits).manifest.validate = .ok () :=
    Fallible.eq_ok_of_toOption (by decide +kernel)
  have hfit := fun n => (answers_outlast_edits "Node" nodeEdits).2 _ _ _ (hrun n) hvalid
  refine ⟨⟨_, hrun 2, (hfit 2).mpr ?_⟩, _, hrun 3, mt (hfit 3).mp ?_⟩
  · exact ⟨by decide, by decide +kernel⟩
  · exact fun hfits => absurd hfits.2 (by decide +kernel)

end Vetting
