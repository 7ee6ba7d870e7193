import Mathlib.Data.List.Induction
import Vetting.Manifest.WellFormed
import Vetting.Proofs.Fallible

/-!
# The arena of a manifest

What holds of the numbered items and rules of every manifest that edits build (`Manifest.Sound`):
a parent comes before its items and cannot be recursive, the items that an item lists are exactly
those that name it as their parent, each in the list of its kind, and the rules that an item lists
are exactly those declared for it, no two of them under one key.

What an edit does is said once, by what the look-ups of its result answer (`Manifest.Step`);
`edit_sound` is then a comparison of look-ups, one lemma for each way of changing the arena, and
`build_sound` follows by induction on the edits.
-/

namespace Vetting

def Source.isMember : Source → Bool
  | .member _ _ _ => true
  | _ => false

/-- The item that an edit adds: its owner, how it comes by its values, and its type. -/
def Edit.newItem? (m : Manifest) : Edit → Option (ItemId × Source × String)
  | .addMember owner name validatedType reader =>
    some (owner, .member name reader none, validatedType)
  | .setElement owner validatedType enumerator =>
    some (owner, .element enumerator none, validatedType)
  | .addVariant owner recognizer => some (owner, .variant recognizer, recognizer.typeName)
  | .addRecursiveMember owner name reader levels =>
    (m.item? owner).map fun item =>
      (owner, .member name reader (some levels), m.borrowedType owner levels item)
  | .setRecursiveElement owner enumerator levels =>
    (m.item? owner).map fun item =>
      (owner, .element enumerator (some levels), m.borrowedType owner levels item)
  | _ => none

/-- What an edit changes about an item that is there. -/
def Edit.change? : Edit → Option (ItemId × (Item → Item))
  | .setIdentity item identity => some (item, ({ · with identity := some identity }))
  | .setFallback item value => some (item, ({ · with fallback := value }))
  | .setPolicy item policy => some (item, ({ · with onFailure := some policy }))
  | _ => none

theorem ItemId.eq_iff {a b : ItemId} : a = b ↔ a.index = b.index := by
  cases a; cases b; simp

theorem RuleId.eq_iff {a b : RuleId} : a = b ↔ a.index = b.index := by
  cases a; cases b; simp

theorem exists_of_rel_some {α β : Type} {R : α → β → Prop} {x : Option α} {b : β}
    (h : Option.Rel R x (some b)) : ∃ a, x = some a ∧ R a b := by
  cases h with
  | some h => exact ⟨_, rfl, h⟩

theorem exists_of_some_rel {α β : Type} {R : α → β → Prop} {a : α} {y : Option β}
    (h : Option.Rel R (some a) y) : ∃ b, y = some b ∧ R a b := by
  cases h with
  | some h => exact ⟨_, rfl, h⟩

namespace Manifest

/-! ## Look-ups -/

theorem item?_lt {m : Manifest} {id : ItemId} {item : Item} (h : m.item? id = some item) :
    id.index < m.items.size :=
  (Array.getElem?_eq_some_iff.mp h).1

theorem rule?_lt {m : Manifest} {id : RuleId} {rule : RuleDecl} (h : m.rule? id = some rule) :
    id.index < m.rules.size :=
  (Array.getElem?_eq_some_iff.mp h).1

theorem item?_ne_size {m : Manifest} {id : ItemId} {item : Item} (h : m.item? id = some item) :
    id ≠ ⟨m.items.size⟩ := fun heq => by
  have hlt := item?_lt h
  rw [heq] at hlt
  exact Nat.lt_irrefl _ hlt

theorem rule?_ne_size {m : Manifest} {id : RuleId} {rule : RuleDecl} (h : m.rule? id = some rule) :
    id ≠ ⟨m.rules.size⟩ := fun heq => by
  have hlt := rule?_lt h
  rw [heq] at hlt
  exact Nat.lt_irrefl _ hlt

theorem exists_item? {m : Manifest} {id : ItemId} (h : id.index < m.items.size) :
    ∃ item, m.item? id = some item :=
  ⟨m.items[id.index], Array.getElem?_eq_getElem h⟩

theorem get_eq_ok {m : Manifest} {id : ItemId} {item : Item} :
    m.get id = .ok item ↔ m.item? id = some item := by
  unfold get
  cases m.item? id <;> simp

theorem item?_modifyItem (m : Manifest) (id : ItemId) (f : Item → Item) (j : ItemId) :
    (m.modifyItem id f).item? j = if j = id then (m.item? j).map f else m.item? j := by
  simp only [item?, modifyItem, Array.getElem?_modify, ItemId.eq_iff, eq_comm]

@[simp] theorem rule?_modifyItem (m : Manifest) (id : ItemId) (f : Item → Item) (r : RuleId) :
    (m.modifyItem id f).rule? r = m.rule? r := rfl

/-! ## The invariant -/

/-- `id` is an item of a kind that names `owner` as its parent. -/
def HangsFrom (m : Manifest) (owner : ItemId) (kind : Source → Bool) (id : ItemId) : Prop :=
  ∃ item, m.item? id = some item ∧ item.parent = some owner ∧ kind item.source = true

theorem HangsFrom.owner_unique {m : Manifest} {a b id : ItemId} {kind kind' : Source → Bool}
    (ha : m.HangsFrom a kind id) (hb : m.HangsFrom b kind' id) : a = b := by
  obtain ⟨item, hi, hp, -⟩ := ha
  obtain ⟨item', hi', hp', -⟩ := hb
  obtain rfl := Option.some.inj (hi.symm.trans hi')
  exact Option.some.inj (hp.symm.trans hp')

/-- `item`, which is number `id`, lists exactly the items that hang from it and the rules that are
declared for it, each once. -/
structure Linked (m : Manifest) (id : ItemId) (item : Item) : Prop where
  members_nodup : item.members.Nodup
  mem_members (c : ItemId) : c ∈ item.members ↔ m.HangsFrom id Source.isMember c
  element_eq (c : ItemId) : item.element = some c ↔ m.HangsFrom id Source.isElement c
  variants_nodup : item.variants.Nodup
  mem_variants (c : ItemId) : c ∈ item.variants ↔ m.HangsFrom id Source.isVariant c
  rules_nodup : item.rules.Nodup
  mem_rules (r : RuleId) : r ∈ item.rules ↔ ∃ rule, m.rule? r = some rule ∧ rule.item = id

/-- What every edit keeps. -/
structure Sound (m : Manifest) : Prop where
  root_known : ∃ item, m.item? root = some item
  source_root {id : ItemId} {item : Item} (h : m.item? id = some item) :
    item.source = .root ↔ id = root
  parent_none {id : ItemId} {item : Item} (h : m.item? id = some item) :
    item.parent = none ↔ id = root
  parent_some {id p : ItemId} {item : Item} (h : m.item? id = some item)
    (hp : item.parent = some p) :
    p.index < id.index ∧ ∃ owner, m.item? p = some owner ∧ owner.source.isRecursive = false
  linked {id : ItemId} {item : Item} (h : m.item? id = some item) : m.Linked id item
  rule_owner {r : RuleId} {rule : RuleDecl} (h : m.rule? r = some rule) :
    ∃ owner, m.item? rule.item = some owner ∧ owner.source.isRecursive = false ∧
      rule.key.validatedType = owner.validatedType
  key_unique {r s : RuleId} {a b : RuleDecl} (hr : m.rule? r = some a) (hs : m.rule? s = some b)
    (hitem : a.item = b.item) (hkey : a.key = b.key) : r = s

theorem ofType_sound (rootType : String) : (ofType rootType).Sound := by
  have hitem : ∀ {id : ItemId} {item : Item}, (ofType rootType).item? id = some item →
      id = root ∧ item = { source := .root, validatedType := rootType } := by
    intro id item h
    have hlt : id.index < 1 := item?_lt h
    obtain rfl : id = root := ItemId.eq_iff.mpr (by simp only [root]; omega)
    exact ⟨rfl, (Option.some.inj h).symm⟩
  have hhangs : ∀ owner kind id, ¬ (ofType rootType).HangsFrom owner kind id := by
    rintro owner kind id ⟨item, h, hp, -⟩
    obtain ⟨-, rfl⟩ := hitem h
    cases hp
  have hrule : ∀ r, (ofType rootType).rule? r = none := fun r => by simp [ofType, rule?]
  refine ⟨⟨_, rfl⟩, ?_, ?_, ?_, ?_, ?_, ?_⟩
  · intro id item h
    obtain ⟨rfl, rfl⟩ := hitem h
    simp
  · intro id item h
    obtain ⟨rfl, rfl⟩ := hitem h
    simp
  · intro id p item h hp
    obtain ⟨-, rfl⟩ := hitem h
    cases hp
  · intro id item h
    obtain ⟨rfl, rfl⟩ := hitem h
    constructor <;> simp [hhangs, hrule]
  · intro r rule h
    rw [hrule] at h
    cases h
  · intro r s a b h
    rw [hrule] at h
    cases h

/-! ## Changing what no link depends on -/

/-- Two items with the same place in the arena. -/
structure SamePlace (a b : Item) : Prop where
  source : a.source = b.source
  validatedType : a.validatedType = b.validatedType
  parent : a.parent = b.parent
  members : a.members = b.members
  element : a.element = b.element
  variants : a.variants = b.variants
  rules : a.rules = b.rules

theorem SamePlace.refl (item : Item) : SamePlace item item :=
  ⟨rfl, rfl, rfl, rfl, rfl, rfl, rfl⟩

/-- An item stays linked where the same items hang from it and the same rules are declared. -/
theorem Linked.congr {m m' : Manifest} {id : ItemId} {a b : Item} (h : m.Linked id a)
    (hs : SamePlace a b) (hhangs : ∀ kind c, m'.HangsFrom id kind c ↔ m.HangsFrom id kind c)
    (hrules : ∀ r, (∃ rule, m'.rule? r = some rule ∧ rule.item = id) ↔
      ∃ rule, m.rule? r = some rule ∧ rule.item = id) : m'.Linked id b := by
  refine ⟨hs.members ▸ h.members_nodup, fun c => ?_, fun c => ?_, hs.variants ▸ h.variants_nodup,
    fun c => ?_, hs.rules ▸ h.rules_nodup, fun r => ?_⟩
  · rw [hhangs, ← hs.members]
    exact h.mem_members c
  · rw [hhangs, ← hs.element]
    exact h.element_eq c
  · rw [hhangs, ← hs.variants]
    exact h.mem_variants c
  · rw [hrules, ← hs.rules]
    exact h.mem_rules r

/-- Manifests that differ in nothing that the invariant looks at. -/
theorem Sound.congr {m m' : Manifest} (h : m.Sound)
    (hitems : ∀ id, Option.Rel SamePlace (m.item? id) (m'.item? id))
    (hrules : ∀ r, Option.Rel (fun a b => a.key = b.key ∧ a.item = b.item)
      (m.rule? r) (m'.rule? r)) : m'.Sound := by
  have hitem : ∀ {id item'}, m'.item? id = some item' →
      ∃ item, m.item? id = some item ∧ SamePlace item item' :=
    fun h' => exists_of_rel_some (h' ▸ hitems _)
  have hitem' : ∀ {id item}, m.item? id = some item →
      ∃ item', m'.item? id = some item' ∧ SamePlace item item' :=
    fun h => exists_of_some_rel (h ▸ hitems _)
  have hrule : ∀ {r rule'}, m'.rule? r = some rule' →
      ∃ rule, m.rule? r = some rule ∧ rule.key = rule'.key ∧ rule.item = rule'.item :=
    fun h' => exists_of_rel_some (h' ▸ hrules _)
  have hrule' : ∀ {r rule}, m.rule? r = some rule →
      ∃ rule', m'.rule? r = some rule' ∧ rule.key = rule'.key ∧ rule.item = rule'.item :=
    fun h => exists_of_some_rel (h ▸ hrules _)
  have hhangs : ∀ owner kind id, m'.HangsFrom owner kind id ↔ m.HangsFrom owner kind id := by
    intro owner kind id
    constructor
    · rintro ⟨item', h', hp, hk⟩
      obtain ⟨item, hi, hs⟩ := hitem h'
      exact ⟨item, hi, hs.parent.trans hp, hs.source ▸ hk⟩
    · rintro ⟨item, hi, hp, hk⟩
      obtain ⟨item', h', hs⟩ := hitem' hi
      exact ⟨item', h', hs.parent ▸ hp, hs.source ▸ hk⟩
  refine ⟨?_, ?_, ?_, ?_, ?_, ?_, ?_⟩
  · obtain ⟨item, hi⟩ := h.root_known
    obtain ⟨item', h', -⟩ := hitem' hi
    exact ⟨item', h'⟩
  · intro id item' h'
    obtain ⟨item, hi, hs⟩ := hitem h'
    rw [← hs.source]
    exact h.source_root hi
  · intro id item' h'
    obtain ⟨item, hi, hs⟩ := hitem h'
    rw [← hs.parent]
    exact h.parent_none hi
  · intro id p item' h' hp
    obtain ⟨item, hi, hs⟩ := hitem h'
    obtain ⟨hlt, owner, ho, hrec⟩ := h.parent_some hi (hs.parent.trans hp)
    obtain ⟨owner', ho', hso⟩ := hitem' ho
    exact ⟨hlt, owner', ho', hso.source ▸ hrec⟩
  · intro id item' h'
    obtain ⟨item, hi, hs⟩ := hitem h'
    refine (h.linked hi).congr hs (fun kind c => hhangs id kind c) (fun r => ?_)
    constructor
    · rintro ⟨rule', hr', rfl⟩
      obtain ⟨rule, hr, -, hri⟩ := hrule hr'
      exact ⟨rule, hr, hri⟩
    · rintro ⟨rule, hr, rfl⟩
      obtain ⟨rule', hr', -, hri⟩ := hrule' hr
      exact ⟨rule', hr', hri.symm⟩
  · intro r rule' hr'
    obtain ⟨rule, hr, hkey, hri⟩ := hrule hr'
    obtain ⟨owner, ho, hrec, hty⟩ := h.rule_owner hr
    obtain ⟨owner', ho', hso⟩ := hitem' ho
    exact ⟨owner', hri ▸ ho', hso.source ▸ hrec, by rw [← hkey, hty, hso.validatedType]⟩
  · intro r s a' b' hr' hs' hitem2 hkey2
    obtain ⟨a, ha, hka, hia⟩ := hrule hr'
    obtain ⟨b, hb, hkb, hib⟩ := hrule hs'
    exact h.key_unique ha hb (by rw [hia, hib, hitem2]) (by rw [hka, hkb, hkey2])

theorem alterItem_eq_ok {m m' : Manifest} {id : ItemId} {f : Item → Item} {receipt : Receipt}
    (happly : m.alterItem id f = .ok (m', receipt)) : m' = m.modifyItem id f := by
  obtain ⟨item, -, happly⟩ := Fallible.bind_eq_ok.mp happly
  cases happly
  rfl

theorem modifyItem_samePlace {m : Manifest} {id : ItemId} {f : Item → Item}
    (hf : ∀ item, SamePlace item (f item)) (j : ItemId) :
    Option.Rel SamePlace (m.item? j) ((m.modifyItem id f).item? j) := by
  rw [item?_modifyItem]
  cases m.item? j with
  | none => split <;> exact .none
  | some item =>
      split
      · exact .some (hf item)
      · exact .some (.refl item)

theorem modifyItem_sound {m : Manifest} {id : ItemId} {f : Item → Item}
    (hf : ∀ item, SamePlace item (f item)) (h : m.Sound) : (m.modifyItem id f).Sound := by
  refine h.congr (modifyItem_samePlace hf) (fun r => ?_)
  rw [rule?_modifyItem]
  cases m.rule? r with
  | none => exact .none
  | some rule => exact .some ⟨rfl, rfl⟩

/-- What the look-ups of a manifest answer in which a rule depends on one more. -/
structure Depends (m m' : Manifest) (rule : RuleId) (target : RuleRef) : Prop where
  known : ∃ decl, m.rule? rule = some decl
  item? (j : ItemId) : m'.item? j = m.item? j
  rule? (r : RuleId) : m'.rule? r = if r = rule then
    (m.rule? r).map (fun decl => { decl with dependencies := decl.dependencies ++ [target] })
    else m.rule? r

theorem addDependency_depends {m m' : Manifest} {rule : RuleId} {target : RuleRef}
    {receipt : Receipt} (happly : m.addDependency rule target = .ok (m', receipt)) :
    m.Depends m' rule target := by
  unfold addDependency at happly
  cases hr : m.rule? rule with
  | none => rw [hr] at happly; cases happly
  | some decl =>
      rw [hr] at happly
      cases happly
      refine ⟨⟨decl, hr⟩, fun j => rfl, fun r => ?_⟩
      simp only [rule?, Array.getElem?_modify, RuleId.eq_iff, eq_comm]

theorem Depends.sound {m m' : Manifest} {rule : RuleId} {target : RuleRef}
    (h : m.Depends m' rule target) (hm : m.Sound) : m'.Sound := by
  refine hm.congr (fun j => ?_) (fun r => ?_)
  · rw [h.item?]
    cases m.item? j with
    | none => exact .none
    | some item => exact .some (.refl item)
  · rw [h.rule?]
    cases m.rule? r with
    | none => split <;> exact .none
    | some decl => split <;> exact .some ⟨rfl, rfl⟩

/-! ## New items -/

/-- `attach` enters a new item that has the source `kind` in the list of that kind and changes
nothing else. -/
structure Attaches (attach : ItemId → Item → Item) (kind : Source) : Prop where
  source (id : ItemId) (item : Item) : (attach id item).source = item.source
  validatedType (id : ItemId) (item : Item) :
    (attach id item).validatedType = item.validatedType
  parent (id : ItemId) (item : Item) : (attach id item).parent = item.parent
  rules (id : ItemId) (item : Item) : (attach id item).rules = item.rules
  members (id : ItemId) (item : Item) : (attach id item).members =
    if kind.isMember then item.members ++ [id] else item.members
  element (id : ItemId) (item : Item) : (attach id item).element =
    if kind.isElement then some id else item.element
  variants (id : ItemId) (item : Item) : (attach id item).variants =
    if kind.isVariant then item.variants ++ [id] else item.variants

/-- What the look-ups of a manifest with one more item answer. -/
structure Extends (m m' : Manifest) (owner : ItemId) (ownerItem newItem : Item)
    (attach : ItemId → Item → Item) : Prop where
  owner_known : m.item? owner = some ownerItem
  owner_own : ownerItem.source.isRecursive = false
  item?_new : m'.item? ⟨m.items.size⟩ = some newItem
  item?_owner : m'.item? owner = some (attach ⟨m.items.size⟩ ownerItem)
  item?_other (j : ItemId) (hnew : j ≠ ⟨m.items.size⟩) (howner : j ≠ owner) :
    m'.item? j = m.item? j
  rule? (r : RuleId) : m'.rule? r = m.rule? r

theorem addItem_extends {m m' : Manifest} {owner : ItemId} {source : Source}
    {validatedType : String} {attach : ItemId → Item → Item} {receipt : Receipt}
    (happly : m.addItem owner source validatedType attach = .ok (m', receipt)) :
    ∃ ownerItem, m.Extends m' owner ownerItem { source, validatedType, parent := some owner }
      attach := by
  obtain ⟨ownerItem, hget, happly⟩ := Fallible.bind_eq_ok.mp happly
  have hknown := get_eq_ok.mp hget
  have hne := item?_ne_size hknown
  have hpush : ∀ (new : Item) (j : ItemId), j ≠ ⟨m.items.size⟩ →
      item? { m with items := m.items.push new } j = m.item? j := by
    intro new j hj
    simp only [item?, Array.getElem?_push]
    rw [if_neg fun heq => hj (ItemId.eq_iff.mpr heq)]
  cases hrec : ownerItem.source.isRecursive with
  | true => simp [hrec, bind, Except.bind, throw, throwThe, MonadExceptOf.throw] at happly
  | false =>
      simp only [hrec, Bool.false_eq_true, if_false] at happly
      cases happly
      refine ⟨ownerItem, hknown, hrec, ?_, ?_, ?_, fun r => rfl⟩
      · rw [item?_modifyItem, if_neg hne.symm]
        simp [item?]
      · rw [item?_modifyItem, if_pos rfl, hpush _ _ hne, hknown]
        rfl
      · intro j hnew howner
        rw [item?_modifyItem, if_neg howner, hpush _ _ hnew]

namespace Extends

variable {m m' : Manifest} {owner : ItemId} {ownerItem newItem : Item}
  {attach : ItemId → Item → Item} {kind : Source}

/-- An item of the extended manifest is the new one, or one of before up to what was attached. -/
theorem cases_item? (h : m.Extends m' owner ownerItem newItem attach) {j : ItemId} {item' : Item}
    (h' : m'.item? j = some item') :
    (j = ⟨m.items.size⟩ ∧ item' = newItem) ∨
      ∃ item, m.item? j = some item ∧
        item' = if j = owner then attach ⟨m.items.size⟩ item else item := by
  by_cases hnew : j = ⟨m.items.size⟩
  · subst hnew
    rw [h.item?_new] at h'
    exact .inl ⟨rfl, (Option.some.inj h').symm⟩
  · by_cases howner : j = owner
    · subst howner
      rw [h.item?_owner] at h'
      exact .inr ⟨ownerItem, h.owner_known, by rw [if_pos rfl]; exact (Option.some.inj h').symm⟩
    · rw [h.item?_other j hnew howner] at h'
      exact .inr ⟨item', h', by rw [if_neg howner]⟩

theorem item?_old (h : m.Extends m' owner ownerItem newItem attach) {j : ItemId} {item : Item}
    (hj : m.item? j = some item) :
    m'.item? j = some (if j = owner then attach ⟨m.items.size⟩ item else item) := by
  by_cases howner : j = owner
  · subst howner
    obtain rfl := Option.some.inj (h.owner_known.symm.trans hj)
    rw [if_pos rfl, h.item?_owner]
  · rw [if_neg howner, h.item?_other j (item?_ne_size hj) howner, hj]

theorem hangsFrom_iff (h : m.Extends m' owner ownerItem newItem attach)
    (hattach : Attaches attach kind) (hsource : newItem.source = kind)
    (hparent : newItem.parent = some owner) (o : ItemId) (test : Source → Bool) (c : ItemId) :
    m'.HangsFrom o test c ↔
      m.HangsFrom o test c ∨ (c = ⟨m.items.size⟩ ∧ o = owner ∧ test kind = true) := by
  constructor
  · rintro ⟨item', h', hp, ht⟩
    rcases h.cases_item? h' with ⟨rfl, rfl⟩ | ⟨item, hi, rfl⟩
    · rw [hparent] at hp
      exact .inr ⟨rfl, (Option.some.inj hp).symm, hsource ▸ ht⟩
    · refine .inl ⟨item, hi, ?_, ?_⟩
      · split at hp
        · exact hattach.parent _ _ ▸ hp
        · exact hp
      · split at ht
        · exact hattach.source _ _ ▸ ht
        · exact ht
  · rintro (⟨item, hi, hp, ht⟩ | ⟨rfl, rfl, ht⟩)
    · refine ⟨_, h.item?_old hi, ?_, ?_⟩
      · split
        · rw [hattach.parent, hp]
        · exact hp
      · split
        · rw [hattach.source, ht]
        · exact ht
    · exact ⟨newItem, h.item?_new, hparent, by rw [hsource, ht]⟩

/-- Nothing that is linked in the old manifest has the new number. -/
theorem not_hangsFrom_new (o : ItemId) (test : Source → Bool) :
    ¬ m.HangsFrom o test ⟨m.items.size⟩ := fun ⟨_, hi, _⟩ => item?_ne_size hi rfl

theorem linked_new (h : m.Extends m' owner ownerItem newItem attach) (hm : m.Sound)
    (hattach : Attaches attach kind) (hsource : newItem.source = kind)
    (hparent : newItem.parent = some owner)
    (hnone : newItem.members = [] ∧ newItem.element = none ∧ newItem.variants = [] ∧
      newItem.rules = []) : m'.Linked ⟨m.items.size⟩ newItem := by
  obtain ⟨hmembers, helement, hvariants, hrules⟩ := hnone
  have hno : ∀ test c, ¬ m'.HangsFrom ⟨m.items.size⟩ test c := by
    intro test c hc
    rcases (h.hangsFrom_iff hattach hsource hparent _ test c).mp hc with
      ⟨item, hi, hp, -⟩ | ⟨-, ho, -⟩
    · obtain ⟨hlt, -⟩ := hm.parent_some hi hp
      exact Nat.lt_asymm hlt (item?_lt hi)
    · exact item?_ne_size h.owner_known ho.symm
  have hnorule : ∀ r, ¬ ∃ rule, m'.rule? r = some rule ∧ rule.item = ⟨m.items.size⟩ := by
    rintro r ⟨rule, hr, hitem⟩
    rw [h.rule?] at hr
    obtain ⟨o, ho, -⟩ := hm.rule_owner hr
    exact item?_ne_size ho hitem
  constructor <;> simp [hmembers, helement, hvariants, hrules, hno, hnorule]

theorem linked_owner (h : m.Extends m' owner ownerItem newItem attach) (hm : m.Sound)
    (hattach : Attaches attach kind) (hsource : newItem.source = kind)
    (hparent : newItem.parent = some owner)
    (helement : kind.isElement = true → ownerItem.element = none) :
    m'.Linked owner (attach ⟨m.items.size⟩ ownerItem) := by
  have hl := hm.linked h.owner_known
  have hiff := fun test c => h.hangsFrom_iff hattach hsource hparent owner test c
  have hfresh : ∀ {test : Source → Bool} {l : List ItemId},
      (∀ c, c ∈ l ↔ m.HangsFrom owner test c) → (⟨m.items.size⟩ : ItemId) ∉ l := fun hmem hin =>
    not_hangsFrom_new _ _ ((hmem _).mp hin)
  refine ⟨?_, fun c => ?_, fun c => ?_, ?_, fun c => ?_, ?_, fun r => ?_⟩
  · rw [hattach.members]
    split
    · exact List.nodup_append.mpr ⟨hl.members_nodup, by simp, fun a ha b hb hab =>
        hfresh hl.mem_members (List.mem_singleton.mp hb ▸ hab ▸ ha)⟩
    · exact hl.members_nodup
  · rw [hattach.members, hiff, ← hl.mem_members]
    split <;> simp [*]
  · rw [hattach.element, hiff, ← hl.element_eq]
    split
    · simp [*, eq_comm]
    · simp [*]
  · rw [hattach.variants]
    split
    · exact List.nodup_append.mpr ⟨hl.variants_nodup, by simp, fun a ha b hb hab =>
        hfresh hl.mem_variants (List.mem_singleton.mp hb ▸ hab ▸ ha)⟩
    · exact hl.variants_nodup
  · rw [hattach.variants, hiff, ← hl.mem_variants]
    split <;> simp [*]
  · rw [hattach.rules]
    exact hl.rules_nodup
  · rw [hattach.rules, h.rule?]
    exact hl.mem_rules r

/-- A manifest stays sound when it gets one more item. Items of before keep all but what is
attached, so only the new item and its owner need work. -/
theorem sound (h : m.Extends m' owner ownerItem newItem attach) (hm : m.Sound)
    (hattach : Attaches attach kind) (hsource : newItem.source = kind) (hroot : kind ≠ .root)
    (hparent : newItem.parent = some owner)
    (hnone : newItem.members = [] ∧ newItem.element = none ∧ newItem.variants = [] ∧
      newItem.rules = [])
    (helement : kind.isElement = true → ownerItem.element = none) : m'.Sound := by
  have hnewroot : (⟨m.items.size⟩ : ItemId) ≠ root := by
    obtain ⟨item, hi⟩ := hm.root_known
    exact (item?_ne_size hi).symm
  -- What an item of before keeps, whether or not it is the owner.
  have hsame : ∀ (j : ItemId) (item : Item),
      let item' := if j = owner then attach ⟨m.items.size⟩ item else item
      item'.source = item.source ∧ item'.parent = item.parent ∧
        item'.validatedType = item.validatedType := by
    intro j item
    by_cases hj : j = owner
    · simp only [hj, if_true, hattach.source, hattach.parent, hattach.validatedType, and_self]
    · simp only [hj, if_false, and_self]
  refine ⟨?_, ?_, ?_, ?_, ?_, ?_, ?_⟩
  · obtain ⟨item, hi⟩ := hm.root_known
    exact ⟨_, h.item?_old hi⟩
  · intro id item' h'
    rcases h.cases_item? h' with ⟨rfl, rfl⟩ | ⟨item, hi, rfl⟩
    · simp [hsource, hroot, hnewroot]
    · rw [(hsame id item).1]
      exact hm.source_root hi
  · intro id item' h'
    rcases h.cases_item? h' with ⟨rfl, rfl⟩ | ⟨item, hi, rfl⟩
    · simp [hparent, hnewroot]
    · rw [(hsame id item).2.1]
      exact hm.parent_none hi
  · intro id p item' h' hp
    rcases h.cases_item? h' with ⟨rfl, rfl⟩ | ⟨item, hi, rfl⟩
    · obtain rfl := Option.some.inj (hparent.symm.trans hp)
      exact ⟨item?_lt h.owner_known, _, h.item?_owner, by rw [hattach.source, h.owner_own]⟩
    · rw [(hsame id item).2.1] at hp
      obtain ⟨hlt, o, ho, hrec⟩ := hm.parent_some hi hp
      exact ⟨hlt, _, h.item?_old ho, by rw [(hsame p o).1, hrec]⟩
  · intro id item' h'
    rcases h.cases_item? h' with ⟨rfl, rfl⟩ | ⟨item, hi, rfl⟩
    · exact h.linked_new hm hattach hsource hparent hnone
    · by_cases hid : id = owner
      · subst hid
        obtain rfl := Option.some.inj (h.owner_known.symm.trans hi)
        rw [if_pos rfl]
        exact h.linked_owner hm hattach hsource hparent helement
      · rw [if_neg hid]
        have hiff := fun test c => h.hangsFrom_iff hattach hsource hparent id test c
        simp only [hid, false_and, and_false, or_false] at hiff
        exact (hm.linked hi).congr (.refl item) hiff fun r => by rw [h.rule?]
  · intro r rule hr
    rw [h.rule?] at hr
    obtain ⟨o, ho, hrec, hty⟩ := hm.rule_owner hr
    exact ⟨_, h.item?_old ho, by rw [(hsame _ o).1, hrec], by rw [(hsame _ o).2.2, hty]⟩
  · intro r s a b hr hs
    rw [h.rule?] at hr hs
    exact hm.key_unique hr hs

end Extends

theorem attachMember_attaches (name : String) (reader : Reader) (levels : Option Nat) :
    Attaches attachMember (.member name reader levels) := by
  constructor <;> intros <;> rfl

theorem attachVariant_attaches (recognizer : Recognizer) :
    Attaches attachVariant (.variant recognizer) := by
  constructor <;> intros <;> rfl

theorem element_attaches (enumerator : Enumerator) (levels : Option Nat) :
    Attaches (fun id item => { item with element := some id }) (.element enumerator levels) := by
  constructor <;> intros <;> rfl

/-- The element item of a collection is an item that is added where there was none. -/
theorem addElement_eq_ok {m m' : Manifest} {owner : ItemId} {source : Source}
    {validatedType : String} {receipt : Receipt}
    (happly : m.addElement owner source validatedType = .ok (m', receipt)) :
    (∀ item, m.item? owner = some item → item.element = none) ∧
      m.addItem owner source validatedType (fun id item => { item with element := some id }) =
        .ok (m', receipt) := by
  obtain ⟨ownerItem, hget, happly⟩ := Fallible.bind_eq_ok.mp happly
  cases hel : ownerItem.element with
  | some e => simp [hel, bind, Except.bind, throw, throwThe, MonadExceptOf.throw] at happly
  | none =>
      simp only [hel, Option.isSome_none, Bool.false_eq_true, if_false] at happly
      refine ⟨fun item hi => ?_, happly⟩
      rw [get_eq_ok.mp hget] at hi
      exact Option.some.inj hi ▸ hel

/-! ## New rules -/

theorem findRule?_eq_some {m : Manifest} {target : RuleRef} {r : RuleId}
    (h : m.findRule? target = some r) :
    ∃ item rule, m.item? target.item = some item ∧ r ∈ item.rules ∧ m.rule? r = some rule ∧
      rule.key = target.key := by
  obtain ⟨item, hi, hfind⟩ := Option.bind_eq_some_iff.mp h
  have htest := List.find?_some hfind
  obtain ⟨rule, hr, hkey⟩ := (Option.any_eq_true _ _).mp htest
  exact ⟨item, rule, hi, List.mem_of_find?_eq_some hfind, hr, eq_of_beq hkey⟩

theorem findRule?_eq_none {m : Manifest} {target : RuleRef} {item : Item}
    (hi : m.item? target.item = some item) (h : m.findRule? target = none) {r : RuleId}
    (hmem : r ∈ item.rules) {rule : RuleDecl} (hr : m.rule? r = some rule) :
    rule.key ≠ target.key := by
  intro hkey
  have hfind := (Option.bind_eq_none_iff.mp h) item hi
  have := List.find?_eq_none.mp hfind r hmem
  simp [hr, hkey] at this

/-- What the look-ups of a manifest with one more rule answer. -/
structure Declares (m m' : Manifest) (owner : ItemId) (ownerItem : Item) (newRule : RuleDecl) :
    Prop where
  owner_known : m.item? owner = some ownerItem
  owner_own : ownerItem.source.isRecursive = false
  rule_item : newRule.item = owner
  rule_type : newRule.key.validatedType = ownerItem.validatedType
  key_new : m.findRule? ⟨owner, newRule.key⟩ = none
  rule?_new : m'.rule? ⟨m.rules.size⟩ = some newRule
  rule?_old (r : RuleId) (hr : r ≠ ⟨m.rules.size⟩) : m'.rule? r = m.rule? r
  item? (j : ItemId) : m'.item? j = if j = owner then
    (m.item? j).map (fun item => { item with rules := item.rules ++ [⟨m.rules.size⟩] })
    else m.item? j

theorem addRule_declares {m m' : Manifest} {owner : ItemId} {ruleType : String}
    {name : Option String} {config : Fields} {dependencies : List RuleRef} {receipt : Receipt}
    (happly : m.addRule owner ruleType name config dependencies = .ok (m', receipt)) :
    ∃ ownerItem, m.Declares m' owner ownerItem
      ⟨⟨ruleType, ownerItem.validatedType, name⟩, owner, config, dependencies⟩ := by
  obtain ⟨ownerItem, hget, happly⟩ := Fallible.bind_eq_ok.mp happly
  cases hrec : ownerItem.source.isRecursive with
  | true => simp [hrec, bind, Except.bind, throw, throwThe, MonadExceptOf.throw] at happly
  | false =>
      cases hfind : m.findRule? ⟨owner, ⟨ruleType, ownerItem.validatedType, name⟩⟩ with
      | some r =>
          simp [hrec, hfind, bind, Except.bind, throw, throwThe, MonadExceptOf.throw] at happly
      | none =>
          simp only [hrec, hfind, Option.isSome_none, Bool.false_eq_true, if_false] at happly
          cases happly
          refine ⟨ownerItem, get_eq_ok.mp hget, hrec, rfl, rfl, hfind, ?_, ?_, fun j => ?_⟩
          · simp [rule?, modifyItem]
          · intro r hr
            simp only [rule?, modifyItem, Array.getElem?_push]
            rw [if_neg fun heq => hr (RuleId.eq_iff.mpr heq)]
          · rw [item?_modifyItem]
            rfl

namespace Declares

variable {m m' : Manifest} {owner : ItemId} {ownerItem : Item} {newRule : RuleDecl}

theorem item?_old (h : m.Declares m' owner ownerItem newRule) {j : ItemId} {item : Item}
    (hj : m.item? j = some item) :
    m'.item? j = some { item with
      rules := if j = owner then item.rules ++ [⟨m.rules.size⟩] else item.rules } := by
  rw [h.item?, hj]
  split <;> rfl

theorem cases_item? (h : m.Declares m' owner ownerItem newRule) {j : ItemId} {item' : Item}
    (h' : m'.item? j = some item') :
    ∃ item, m.item? j = some item ∧ item' = { item with
      rules := if j = owner then item.rules ++ [⟨m.rules.size⟩] else item.rules } := by
  cases hj : m.item? j with
  | none => rw [h.item?, hj] at h'; split at h' <;> cases h'
  | some item =>
      rw [h.item?_old hj] at h'
      exact ⟨item, rfl, (Option.some.inj h').symm⟩

theorem cases_rule? (h : m.Declares m' owner ownerItem newRule) {r : RuleId} {rule : RuleDecl}
    (hr : m'.rule? r = some rule) :
    (r = ⟨m.rules.size⟩ ∧ rule = newRule) ∨ (r ≠ ⟨m.rules.size⟩ ∧ m.rule? r = some rule) := by
  by_cases hnew : r = ⟨m.rules.size⟩
  · subst hnew
    rw [h.rule?_new] at hr
    exact .inl ⟨rfl, (Option.some.inj hr).symm⟩
  · rw [h.rule?_old r hnew] at hr
    exact .inr ⟨hnew, hr⟩

theorem hangsFrom_iff (h : m.Declares m' owner ownerItem newRule) (o : ItemId)
    (test : Source → Bool) (c : ItemId) : m'.HangsFrom o test c ↔ m.HangsFrom o test c := by
  constructor
  · rintro ⟨item', h', hp, ht⟩
    obtain ⟨item, hi, rfl⟩ := h.cases_item? h'
    exact ⟨item, hi, hp, ht⟩
  · rintro ⟨item, hi, hp, ht⟩
    exact ⟨_, h.item?_old hi, hp, ht⟩

theorem linked (h : m.Declares m' owner ownerItem newRule) (hm : m.Sound) {id : ItemId}
    {item : Item} (hi : m.item? id = some item) :
    m'.Linked id { item with
      rules := if id = owner then item.rules ++ [⟨m.rules.size⟩] else item.rules } := by
  have hl := hm.linked hi
  refine ⟨hl.members_nodup, fun c => ?_, fun c => ?_, hl.variants_nodup, fun c => ?_, ?_,
    fun r => ?_⟩
  · rw [h.hangsFrom_iff]
    exact hl.mem_members c
  · rw [h.hangsFrom_iff]
    exact hl.element_eq c
  · rw [h.hangsFrom_iff]
    exact hl.mem_variants c
  · show (if id = owner then item.rules ++ [⟨m.rules.size⟩] else item.rules).Nodup
    split
    · refine List.nodup_append.mpr ⟨hl.rules_nodup, by simp, fun a ha b hb hab => ?_⟩
      obtain ⟨rule, hr, -⟩ := (hl.mem_rules a).mp ha
      exact rule?_ne_size hr (hab.trans (List.mem_singleton.mp hb))
    · exact hl.rules_nodup
  · show r ∈ (if id = owner then item.rules ++ [⟨m.rules.size⟩] else item.rules) ↔ _
    constructor
    · intro hmem
      have hcases : r ∈ item.rules ∨ (id = owner ∧ r = ⟨m.rules.size⟩) := by
        split at hmem <;> simp_all
      rcases hcases with hold | ⟨rfl, rfl⟩
      · obtain ⟨rule, hr, hitem⟩ := (hl.mem_rules r).mp hold
        exact ⟨rule, by rw [h.rule?_old r (rule?_ne_size hr), hr], hitem⟩
      · exact ⟨newRule, h.rule?_new, h.rule_item⟩
    · rintro ⟨rule, hr, hitem⟩
      rcases h.cases_rule? hr with ⟨rfl, rfl⟩ | ⟨-, hr⟩
      · rw [if_pos (hitem.symm.trans h.rule_item)]
        simp
      · have hold := (hl.mem_rules r).mpr ⟨rule, hr, hitem⟩
        split
        · exact List.mem_append_left _ hold
        · exact hold

/-- A manifest stays sound when it gets one more rule. Keys stay unique because the new one was
looked for among the rules of its item, which are all the rules declared for it. -/
theorem sound (h : m.Declares m' owner ownerItem newRule) (hm : m.Sound) : m'.Sound := by
  have hclash : ∀ {s b}, m.rule? s = some b → b.item = owner → b.key ≠ newRule.key := by
    intro s b hs hitem
    have hmem := ((hm.linked h.owner_known).mem_rules s).mpr ⟨b, hs, hitem⟩
    exact findRule?_eq_none h.owner_known h.key_new hmem hs
  refine ⟨?_, ?_, ?_, ?_, ?_, ?_, ?_⟩
  · obtain ⟨item, hi⟩ := hm.root_known
    exact ⟨_, h.item?_old hi⟩
  · intro id item' h'
    obtain ⟨item, hi, rfl⟩ := h.cases_item? h'
    show item.source = .root ↔ id = root
    exact hm.source_root hi
  · intro id item' h'
    obtain ⟨item, hi, rfl⟩ := h.cases_item? h'
    show item.parent = none ↔ id = root
    exact hm.parent_none hi
  · intro id p item' h' hp
    obtain ⟨item, hi, rfl⟩ := h.cases_item? h'
    obtain ⟨hlt, o, ho, hrec⟩ := hm.parent_some hi hp
    exact ⟨hlt, _, h.item?_old ho, hrec⟩
  · intro id item' h'
    obtain ⟨item, hi, rfl⟩ := h.cases_item? h'
    exact h.linked hm hi
  · intro r rule hr
    rcases h.cases_rule? hr with ⟨rfl, rfl⟩ | ⟨-, hr⟩
    · rw [h.rule_item]
      exact ⟨_, h.item?_old h.owner_known, h.owner_own, h.rule_type⟩
    · obtain ⟨o, ho, hrec, hty⟩ := hm.rule_owner hr
      exact ⟨_, h.item?_old ho, hrec, hty⟩
  · intro r s a b hr hs hitem hkey
    rcases h.cases_rule? hr with ⟨rfl, rfl⟩ | ⟨-, hr⟩
    · rcases h.cases_rule? hs with ⟨rfl, -⟩ | ⟨-, hs⟩
      · rfl
      · exact absurd hkey.symm (hclash hs (hitem.symm.trans h.rule_item))
    · rcases h.cases_rule? hs with ⟨rfl, rfl⟩ | ⟨-, hs⟩
      · exact absurd hkey (hclash hr (hitem.trans h.rule_item))
      · exact hm.key_unique hr hs hitem hkey

end Declares

/-! ## Edits -/

/-- What an edit that succeeds does to a manifest: it adds an item or a rule, changes an item that
stays in its place, or makes a rule depend on one more. -/
inductive Step (m m' : Manifest) : Edit → Prop
  | adds {e : Edit} {owner : ItemId} {source : Source} {validatedType : String} {ownerItem : Item}
      {attach : ItemId → Item → Item} (hnew : e.newItem? m = some (owner, source, validatedType))
      (hattach : Attaches attach source)
      (hfree : source.isElement = true → ownerItem.element = none)
      (h : m.Extends m' owner ownerItem { source, validatedType, parent := some owner } attach) :
      Step m m' e
  | changes {e : Edit} {id : ItemId} {f : Item → Item} (hchange : e.change? = some (id, f))
      (h : m' = m.modifyItem id f) : Step m m' e
  | declares {owner : ItemId} {ruleType : String} {name : Option String} {config : Fields}
      {dependencies : List RuleRef} {ownerItem : Item}
      (h : m.Declares m' owner ownerItem
        ⟨⟨ruleType, ownerItem.validatedType, name⟩, owner, config, dependencies⟩) :
      Step m m' (.addRule owner ruleType name config dependencies)
  | depends {rule : RuleId} {target : RuleRef} (h : m.Depends m' rule target) :
      Step m m' (.addDependency rule target)

theorem apply_step {m m' : Manifest} {e : Edit} {receipt : Receipt}
    (happly : m.apply e = .ok (m', receipt)) : m.Step m' e := by
  have hborrows : ∀ {owner : ItemId} {ownerItem : Item} {source : Source},
      m.get owner = .ok ownerItem → ∀ levels,
        (m.item? owner).map (fun item => (owner, source, m.borrowedType owner levels item)) =
          some (owner, source, m.borrowedType owner levels ownerItem) := by
    intro owner ownerItem source hget levels
    rw [get_eq_ok.mp hget]
    rfl
  cases e with
  | addMember owner name validatedType reader =>
      obtain ⟨_, h⟩ := addItem_extends happly
      exact .adds rfl (attachMember_attaches name reader none) nofun h
  | setElement owner validatedType enumerator =>
      obtain ⟨hnone, happly⟩ := addElement_eq_ok happly
      obtain ⟨_, h⟩ := addItem_extends happly
      exact .adds rfl (element_attaches enumerator none) (fun _ => hnone _ h.owner_known) h
  | addVariant owner recognizer =>
      obtain ⟨_, h⟩ := addItem_extends happly
      exact .adds rfl (attachVariant_attaches recognizer) nofun h
  | addRecursiveMember owner name reader levels =>
      obtain ⟨ownerItem, hget, happly⟩ := Fallible.bind_eq_ok.mp happly
      obtain ⟨_, h⟩ := addItem_extends happly
      exact .adds (hborrows hget levels) (attachMember_attaches name reader (some levels)) nofun h
  | setRecursiveElement owner enumerator levels =>
      obtain ⟨ownerItem, hget, happly⟩ := Fallible.bind_eq_ok.mp happly
      obtain ⟨hnone, happly⟩ := addElement_eq_ok happly
      obtain ⟨_, h⟩ := addItem_extends happly
      exact .adds (hborrows hget levels) (element_attaches enumerator (some levels))
        (fun _ => hnone _ h.owner_known) h
  | setIdentity item identity => exact .changes rfl (alterItem_eq_ok happly)
  | setFallback item value => exact .changes rfl (alterItem_eq_ok happly)
  | setPolicy item policy => exact .changes rfl (alterItem_eq_ok happly)
  | addRule item ruleType name config dependencies =>
      obtain ⟨_, h⟩ := addRule_declares happly
      exact .declares h
  | addDependency rule target => exact .depends (addDependency_depends happly)

theorem newItem?_ne_root {m : Manifest} {e : Edit} {owner : ItemId} {source : Source}
    {validatedType : String} (hnew : e.newItem? m = some (owner, source, validatedType)) :
    source ≠ .root := by
  rintro rfl
  cases e <;> simp [Edit.newItem?] at hnew

theorem change?_samePlace {e : Edit} {id : ItemId} {f : Item → Item}
    (hchange : e.change? = some (id, f)) (item : Item) : SamePlace item (f item) := by
  cases e <;> simp only [Edit.change?, Option.some.injEq, Prod.mk.injEq, reduceCtorEq] at hchange
  all_goals
    obtain ⟨-, rfl⟩ := hchange
    exact ⟨rfl, rfl, rfl, rfl, rfl, rfl, rfl⟩

/-- Every edit that can be carried out keeps the arena sound. -/
theorem apply_sound {m m' : Manifest} {e : Edit} {receipt : Receipt} (hm : m.Sound)
    (happly : m.apply e = .ok (m', receipt)) : m'.Sound := by
  cases apply_step happly with
  | adds hnew hattach hfree h =>
      exact h.sound hm hattach rfl (newItem?_ne_root hnew) rfl ⟨rfl, rfl, rfl, rfl⟩ hfree
  | changes hchange h =>
      subst h
      exact modifyItem_sound (change?_samePlace hchange) hm
  | declares h => exact h.sound hm
  | depends h => exact h.sound hm

theorem edit_sound {m : Manifest} (hm : m.Sound) (e : Edit) : (m.edit e).Sound := by
  unfold edit
  split
  · rename_i happly
    exact apply_sound hm happly
  · exact hm

/-- Every manifest that edits build is sound, whatever edits fail on the way. -/
theorem build_sound (rootType : String) (edits : List Edit) : (build rootType edits).Sound := by
  unfold build
  induction edits using List.reverseRecOn with
  | nil => exact ofType_sound rootType
  | append_singleton edits e ih =>
      rw [List.foldl_append]
      exact edit_sound ih e

end Manifest

end Vetting
