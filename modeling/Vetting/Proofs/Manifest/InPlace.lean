import Mathlib.Data.List.Nodup
import Vetting.Manifest.InPlace
import Vetting.Proofs.Manifest.Arena

/-!
# Editing in place is safe

Edits in place do what edits do to a manifest, and when one fails it leaves the arena as it was
(`run_inPlace`). The steps are followed one primitive at a time, each with one lemma about what it
does to the arena of a manifest: a read and a refusal change nothing, an append gives out the next
position, a modification keeps all numbers. So every arena that edits build is the arena of the
manifest that they build (`Arena.build_eq`), and what is known of that manifest (`Manifest.Sound`)
says what is in the arena (`Arena.Consistent`). That everything is listed once is counted over all
lists: no list repeats anything, and what it holds is what names its item as the owner.
-/

namespace Vetting

/-! ## Manifests as arenas -/

/-- The arena that stores a manifest with every entry numbered by its position. -/
def Manifest.arena (m : Manifest) : Arena where
  items := m.items.mapIdx fun i item => ⟨⟨i⟩, item⟩
  rules := m.rules.mapIdx fun i rule => ⟨⟨i⟩, rule⟩

@[simp] theorem Manifest.manifest_arena (m : Manifest) : m.arena.manifest = m := by
  obtain ⟨items, rules⟩ := m
  simp only [arena, Arena.manifest, Manifest.mk.injEq]
  constructor
  · ext i : 1 <;> simp
  · ext i : 1 <;> simp

theorem Manifest.arena_ofType (rootType : String) :
    (Manifest.ofType rootType).arena = Arena.ofType rootType := by
  simp [Manifest.arena, Manifest.ofType, Arena.ofType, Manifest.root]

/-- Numbering passes over a change of the contents at one position. -/
theorem mapIdx_modify {Id α : Type} (mk : Nat → Id) (xs : Array α) (i : Nat) (f : α → α) :
    (xs.modify i f).mapIdx (fun j x => Numbered.mk (mk j) x) =
      (xs.mapIdx fun j x => Numbered.mk (mk j) x).modify i
        fun entry => { entry with content := f entry.content } := by
  apply Array.ext_getElem?
  intro j
  simp only [Array.getElem?_mapIdx, Array.getElem?_modify]
  split
  · simp only [Option.map_map]
    rfl
  · rfl

namespace Editing

variable {α β : Type} {m : Manifest}

/-- How steps end in the arena of `m` when the manifest itself comes to a result: in the arena of
the manifest of the result, or where they began. -/
def ending (m : Manifest) :
    Except ManifestError (Manifest × α) → EStateM.Result ManifestError Arena α
  | .ok (m', value) => .ok value m'.arena
  | .error err => .error err m.arena

/-- Steps that begin with a read agree with a manifest that is asked the same. -/
theorem read_bind {query : Manifest → Except ManifestError β} {rest : β → Editing α}
    {rest' : β → Except ManifestError (Manifest × α)}
    (h : ∀ b, (rest b).run m.arena = ending m (rest' b)) :
    (read query >>= rest).run m.arena = ending m (query m >>= rest') := by
  have hread : (read query).run m.arena = match query m with
      | .ok b => .ok b m.arena
      | .error err => .error err m.arena := by
    show (MonadExcept.ofExcept (query m.arena.manifest) : Editing β).run m.arena = _
    rw [Manifest.manifest_arena]
    cases query m <;> rfl
  rw [EStateM.run_bind, hread]
  cases query m with
  | ok b => exact h b
  | error err => rfl

/-- Steps that may refuse at once agree with a manifest that refuses for the same reason. -/
theorem refuse {c : Prop} [Decidable c] {err : ManifestError} {rest : Unit → Editing α}
    {rest' : Unit → Except ManifestError (Manifest × α)}
    (h : (rest ()).run m.arena = ending m (rest' ())) :
    (if c then throw err >>= rest else rest ()).run m.arena =
      ending m (if c then throw err >>= rest' else rest' ()) := by
  split
  · rfl
  · exact h

theorem run_appendItem (item : Item) : (appendItem item).run m.arena =
    .ok ⟨m.items.size⟩ { m with items := m.items.push item : Manifest }.arena := by
  show EStateM.Result.ok (ItemId.mk m.arena.items.size) _ = _
  simp only [Manifest.arena, Array.size_mapIdx, Array.mapIdx_push]

theorem run_appendRule (rule : RuleDecl) : (appendRule rule).run m.arena =
    .ok ⟨m.rules.size⟩ { m with rules := m.rules.push rule : Manifest }.arena := by
  show EStateM.Result.ok (RuleId.mk m.arena.rules.size) _ = _
  simp only [Manifest.arena, Array.size_mapIdx, Array.mapIdx_push]

theorem run_modifyItem (id : ItemId) (f : Item → Item) :
    (modifyItem id f).run m.arena = .ok () (m.modifyItem id f).arena := by
  show EStateM.Result.ok () _ = _
  simp only [Manifest.arena, Manifest.modifyItem, mapIdx_modify]

theorem run_modifyRule (id : RuleId) (f : RuleDecl → RuleDecl) :
    (modifyRule id f).run m.arena =
      .ok () { m with rules := m.rules.modify id.index f : Manifest }.arena := by
  show EStateM.Result.ok () _ = _
  simp only [Manifest.arena, mapIdx_modify]

theorem run_addItem (owner : ItemId) (source : Source) (validatedType : String)
    (attach : ItemId → Item → Item) :
    (addItem owner source validatedType attach).run m.arena =
      ending m (m.addItem owner source validatedType attach) := by
  unfold addItem pushItem Manifest.addItem
  rw [bind_assoc]
  refine read_bind fun ownerItem => ?_
  by_cases hrec : ownerItem.source.isRecursive = true
  · simp only [if_pos hrec]
    rfl
  · simp only [if_neg hrec, EStateM.run_bind, run_appendItem, run_modifyItem, EStateM.run_pure]
    rfl

theorem run_addElement (owner : ItemId) (source : Source) (validatedType : String) :
    (addElement owner source validatedType).run m.arena =
      ending m (m.addElement owner source validatedType) := by
  unfold addElement Manifest.addElement
  refine read_bind fun ownerItem => ?_
  apply refuse
  exact run_addItem owner source _ _

theorem run_addRule (item : ItemId) (ruleType : String) (name : Option String) (config : Fields)
    (dependencies : List RuleRef) :
    (addRule item ruleType name config dependencies).run m.arena =
      ending m (m.addRule item ruleType name config dependencies) := by
  unfold addRule Manifest.addRule
  refine read_bind fun owner => ?_
  apply refuse
  simp only [EStateM.run_bind, EStateM.run_get, Manifest.manifest_arena]
  apply refuse
  simp only [EStateM.run_bind, run_appendRule, run_modifyItem, EStateM.run_pure]
  rfl

theorem run_alterItem (id : ItemId) (f : Item → Item) :
    (alterItem id f).run m.arena = ending m (m.alterItem id f) := by
  unfold alterItem Manifest.alterItem
  refine read_bind fun _ => ?_
  simp only [EStateM.run_bind, run_modifyItem, EStateM.run_pure]
  rfl

theorem run_addDependency (rule : RuleId) (target : RuleRef) :
    (addDependency rule target).run m.arena = ending m (m.addDependency rule target) := by
  have hmodel : m.addDependency rule target =
      (if (m.rule? rule).isSome then .ok () else .error (.unknownRule rule)) >>= fun _ =>
        .ok ({ m with rules := m.rules.modify rule.index fun decl =>
          { decl with dependencies := decl.dependencies ++ [target] } }, .nothing) := by
    unfold Manifest.addDependency
    cases m.rule? rule <;> rfl
  rw [hmodel]
  unfold addDependency
  refine read_bind fun _ => ?_
  simp only [EStateM.run_bind, run_modifyRule, EStateM.run_pure]
  rfl

end Editing

/-- On the arena of a manifest an edit does in place what it does to the manifest. Where it fails it
leaves the arena as it found it. -/
theorem run_inPlace (m : Manifest) (e : Edit) :
    e.inPlace.run m.arena = Editing.ending m (m.apply e) := by
  cases e with
  | addMember parent name validatedType reader => exact Editing.run_addItem ..
  | setElement owner validatedType enumerator => exact Editing.run_addElement ..
  | addVariant owner recognizer => exact Editing.run_addItem ..
  | addRecursiveMember parent name reader levels =>
    simp only [Edit.inPlace, Manifest.apply]
    refine Editing.read_bind fun owner => ?_
    rw [EStateM.run_bind, EStateM.run_get]
    simp only [Manifest.manifest_arena]
    exact Editing.run_addItem ..
  | setRecursiveElement owner enumerator levels =>
    simp only [Edit.inPlace, Manifest.apply]
    refine Editing.read_bind fun ownerItem => ?_
    rw [EStateM.run_bind, EStateM.run_get]
    simp only [Manifest.manifest_arena]
    exact Editing.run_addElement ..
  | setIdentity item identity => exact Editing.run_alterItem ..
  | setFallback item value => exact Editing.run_alterItem ..
  | setPolicy item policy => exact Editing.run_alterItem ..
  | addRule item ruleType name config dependencies => exact Editing.run_addRule ..
  | addDependency rule target => exact Editing.run_addDependency ..

/-- Edits build in place what they build on manifests, and every number is a position. -/
theorem Arena.build_eq (rootType : String) (edits : List Edit) :
    Arena.build rootType edits = (Manifest.build rootType edits).arena := by
  unfold Arena.build Manifest.build
  -- By induction on the edits, from any manifest: the bare root is lost after the first of them.
  rw [← Manifest.arena_ofType]
  generalize Manifest.ofType rootType = m
  induction edits generalizing m with
  | nil => rfl
  | cons e edits ih =>
      have hstep : m.arena.edit e = (m.edit e).arena := by
        simp only [Arena.edit, Manifest.edit, run_inPlace]
        cases m.apply e <;> rfl
      rw [List.foldl_cons, List.foldl_cons, hstep, ih]

/-! ## What items list -/

namespace Item

/-- All items that an item lists. -/
def listed (item : Item) : List ItemId := item.members ++ item.element.toList ++ item.variants

/-- Where an item lists those that come by their values in a certain way. -/
def listFor (item : Item) : Source → List ItemId
  | .root => []
  | .member _ _ _ => item.members
  | .element _ _ => item.element.toList
  | .variant _ => item.variants

theorem mem_listed_of_listFor {item : Item} {s : Source} {c : ItemId} (h : c ∈ item.listFor s) :
    c ∈ item.listed := by
  rw [listed, List.mem_append, List.mem_append]
  cases s with
  | root => cases h
  | member name reader levels => exact .inl (.inl h)
  | element enumerator levels => exact .inl (.inr h)
  | variant recognizer => exact .inr h

end Item

namespace Manifest

variable {m : Manifest}

theorem Linked.mem_listFor {id c : ItemId} {item child : Item} (h : m.Linked id item)
    (hc : m.item? c = some child) (hp : child.parent = some id) (hroot : child.source ≠ .root) :
    c ∈ item.listFor child.source := by
  have hhangs : ∀ kind : Source → Bool, kind child.source = true → m.HangsFrom id kind c :=
    fun kind hk => ⟨child, hc, hp, hk⟩
  cases hs : child.source with
  | root => exact absurd hs hroot
  | member name reader levels => exact (h.mem_members c).mpr (hhangs _ (by rw [hs]; rfl))
  | element enumerator levels =>
      exact Option.mem_toList.mpr ((h.element_eq c).mpr (hhangs _ (by rw [hs]; rfl)))
  | variant recognizer => exact (h.mem_variants c).mpr (hhangs _ (by rw [hs]; rfl))

theorem HangsFrom.exists_source {a b c : ItemId} {kind kind' : Source → Bool}
    (h : m.HangsFrom a kind c) (h' : m.HangsFrom b kind' c) :
    ∃ s : Source, kind s = true ∧ kind' s = true := by
  obtain ⟨child, hi, -, hk⟩ := h
  obtain ⟨child', hi', -, hk'⟩ := h'
  obtain rfl := Option.some.inj (hi.symm.trans hi')
  exact ⟨child.source, hk, hk'⟩

theorem Linked.listed_nodup {id : ItemId} {item : Item} (h : m.Linked id item) :
    item.listed.Nodup := by
  have helement : item.element.toList.Nodup := by
    cases item.element <;> simp
  have hofElement : ∀ {c}, c ∈ item.element.toList → m.HangsFrom id Source.isElement c :=
    fun {c} hc => (h.element_eq c).mp (Option.mem_toList.mp hc)
  refine (h.members_nodup.append helement ?_).append h.variants_nodup ?_
  · intro c hmember hc
    obtain ⟨s, hk, hk'⟩ := ((h.mem_members c).mp hmember).exists_source (hofElement hc)
    cases s <;> simp [Source.isMember, Source.isElement] at hk hk'
  · intro c hc hvariant
    have hof := (h.mem_variants c).mp hvariant
    rcases List.mem_append.mp hc with hmember | hc
    · obtain ⟨s, hk, hk'⟩ := ((h.mem_members c).mp hmember).exists_source hof
      cases s <;> simp [Source.isMember, Source.isVariant] at hk hk'
    · obtain ⟨s, hk, hk'⟩ := (hofElement hc).exists_source hof
      cases s <;> simp [Source.isElement, Source.isVariant] at hk hk'

theorem Sound.mem_listed_iff (hm : m.Sound) {id c : ItemId} {item : Item}
    (hi : m.item? id = some item) : c ∈ item.listed ↔ (m.item? c).bind (·.parent) = some id := by
  have hl := hm.linked hi
  have hparent : ∀ {kind : Source → Bool}, m.HangsFrom id kind c →
      (m.item? c).bind (·.parent) = some id := by
    rintro kind ⟨child, hc, hp, -⟩
    rw [hc]
    exact hp
  constructor
  · intro hlisted
    simp only [Item.listed, List.mem_append, Option.mem_toList] at hlisted
    rcases hlisted with (hc | hc) | hc
    · exact hparent ((hl.mem_members c).mp hc)
    · exact hparent ((hl.element_eq c).mp hc)
    · exact hparent ((hl.mem_variants c).mp hc)
  · intro hbind
    obtain ⟨child, hc, hp⟩ := Option.bind_eq_some_iff.mp hbind
    have hroot : child.source ≠ .root := by
      intro hs
      rw [(hm.parent_none hc).mpr ((hm.source_root hc).mp hs)] at hp
      cases hp
    exact Item.mem_listed_of_listFor (hl.mem_listFor hc hp hroot)

/-- Where items list, each without repetition, exactly what they own, a thing occurs once over all
the lists if it has an owner among the items, and otherwise not at all. -/
theorem count_flatMap {α : Type} [DecidableEq α] {list : Item → List α} {owner? : α → Option ItemId}
    (hnodup : ∀ {id item}, m.item? id = some item → (list item).Nodup)
    (hmem : ∀ {id item}, m.item? id = some item → ∀ x, x ∈ list item ↔ owner? x = some id) (x : α) :
    (m.items.toList.flatMap list).count x = if ((owner? x).bind m.item?).isSome then 1 else 0 := by
  have hat : ∀ {i : Nat} (h : i < m.items.toList.length),
      m.item? ⟨i⟩ = some m.items.toList[i] := by
    intro i h
    simp only [item?, ← Array.getElem?_toList, List.getElem?_eq_getElem h]
  have hall : (m.items.toList.flatMap list).Nodup := by
    refine List.nodup_flatMap.mpr ⟨fun item hin => ?_, List.pairwise_iff_getElem.mpr ?_⟩
    · obtain ⟨i, h, rfl⟩ := List.mem_iff_getElem.mp hin
      exact hnodup (hat h)
    · -- What two items list has different owners.
      intro i j hi hj hij y hyi hyj
      have howner := ((hmem (hat hi) y).mp hyi).symm.trans ((hmem (hat hj) y).mp hyj)
      exact absurd (congrArg ItemId.index (Option.some.inj howner)) (Nat.ne_of_lt hij)
  have hiff : x ∈ m.items.toList.flatMap list ↔ ((owner? x).bind m.item?).isSome = true := by
    rw [List.mem_flatMap, Option.isSome_iff_exists]
    constructor
    · rintro ⟨item, hin, hx⟩
      obtain ⟨i, h, rfl⟩ := List.mem_iff_getElem.mp hin
      exact ⟨_, Option.bind_eq_some_iff.mpr ⟨⟨i⟩, (hmem (hat h) x).mp hx, hat h⟩⟩
    · rintro ⟨item, hbind⟩
      obtain ⟨id, howner, hi⟩ := Option.bind_eq_some_iff.mp hbind
      refine ⟨item, ?_, (hmem hi x).mpr howner⟩
      exact Array.mem_toList_iff.mpr (Array.mem_of_getElem? hi)
  simp only [hall.count, hiff]

theorem Sound.count_listed (hm : m.Sound) (c : ItemId) :
    (m.items.toList.flatMap Item.listed).count c =
      if c ≠ root ∧ c.index < m.items.size then 1 else 0 := by
  rw [count_flatMap (fun hi => (hm.linked hi).listed_nodup) fun hi _ => hm.mem_listed_iff hi]
  congr 1
  rw [eq_iff_iff]
  constructor
  · intro h
    obtain ⟨owner, hbind⟩ := Option.isSome_iff_exists.mp h
    obtain ⟨p, hparent, -⟩ := Option.bind_eq_some_iff.mp hbind
    obtain ⟨child, hc, hp⟩ := Option.bind_eq_some_iff.mp hparent
    refine ⟨fun hroot => ?_, item?_lt hc⟩
    rw [(hm.parent_none hc).mpr hroot] at hp
    cases hp
  · rintro ⟨hroot, hlt⟩
    obtain ⟨child, hc⟩ := exists_item? hlt
    cases hp : child.parent with
    | none => exact absurd ((hm.parent_none hc).mp hp) hroot
    | some p =>
        obtain ⟨-, owner, ho, -⟩ := hm.parent_some hc hp
        simp [hc, hp, ho]

theorem Sound.count_rules (hm : m.Sound) (r : RuleId) :
    (m.items.toList.flatMap Item.rules).count r = if r.index < m.rules.size then 1 else 0 := by
  have howner : ∀ {id item}, m.item? id = some item →
      ∀ s, s ∈ item.rules ↔ (m.rule? s).map (·.item) = some id := by
    intro id item hi s
    rw [(hm.linked hi).mem_rules, Option.map_eq_some_iff]
  rw [count_flatMap (fun hi => (hm.linked hi).rules_nodup) howner]
  congr 1
  rw [eq_iff_iff]
  constructor
  · intro h
    obtain ⟨owner, hbind⟩ := Option.isSome_iff_exists.mp h
    obtain ⟨id, hmap, -⟩ := Option.bind_eq_some_iff.mp hbind
    obtain ⟨rule, hr, -⟩ := Option.map_eq_some_iff.mp hmap
    exact rule?_lt hr
  · intro hlt
    have hr : m.rule? r = some m.rules[r.index] := Array.getElem?_eq_getElem hlt
    obtain ⟨owner, ho, -⟩ := hm.rule_owner hr
    simp [hr, ho]

end Manifest

/-! ## Arenas at any time -/

/-- What is true of an arena between any two edits. The numbers are the positions. The first item is
the only root and the only one without a parent; every other item is listed once over all items, by
an earlier item that is its parent and not recursive, among those of its kind. Every rule is listed
once over all items, by the item that it is declared for, which is not recursive and has the type of
the rule's key; and no two rules of an item have one key. -/
structure Arena.Consistent (a : Arena) : Prop where
  item_id {i : Nat} {entry : Numbered ItemId Item} (h : a.items[i]? = some entry) : entry.id = ⟨i⟩
  size_pos : 0 < a.items.size
  source_root {i : Nat} {entry : Numbered ItemId Item} (h : a.items[i]? = some entry) :
    entry.content.source = .root ↔ i = 0
  parent_none {i : Nat} {entry : Numbered ItemId Item} (h : a.items[i]? = some entry) :
    entry.content.parent = none ↔ i = 0
  parent_some {i : Nat} {entry : Numbered ItemId Item} (h : a.items[i]? = some entry) (hi : i ≠ 0) :
    ∃ p owner, entry.content.parent = some p ∧ p.index < i ∧ a.items[p.index]? = some owner ∧
      owner.content.source.isRecursive = false ∧
      entry.id ∈ owner.content.listFor entry.content.source
  count_listed (c : ItemId) : (a.items.toList.flatMap (·.content.listed)).count c =
    if c ≠ Manifest.root ∧ c.index < a.items.size then 1 else 0
  rule_id {j : Nat} {entry : Numbered RuleId RuleDecl} (h : a.rules[j]? = some entry) :
    entry.id = ⟨j⟩
  rule_owner {j : Nat} {entry : Numbered RuleId RuleDecl} (h : a.rules[j]? = some entry) :
    ∃ owner, a.items[entry.content.item.index]? = some owner ∧
      owner.content.source.isRecursive = false ∧ entry.id ∈ owner.content.rules ∧
      entry.content.key.validatedType = owner.content.validatedType
  count_rules (r : RuleId) : (a.items.toList.flatMap (·.content.rules)).count r =
    if r.index < a.rules.size then 1 else 0
  key_unique {j k : Nat} {entry other : Numbered RuleId RuleDecl}
    (hj : a.rules[j]? = some entry) (hk : a.rules[k]? = some other)
    (hitem : entry.content.item = other.content.item)
    (hkey : entry.content.key = other.content.key) : j = k

namespace Manifest

variable {m : Manifest}

theorem arena_items_eq_some {i : Nat} {entry : Numbered ItemId Item} :
    m.arena.items[i]? = some entry ↔ ∃ item, m.item? ⟨i⟩ = some item ∧ ⟨⟨i⟩, item⟩ = entry := by
  simp only [arena, Array.getElem?_mapIdx, Option.map_eq_some_iff, item?]

theorem arena_rules_eq_some {j : Nat} {entry : Numbered RuleId RuleDecl} :
    m.arena.rules[j]? = some entry ↔ ∃ rule, m.rule? ⟨j⟩ = some rule ∧ ⟨⟨j⟩, rule⟩ = entry := by
  simp only [arena, Array.getElem?_mapIdx, Option.map_eq_some_iff, rule?]

/-- The items of an arena list what the items of its manifest list. -/
theorem arena_flatMap {α : Type} (m : Manifest) (list : Item → List α) :
    m.arena.items.toList.flatMap (fun entry => list entry.content) =
      m.items.toList.flatMap list := by
  have hitems : m.items = m.arena.items.map (·.content) :=
    congrArg Manifest.items m.manifest_arena.symm
  rw [hitems, Array.toList_map, List.flatMap_map]

theorem Sound.consistent (hm : m.Sound) : m.arena.Consistent := by
  have hroot : ∀ i : Nat, (⟨i⟩ : ItemId) = root ↔ i = 0 := fun i => ItemId.eq_iff
  have hitems : m.arena.items.size = m.items.size := Array.size_mapIdx
  have hrules : m.arena.rules.size = m.rules.size := Array.size_mapIdx
  constructor
  case item_id =>
    intro i entry h
    obtain ⟨item, -, rfl⟩ := arena_items_eq_some.mp h
    rfl
  case size_pos =>
    obtain ⟨item, hi⟩ := hm.root_known
    rw [hitems]
    exact item?_lt hi
  case source_root =>
    intro i entry h
    obtain ⟨item, hi, rfl⟩ := arena_items_eq_some.mp h
    rw [← hroot]
    exact hm.source_root hi
  case parent_none =>
    intro i entry h
    obtain ⟨item, hi, rfl⟩ := arena_items_eq_some.mp h
    rw [← hroot]
    exact hm.parent_none hi
  case parent_some =>
    intro i entry h hne
    obtain ⟨item, hi, rfl⟩ := arena_items_eq_some.mp h
    have hparent : item.parent ≠ none := fun hp => hne ((hroot i).mp ((hm.parent_none hi).mp hp))
    have hsource : item.source ≠ .root := fun hs => hne ((hroot i).mp ((hm.source_root hi).mp hs))
    obtain ⟨p, hp⟩ := Option.ne_none_iff_exists'.mp hparent
    obtain ⟨hlt, owner, ho, hrec⟩ := hm.parent_some hi hp
    have howner := arena_items_eq_some.mpr ⟨owner, ho, rfl⟩
    exact ⟨p, ⟨p, owner⟩, hp, hlt, howner, hrec, (hm.linked ho).mem_listFor hi hp hsource⟩
  case count_listed =>
    intro c
    rw [arena_flatMap m Item.listed, hitems]
    exact hm.count_listed c
  case rule_id =>
    intro j entry h
    obtain ⟨rule, -, rfl⟩ := arena_rules_eq_some.mp h
    rfl
  case rule_owner =>
    intro j entry h
    obtain ⟨rule, hr, rfl⟩ := arena_rules_eq_some.mp h
    obtain ⟨owner, ho, hrec, hty⟩ := hm.rule_owner hr
    have howner := arena_items_eq_some.mpr ⟨owner, ho, rfl⟩
    have hmem := ((hm.linked ho).mem_rules ⟨j⟩).mpr ⟨rule, hr, rfl⟩
    exact ⟨⟨rule.item, owner⟩, howner, hrec, hmem, hty⟩
  case count_rules =>
    intro r
    rw [arena_flatMap m Item.rules, hrules]
    exact hm.count_rules r
  case key_unique =>
    intro j k entry other hj hk hitem hkey
    obtain ⟨a, ha, rfl⟩ := arena_rules_eq_some.mp hj
    obtain ⟨b, hb, rfl⟩ := arena_rules_eq_some.mp hk
    exact RuleId.eq_iff.mp (hm.key_unique ha hb hitem hkey)

end Manifest

/-- **Editing in place is safe.** Whatever edits an arena has seen, with whatever numbers and levels
in them and however many of them failed, it is consistent and stores the manifest that the edits
build. One more edit ends as it does on that manifest, and if it fails it leaves the arena as it
was. -/
theorem editing_in_place (rootType : String) (edits : List Edit) :
    (Arena.build rootType edits).Consistent ∧
      (Arena.build rootType edits).manifest = Manifest.build rootType edits ∧
      ∀ e : Edit, match e.inPlace.run (Arena.build rootType edits) with
        | .ok receipt a => (Manifest.build rootType edits).apply e = .ok (a.manifest, receipt)
        | .error err a => (Manifest.build rootType edits).apply e = .error err ∧
            a = Arena.build rootType edits := by
  rw [Arena.build_eq]
  refine ⟨(Manifest.build_sound rootType edits).consistent, Manifest.manifest_arena _, ?_⟩
  intro e
  rw [run_inPlace]
  cases happly : (Manifest.build rootType edits).apply e with
  | ok result =>
      obtain ⟨m, receipt⟩ := result
      simp only [Editing.ending, Manifest.manifest_arena]
  | error err => exact ⟨rfl, rfl⟩

/-- A table of rows, and a rule for something that is not there. -/
def tableEdits : List Edit := [
  .setElement Manifest.root "Row" .standard,
  .addRule ⟨7⟩ "filled" none [] []]

/-- The second kind of row is refused, and the table keeps the first. -/
theorem editing_in_place_table :
    (Edit.setElement Manifest.root "Cell" .standard).inPlace.run
        (Arena.build "Table" tableEdits) =
      .error (.elementAlreadySet Manifest.root) (Arena.build "Table" tableEdits) := by
  have hsafe := (editing_in_place "Table" tableEdits).2.2
    (.setElement Manifest.root "Cell" .standard)
  have hrefused : (Manifest.build "Table" tableEdits).apply
      (.setElement Manifest.root "Cell" .standard) =
        .error (.elementAlreadySet Manifest.root) := rfl
  cases hrun : (Edit.setElement Manifest.root "Cell" .standard).inPlace.run
      (Arena.build "Table" tableEdits) with
  | ok receipt a =>
      rw [hrun, hrefused] at hsafe
      cases hsafe
  | error err a =>
      rw [hrun, hrefused] at hsafe
      obtain ⟨herr, rfl⟩ := hsafe
      cases herr
      rfl

end Vetting
