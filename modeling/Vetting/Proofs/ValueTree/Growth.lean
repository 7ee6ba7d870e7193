import Mathlib.Data.List.Flatten
import Mathlib.Data.List.Nodup
import Vetting.Proofs.Manifest.Position
import Vetting.ValueTree.Unfolding

/-!
# How a branch grows

The items that apply to a value are its definition and, again and again, the variants of an item
that applies which accept the value; no item applies twice (`applied_nodup`), and all of them share
the level of the definition (`anchor_of_mem_applied`). A branch that has grown from a reading
(`Grown`) is taken apart into one group of branches for each slot of an item that applies
(`Grown.children`), and what a slot puts into its group is said by `Fills`.
-/

namespace Vetting

namespace Manifest

variable {m : Manifest}

/-! ## The items that apply -/

theorem mem_variants_iff (hm : m.Sound) {a x : ItemId} :
    x ∈ m.variants a ↔ (∃ item, m.item? a = some item) ∧ m.HangsFrom a Source.isVariant x := by
  unfold variants
  cases ha : m.item? a with
  | none => simp
  | some item => simp [(hm.linked ha).mem_variants x]

theorem mem_slots_iff (hm : m.Sound) {a x : ItemId} :
    x ∈ m.slots a ↔ (∃ item, m.item? a = some item) ∧
      (m.HangsFrom a Source.isMember x ∨ m.HangsFrom a Source.isElement x) := by
  unfold slots
  cases ha : m.item? a with
  | none => simp
  | some item =>
      have hl := hm.linked ha
      simp [Item.slots, hl.mem_members x, ← hl.element_eq x]

theorem recognizes_iff {id : ItemId} {value : Json} :
    m.recognizes id value = true ↔
      ∃ item recognizer, m.item? id = some item ∧ item.source = .variant recognizer ∧
        recognizer.accepts value = true := by
  unfold recognizes
  constructor
  · intro haccepts
    split at haccepts
    · exact ⟨_, _, ‹_›, rfl, haccepts⟩
    · cases haccepts
  · rintro ⟨item, recognizer, hi, hs, haccepts⟩
    cases item
    cases hs
    rw [hi]
    exact haccepts

theorem applied_eq (hm : m.Sound) (value : Json) (id : ItemId) :
    m.applied value id = id :: (m.variants id).flatMap fun variant =>
      if m.recognizes variant value then m.applied value variant else [] := by
  rw [applied]
  congr 1
  refine List.flatMap_congr fun variant hmem => ?_
  obtain ⟨-, item, hi, hp, -⟩ := (mem_variants_iff hm).mp hmem
  rw [if_pos ⟨(hm.parent_some hi hp).1, item?_lt hi⟩]

theorem mem_applied_cases (hm : m.Sound) {value : Json} {id x : ItemId} :
    x ∈ m.applied value id ↔ x = id ∨ ∃ variant ∈ m.variants id,
      m.recognizes variant value = true ∧ x ∈ m.applied value variant := by
  rw [applied_eq hm, List.mem_cons, List.mem_flatMap]
  refine or_congr_right (exists_congr fun variant => and_congr_right fun _ => ?_)
  split <;> simp [*]

theorem mem_applied_self (hm : m.Sound) (value : Json) (id : ItemId) : id ∈ m.applied value id :=
  (mem_applied_cases hm).mpr (.inl rfl)

/-- Variants come after their owner, so a property of every item may be taken from its variants. -/
theorem variants_induction (hm : m.Sound) {P : ItemId → Prop}
    (step : ∀ id, (∀ variant ∈ m.variants id, P variant) → P id) (id : ItemId) : P id := by
  induction hk : m.items.size - id.index using Nat.strongRecOn generalizing id with
  | ind k ih =>
      subst hk
      refine step id fun variant hv => ?_
      obtain ⟨-, item, hi, hp, -⟩ := (mem_variants_iff hm).mp hv
      have hlt := (hm.parent_some hi hp).1
      have hsize := item?_lt hi
      exact ih _ (by omega) variant rfl

/-- What holds of a definition and passes from an item that applies to its variants holds of all
items that apply. -/
theorem applied_induction (hm : m.Sound) {value : Json} {P : ItemId → Prop}
    (step : ∀ a x, x ∈ m.variants a → m.recognizes x value = true → P a → P x) {d x : ItemId}
    (base : P d) (hx : x ∈ m.applied value d) : P x := by
  induction d using variants_induction hm with
  | step d ih =>
      rcases (mem_applied_cases hm).mp hx with rfl | ⟨v, hv, hrec, hx⟩
      · exact base
      · exact ih v hv (step d v hv hrec base) hx

theorem mem_applied_of_variant (hm : m.Sound) {value : Json} {d a x : ItemId}
    (ha : a ∈ m.applied value d) (hx : x ∈ m.variants a) (hrec : m.recognizes x value = true) :
    x ∈ m.applied value d := by
  induction d using variants_induction hm with
  | step d ih =>
      rcases (mem_applied_cases hm).mp ha with rfl | ⟨v, hv, hrecv, ha⟩
      · exact (mem_applied_cases hm).mpr (.inr ⟨x, hx, hrec, mem_applied_self hm value x⟩)
      · exact (mem_applied_cases hm).mpr (.inr ⟨v, hv, hrecv, ih v hv ha⟩)

/-- What applies to a value: its definition, and the variants of what applies that accept it. -/
theorem mem_applied_iff (hm : m.Sound) {value : Json} {d x : ItemId} :
    x ∈ m.applied value d ↔ x = d ∨ ∃ a ∈ m.applied value d,
      x ∈ m.variants a ∧ m.recognizes x value = true := by
  constructor
  · intro hx
    rcases (mem_applied_cases hm).mp hx with rfl | hvariant
    · exact .inl rfl
    · refine .inr ?_
      induction d using variants_induction hm with
      | step d ih =>
          obtain ⟨v, hv, hrec, hx⟩ := hvariant
          rcases (mem_applied_cases hm).mp hx with rfl | hdeeper
          · exact ⟨d, mem_applied_self hm value d, hv, hrec⟩
          · obtain ⟨a, ha, hxa, hrecx⟩ := ih v hv hx hdeeper
            exact ⟨a, (mem_applied_cases hm).mpr (.inr ⟨v, hv, hrec, ha⟩), hxa, hrecx⟩
  · rintro (rfl | ⟨a, ha, hv, hrec⟩)
    · exact mem_applied_self hm value x
    · exact mem_applied_of_variant hm ha hv hrec

theorem le_of_mem_applied (hm : m.Sound) {value : Json} {d x : ItemId}
    (hx : x ∈ m.applied value d) : d.index ≤ x.index := by
  refine applied_induction hm (P := fun x => d.index ≤ x.index) (fun a x hv _ hle => ?_)
    (Nat.le_refl _) hx
  obtain ⟨-, item, hi, hp, -⟩ := (mem_variants_iff hm).mp hv
  exact Nat.le_trans hle (Nat.le_of_lt (hm.parent_some hi hp).1)

theorem known_of_mem_applied (hm : m.Sound) {value : Json} {d x : ItemId}
    (hd : ∃ item, m.item? d = some item) (hx : x ∈ m.applied value d) :
    ∃ item, m.item? x = some item := by
  refine applied_induction hm (P := fun x => ∃ item, m.item? x = some item)
    (fun a x hv _ _ => ?_) hd hx
  obtain ⟨-, item, hi, -, -⟩ := (mem_variants_iff hm).mp hv
  exact ⟨item, hi⟩

/-- All items that apply to a value share the level of its definition. -/
theorem anchor_of_mem_applied (hm : m.Sound) {value : Json} {d x : ItemId} (hd : m.IsPosition d)
    (hx : x ∈ m.applied value d) : m.anchor x = d := by
  refine applied_induction hm (P := fun x => m.anchor x = d) (fun a x hv _ ha => ?_)
    (anchor_of_position hd) hx
  obtain ⟨-, item, hi, hp, hvariant⟩ := (mem_variants_iff hm).mp hv
  rw [anchor_of_variant hm hi hvariant hp, ha]

/-- No item applies below two variants of one owner: the smallest such item would be one of the
two, and the other does not apply that far up. -/
theorem applied_disjoint (hm : m.Sound) {value : Json} {p v w : ItemId} (hv : v ∈ m.variants p)
    (hw : w ∈ m.variants p) (hne : v ≠ w) {x : ItemId} (hxv : x ∈ m.applied value v) :
    x ∉ m.applied value w := by
  induction hk : x.index using Nat.strongRecOn generalizing x with
  | ind k ih =>
      subst hk
      intro hxw
      have hparent : ∀ {u x}, u ∈ m.variants p → u ∈ m.applied value x → x ∈ m.variants p →
          u = x := by
        intro u x hu hux hx
        rcases (mem_applied_iff hm).mp hux with heq | ⟨a, ha, hua, -⟩
        · exact heq
        · obtain rfl :=
            ((mem_variants_iff hm).mp hu).2.owner_unique ((mem_variants_iff hm).mp hua).2
          obtain ⟨-, item, hi, hp, -⟩ := (mem_variants_iff hm).mp hx
          have := (hm.parent_some hi hp).1
          have := le_of_mem_applied hm ha
          omega
      rcases (mem_applied_iff hm).mp hxv with rfl | ⟨a, ha, hxa, -⟩
      · exact hne (hparent hv hxw hw)
      · rcases (mem_applied_iff hm).mp hxw with rfl | ⟨b, hb, hxb, -⟩
        · exact hne (hparent hw hxv hv).symm
        · have ha' := ((mem_variants_iff hm).mp hxa).2
          obtain rfl := ha'.owner_unique ((mem_variants_iff hm).mp hxb).2
          obtain ⟨item, hi, hp, -⟩ := ha'
          exact ih a.index (hm.parent_some hi hp).1 ha rfl hb

theorem variants_nodup (hm : m.Sound) (id : ItemId) : (m.variants id).Nodup := by
  unfold variants
  cases hi : m.item? id with
  | none => exact List.nodup_nil
  | some item => exact (hm.linked hi).variants_nodup

theorem applied_nodup (hm : m.Sound) (value : Json) (d : ItemId) :
    (m.applied value d).Nodup := by
  induction d using variants_induction hm with
  | step d ih =>
      rw [applied_eq hm, List.nodup_cons]
      constructor
      · intro hmem
        obtain ⟨v, hv, hd⟩ := List.mem_flatMap.mp hmem
        obtain ⟨-, item, hi, hp, -⟩ := (mem_variants_iff hm).mp hv
        split at hd
        · have := le_of_mem_applied hm hd
          have := (hm.parent_some hi hp).1
          omega
        · cases hd
      · refine List.nodup_flatMap.mpr ⟨fun v hv => ?_, ?_⟩
        · split
          · exact ih v hv
          · exact List.nodup_nil
        · refine (variants_nodup hm d).imp_of_mem fun {v w} hv hw hne => ?_
          have happlied : ∀ {x u}, x ∈ (if m.recognizes u value then m.applied value u else []) →
              x ∈ m.applied value u := by
            intro x u hx
            split at hx
            · exact hx
            · cases hx
          exact fun x hxv hxw => applied_disjoint hm hv hw hne (happlied hxv) (happlied hxw)

/-! ## Readings -/

/-- What a reading owes to the manifest: whose definition it has, whose identity, and what
applies. -/
structure IsReading (m : Manifest) (r : Reading) : Prop where
  definition : m.definition r.item = .ok r.definition
  identity : ∃ defining, m.item? r.definition = some defining ∧
    r.identity = defining.identityOf r.value
  applied : r.applied = if r.value.isNull then [r.definition] else m.applied r.value r.definition

theorem reading_eq_ok {item : ItemId} {order : Option Nat} {value : Json} {r : Reading} :
    m.reading item order value = .ok r ↔
      m.IsReading r ∧ r.item = item ∧ r.order = order ∧ r.value = value := by
  unfold reading
  rw [Fallible.bind_eq_ok]
  constructor
  · rintro ⟨d, hd, h⟩
    obtain ⟨defining, hdef, h⟩ := Fallible.bind_eq_ok.mp h
    cases h
    exact ⟨⟨hd, ⟨defining, get_eq_ok.mp hdef, rfl⟩, rfl⟩, rfl, rfl, rfl⟩
  · rintro ⟨⟨hd, ⟨defining, hdef, hidentity⟩, happlied⟩, rfl, rfl, rfl⟩
    refine ⟨_, hd, Fallible.bind_eq_ok.mpr ⟨defining, get_eq_ok.mpr hdef, ?_⟩⟩
    rw [← hidentity, ← happlied]

namespace IsReading

variable {r : Reading}

theorem known (h : m.IsReading r) (hm : m.Sound) {a : ItemId} (ha : a ∈ r.applied) :
    ∃ item, m.item? a = some item := by
  obtain ⟨defining, hdef, -⟩ := h.identity
  rw [h.applied] at ha
  split at ha
  · exact ⟨defining, List.mem_singleton.mp ha ▸ hdef⟩
  · exact known_of_mem_applied hm ⟨defining, hdef⟩ ha

theorem nodup (h : m.IsReading r) (hm : m.Sound) : r.applied.Nodup := by
  rw [h.applied]
  split
  · exact List.nodup_singleton _
  · exact applied_nodup hm _ _

theorem anchor_eq (h : m.IsReading r) (hm : m.Sound) (hpos : m.IsPosition r.item) {a : ItemId}
    (ha : a ∈ r.applied) : m.anchor a = r.definition := by
  have hd := definition_position hm hpos h.definition
  rw [h.applied] at ha
  split at ha
  · rw [List.mem_singleton.mp ha]
    exact anchor_of_position hd
  · exact anchor_of_mem_applied hm hd ha

/-- If a variant applies, so does its owner. -/
theorem owner_mem (h : m.IsReading r) (hm : m.Sound) (hpos : m.IsPosition r.item) {a p : ItemId}
    {item : Item} (ha : a ∈ r.applied) (hi : m.item? a = some item)
    (hv : item.source.isVariant = true) (hp : item.parent = some p) : p ∈ r.applied := by
  have hne : a ≠ r.definition := by
    rintro rfl
    obtain ⟨item', hi', hv'⟩ := definition_position hm hpos h.definition
    obtain rfl := Option.some.inj (hi.symm.trans hi')
    rw [hv] at hv'
    cases hv'
  have happlied := h.applied
  split at happlied
  · rw [happlied] at ha
    exact absurd (List.mem_singleton.mp ha) hne
  · rw [happlied] at ha ⊢
    rcases (mem_applied_iff hm).mp ha with heq | ⟨b, hb, hab, -⟩
    · exact absurd heq hne
    · obtain ⟨-, hhangs⟩ := (mem_variants_iff hm).mp hab
      obtain rfl := hhangs.owner_unique ⟨item, hi, hp, hv⟩
      exact hb

end IsReading

/-! ## Slots -/

/-- A slot of an item is a member or an element that belongs to it. -/
theorem slot_kind (hm : m.Sound) {a slot : ItemId} (h : slot ∈ m.slots a) :
    ∃ item, m.item? slot = some item ∧ item.parent = some a ∧
      (item.source.isMember = true ∨ item.source.isElement = true) := by
  obtain ⟨-, ⟨item, hi, hp, hk⟩ | ⟨item, hi, hp, hk⟩⟩ := (mem_slots_iff hm).mp h
  · exact ⟨item, hi, hp, .inl hk⟩
  · exact ⟨item, hi, hp, .inr hk⟩

/-- A slot of an item is a position one level below it. -/
theorem slot_spec (hm : m.Sound) {a slot : ItemId} (h : slot ∈ m.slots a) :
    ∃ item, m.item? slot = some item ∧ item.parent = some a ∧ item.source.isVariant = false := by
  obtain ⟨item, hi, hp, hk⟩ := slot_kind hm h
  refine ⟨item, hi, hp, ?_⟩
  cases hs : item.source <;> simp_all [Source.isMember, Source.isElement, Source.isVariant]

theorem slots_nodup (hm : m.Sound) (a : ItemId) : (m.slots a).Nodup := by
  unfold slots
  cases ha : m.item? a with
  | none => exact List.nodup_nil
  | some item =>
      have hl := hm.linked ha
      refine List.nodup_append.mpr ⟨hl.members_nodup, by cases item.element <;> simp, ?_⟩
      rintro c hc d hd rfl
      obtain ⟨i, hi, -, hk⟩ := (hl.mem_members c).mp hc
      obtain ⟨i', hi', -, hk'⟩ := (hl.element_eq c).mp (Option.mem_toList.mp hd)
      obtain rfl := Option.some.inj (hi.symm.trans hi')
      cases hs : i.source <;> simp_all [Source.isMember, Source.isElement]

/-- No slot belongs to two items that apply. -/
theorem flatMap_slots_nodup (hm : m.Sound) {as : List ItemId} (has : as.Nodup) :
    (as.flatMap m.slots).Nodup := by
  refine List.nodup_flatMap.mpr ⟨fun a _ => slots_nodup hm a, ?_⟩
  refine has.imp fun {a b} hne slot ha hb => ?_
  obtain ⟨item, hi, hp, -⟩ := slot_spec hm ha
  obtain ⟨item', hi', hp', -⟩ := slot_spec hm hb
  obtain rfl := Option.some.inj (hi.symm.trans hi')
  exact hne (Option.some.inj (hp.symm.trans hp'))

/-! ## Growth -/

/-- A branch that has grown from its reading below the readings of a lineage. -/
def Grown (m : Manifest) (policy : FailurePolicy) (lineage : List Reading) (b : Branch) : Prop :=
  ∃ depth, m.grow policy depth lineage b.reading = .ok b

/-- The branches that a slot reads out of a value: readings of all that it offers, in order,
without those that it does not keep, each with what grows from it. -/
structure Fills (m : Manifest) (policy : FailurePolicy) (lineage : List Reading) (value : Json)
    (slot : ItemId) (group : List Branch) : Prop where
  readings : ∃ offered readings, m.offered policy value slot = .ok offered ∧
    List.Forall₂ (fun (offer : Option Nat × Json) below =>
      m.reading slot offer.1 offer.2 = .ok below) offered readings ∧
    group.map Branch.reading = readings.filter (m.keeps lineage slot)
  grown (b : Branch) (hb : b ∈ group) : m.Grown policy lineage b

/-- Each branch of a slot holds a reading of something that the slot offers. -/
theorem Fills.exists_offer {policy : FailurePolicy} {lineage : List Reading} {value : Json}
    {slot : ItemId} {group : List Branch} (h : m.Fills policy lineage value slot group)
    {b : Branch} (hb : b ∈ group) :
    ∃ offered offer, m.offered policy value slot = .ok offered ∧ offer ∈ offered ∧
      m.reading slot offer.1 offer.2 = .ok b.reading := by
  obtain ⟨offered, readings, hoffered, hread, hmap⟩ := h.readings
  have hmem : b.reading ∈ group.map Branch.reading := List.mem_map_of_mem hb
  rw [hmap] at hmem
  obtain ⟨offer, hoffer, hreading⟩ := exists_left_of_forall₂ hread (List.mem_of_mem_filter hmem)
  exact ⟨offered, offer, hoffered, hoffer, hreading⟩

theorem Fills.item {policy : FailurePolicy} {lineage : List Reading} {value : Json}
    {slot : ItemId} {group : List Branch} (h : m.Fills policy lineage value slot group)
    {b : Branch} (hb : b ∈ group) : m.IsReading b.reading ∧ b.reading.item = slot := by
  obtain ⟨_, _, -, -, hreading⟩ := h.exists_offer hb
  obtain ⟨hreading, hitem, -, -⟩ := reading_eq_ok.mp hreading
  exact ⟨hreading, hitem⟩

theorem sprout_eq_ok {expand : Reading → Except SetupError Branch} {lineage : List Reading}
    {slot : ItemId} {offer : Option Nat × Json} {result : Option Branch} :
    m.sprout expand lineage slot offer = .ok result ↔
      ∃ below, m.reading slot offer.1 offer.2 = .ok below ∧
        if m.keeps lineage slot below then ∃ b, expand below = .ok b ∧ result = some b
        else result = none := by
  unfold sprout
  rw [Fallible.bind_eq_ok]
  simp only [SetupError.ofManifest_eq_ok]
  refine exists_congr fun below => and_congr_right fun _ => ?_
  split
  · rw [Fallible.map_eq_ok]
    simp only [eq_comm]
  · simp [eq_comm]

/-- A branch keeps the reading that it grows from. -/
theorem reading_of_grow {policy : FailurePolicy} {depth : Nat} {lineage : List Reading}
    {r : Reading} {b : Branch} (h : m.grow policy depth lineage r = .ok b) : b.reading = r := by
  cases depth with
  | zero => cases h
  | succ depth =>
      rw [grow] at h
      split at h
      · cases h
        rfl
      · obtain ⟨groups, -, h⟩ := Fallible.bind_eq_ok.mp h
        cases h
        rfl

theorem grown_of_grow {policy : FailurePolicy} {depth : Nat} {lineage : List Reading}
    {r : Reading} {b : Branch} (h : m.grow policy depth lineage r = .ok b) :
    m.Grown policy lineage b :=
  ⟨depth, (reading_of_grow h).symm ▸ h⟩

/-- Along what a slot offers, each reading that is kept has put the branch that grows from it. -/
theorem readings_of_sprouted {policy : FailurePolicy} {depth : Nat} {lineage : List Reading}
    {slot : ItemId} {offered : List (Option Nat × Json)} {sprouted : List (Option Branch)}
    (h : List.Forall₂ (fun offer result =>
      m.sprout (m.grow policy depth lineage) lineage slot offer = .ok result) offered sprouted) :
    ∃ readings, List.Forall₂ (fun (offer : Option Nat × Json) below =>
        m.reading slot offer.1 offer.2 = .ok below) offered readings ∧
      (sprouted.filterMap id).map Branch.reading = readings.filter (m.keeps lineage slot) ∧
      ∀ b ∈ sprouted.filterMap id, m.Grown policy lineage b := by
  induction h with
  | nil => exact ⟨[], .nil, rfl, nofun⟩
  | @cons offer result offered sprouted hfirst hrest ih =>
      obtain ⟨readings, hread, hmap, hgrown⟩ := ih
      obtain ⟨below, hbelow, hresult⟩ := sprout_eq_ok.mp hfirst
      refine ⟨below :: readings, .cons hbelow hread, ?_⟩
      cases hkeep : m.keeps lineage slot below with
      | true =>
          obtain ⟨b, hb, rfl⟩ := (if_pos hkeep) ▸ hresult
          rw [show (some b :: sprouted).filterMap id = b :: sprouted.filterMap id from rfl,
            List.map_cons, hmap, reading_of_grow hb, List.filter_cons_of_pos hkeep]
          exact ⟨rfl, List.forall_mem_cons.mpr ⟨grown_of_grow hb, hgrown⟩⟩
      | false =>
          rw [hkeep, if_neg Bool.false_ne_true] at hresult
          subst hresult
          rw [show (none :: sprouted).filterMap id = sprouted.filterMap id from rfl, hmap,
            List.filter_cons_of_neg (by rw [hkeep]; exact Bool.false_ne_true)]
          exact ⟨rfl, hgrown⟩

theorem fills_of_fill {policy : FailurePolicy} {depth : Nat} {lineage : List Reading}
    {value : Json} {slot : ItemId} {group : List Branch}
    (h : m.fill policy (m.grow policy depth lineage) lineage value slot = .ok group) :
    m.Fills policy lineage value slot group := by
  obtain ⟨offered, hoffered, h⟩ := Fallible.bind_eq_ok.mp h
  obtain ⟨sprouted, hsprouted, h⟩ := Fallible.bind_eq_ok.mp h
  cases h
  obtain ⟨readings, hread, hmap, hgrown⟩ := readings_of_sprouted (Fallible.mapM_eq_ok.mp hsprouted)
  exact ⟨⟨offered, readings, hoffered, hread, hmap⟩, hgrown⟩

/-- A grown branch has no children if its value is null, and otherwise one group of children for
each slot of an item that applies. -/
theorem Grown.children {policy : FailurePolicy} {ancestors : List Reading} {b : Branch}
    (h : m.Grown policy ancestors b) :
    if b.reading.value.isNull then b.children = []
    else ∃ groups, List.Forall₂ (m.Fills policy (b.reading :: ancestors) b.reading.value)
      (b.reading.applied.flatMap m.slots) groups ∧ b.children = groups.flatten := by
  obtain ⟨depth, h⟩ := h
  cases depth with
  | zero => cases h
  | succ depth =>
      rw [grow] at h
      split at h
      · rw [if_pos ‹_›, ← Except.ok.inj h]
        rfl
      · obtain ⟨groups, hgroups, h⟩ := Fallible.bind_eq_ok.mp h
        have hchildren : b.children = groups.flatten := by
          rw [← Except.ok.inj h]
          rfl
        rw [if_neg ‹_›]
        exact ⟨groups, (Fallible.mapM_eq_ok.mp hgroups).imp fun _ _ => fills_of_fill, hchildren⟩

/-- A child of a grown branch is among the branches of a slot that applies to a value that is not
null. -/
theorem Grown.child_fills {policy : FailurePolicy} {ancestors : List Reading} {b c : Branch}
    (h : m.Grown policy ancestors b) (hc : c ∈ b.children) :
    b.reading.value.isNull = false ∧ ∃ slot ∈ b.reading.applied.flatMap m.slots,
      ∃ group, c ∈ group ∧ m.Fills policy (b.reading :: ancestors) b.reading.value slot group := by
  have hchildren := h.children
  split at hchildren
  · rw [hchildren] at hc
    cases hc
  · obtain ⟨groups, hgroups, hflat⟩ := hchildren
    rw [hflat] at hc
    obtain ⟨group, hgroup, hc⟩ := List.mem_flatten.mp hc
    obtain ⟨slot, hslot, hfills⟩ := exists_left_of_forall₂ hgroups hgroup
    exact ⟨Bool.eq_false_iff.mpr ‹_›, slot, hslot, group, hc, hfills⟩

/-- Every child of a grown branch has grown in turn, from a reading of a slot that applies. -/
theorem Grown.child {policy : FailurePolicy} {ancestors : List Reading} {b c : Branch}
    (h : m.Grown policy ancestors b) (hc : c ∈ b.children) :
    m.Grown policy (b.reading :: ancestors) c ∧ m.IsReading c.reading ∧
      c.reading.item ∈ b.reading.applied.flatMap m.slots := by
  obtain ⟨-, slot, hslot, group, hc, hfills⟩ := h.child_fills hc
  obtain ⟨hreading, hitem⟩ := hfills.item hc
  exact ⟨hfills.grown c hc, hreading, hitem ▸ hslot⟩

end Manifest

end Vetting
