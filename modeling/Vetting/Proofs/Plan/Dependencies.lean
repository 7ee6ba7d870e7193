import Vetting.Proofs.Manifest.WellFormed
import Vetting.Proofs.Plan.Check
import Vetting.Rule.Catalogue

/-!
# Dependencies are resolved exactly

A reference of a check only says how many levels to go up and which way down. It means the right
values all the same (`Manifest.Meant`): the value that the way up leads to has the meeting point of
the two rules as its definition, and nothing on either way was read through a recursive item. The
headline is `resolve_exact`.

The way up is settled by `Materialized.readDown_of_climb?`, and the way down by
`Materialized.mem_descend_iff`, an induction along the owners.
-/

namespace Vetting

/-! ## Ascending lists -/

theorem mem_insertAscending {n k : Nat} {ns : List Nat} :
    k ∈ insertAscending n ns ↔ k = n ∨ k ∈ ns := by
  induction ns with
  | nil => simp [insertAscending]
  | cons n' ns ih =>
      simp only [insertAscending]
      split
      · exact List.mem_cons
      · split
        · subst n'
          simp
        · rw [List.mem_cons, ih, List.mem_cons, or_left_comm]

theorem mem_ascending {k : Nat} {ns : List Nat} : k ∈ ascending ns ↔ k ∈ ns := by
  induction ns with
  | nil => exact Iff.rfl
  | cons n ns ih =>
      rw [show ascending (n :: ns) = insertAscending n (ascending ns) from rfl,
        mem_insertAscending, ih, List.mem_cons]

namespace Manifest

/-! ## What a reference means -/

/-- What a rule of item `a`, applied to value `v`, means by a reference to a rule of item `b`: a
value `u` to which `b` applies and which is read on the way down from the meeting point of the two
items, just as `v` is, below one value `w` of that definition. No item on either way is
recursive. -/
structure Meant (m : Manifest) (t : ValueTree) (a : ItemId) (v : ValueId) (b : ItemId)
    (u : ValueId) : Prop where
  around : ∃ common pathA pathB w node, m.meet? a b = some common ∧
    m.path? common a = some pathA ∧ m.path? common b = some pathB ∧
    t.node? w = some node ∧ node.definition = common ∧
    t.ReadDown w (pathA.filter (!m.isVariant ·)) v ∧
    t.ReadDown w (pathB.filter (!m.isVariant ·)) u ∧
    ∀ x ∈ pathA ++ pathB, m.isRecursive x = false
  applies : t.applies b u = true

/-- Reference `ref` of check `r` finds check `s`. -/
structure Refers (m : Manifest) (t : ValueTree) (r : Check) (ref : RuleRef) (s : Check) : Prop where
  names : m.findRule? ref = some s.rule
  meant : ∃ rule target, m.rule? r.rule = some rule ∧ m.rule? s.rule = some target ∧
    m.Meant t rule.item r.value target.item s.value

/-- The rule of check `r` has the reference `ref`. -/
def HasReference (m : Manifest) (r : Check) (ref : RuleRef) : Prop :=
  ∃ rule, m.rule? r.rule = some rule ∧ ref ∈ rule.dependencies

variable {m : Manifest}

/-! ## The way down -/

theorem descend_append {t : ValueTree} {w : ValueId} {path : List ItemId} {item : ItemId} :
    m.descend t w (path ++ [item]) = m.stepDown t (m.descend t w path) item := by
  rw [descend, List.foldl_append]
  rfl

theorem mem_stepDown_variant {t : ValueTree} {values : List ValueId} {u : ValueId} {id : ItemId}
    {item : Item} (hi : m.item? id = some item) (hv : item.source.isVariant = true) :
    u ∈ m.stepDown t values id ↔ u ∈ values ∧ t.applies id u = true := by
  rw [stepDown, isVariant_of_item? hi, if_pos hv, List.mem_filter]

theorem mem_stepDown_position {t : ValueTree} {values : List ValueId} {u : ValueId} {id : ItemId}
    {item : Item} (hi : m.item? id = some item) (hv : item.source.isVariant = false) :
    u ∈ m.stepDown t values id ↔
      ∃ p ∈ values, u ∈ t.children p ∧ t.readThrough id u = true := by
  rw [stepDown, isVariant_of_item? hi, hv, if_neg Bool.false_ne_true, List.mem_flatMap]
  simp only [List.mem_filter]

end Manifest

namespace Materialized

variable {m : Manifest} {policy : FailurePolicy} {document : Json} {t : ValueTree} {top : Branch}

theorem readDown_of_mem_descend (h : Materialized m policy document t top) {c b : ItemId}
    {path : List ItemId} {w u : ValueId} (hpath : m.Owners c path b) (hu : u ∈ m.descend t w path) :
    t.ReadDown w (path.filter (!m.isVariant ·)) u := by
  induction hpath generalizing u with
  | here =>
      rw [List.mem_singleton.mp hu]
      exact .here
  | @down path p id item _ hi _ ih =>
      rw [Manifest.descend_append] at hu
      cases hv : item.source.isVariant with
      | true =>
          rw [Manifest.Owners.filter_variant hi hv]
          exact ih ((Manifest.mem_stepDown_variant hi hv).mp hu).1
      | false =>
          rw [Manifest.Owners.filter_position hi hv]
          obtain ⟨q, hq, hchild, hthrough⟩ := (Manifest.mem_stepDown_position hi hv).mp hu
          exact (ih hq).down (h.mem_children_iff.mp hchild) hthrough

/-- Where an item applies, so do its owners, each to the value read there. -/
theorem mem_descend_of_readDown (h : Materialized m policy document t top) (hm : m.Sound)
    {c b : ItemId} {path : List ItemId} {w u : ValueId} {node : ValueNode}
    (hpath : m.Owners c path b) (hu : t.node? u = some node) (hb : b ∈ node.applied)
    (hread : t.ReadDown w (path.filter (!m.isVariant ·)) u) : u ∈ m.descend t w path := by
  induction hpath generalizing u node with
  | here =>
      rw [hread.eq_of_nil]
      exact List.mem_singleton_self w
  | @down path p id item _ hi hp ih =>
      rw [Manifest.descend_append]
      cases hv : item.source.isVariant with
      | true =>
          rw [Manifest.Owners.filter_variant hi hv] at hread
          have howner := h.owner_of_applied hm hu hb hi hv hp
          refine (Manifest.mem_stepDown_variant hi hv).mpr ⟨ih hu howner hread, ?_⟩
          exact ValueTree.applies_iff.mpr ⟨node, hu, hb⟩
      | false =>
          rw [Manifest.Owners.filter_position hi hv] at hread
          obtain ⟨q, hread, hq, hthrough⟩ := hread.of_append
          obtain ⟨node', hu', hnq⟩ := ValueTree.parent?_eq_some.mp hq
          obtain rfl := Option.some.inj (hu.symm.trans hu')
          obtain ⟨node', hu', hitem⟩ := ValueTree.readThrough_iff.mp hthrough
          obtain rfl := Option.some.inj (hu.symm.trans hu')
          obtain ⟨above, item', a, ha, -, hi', hparent, happlied, -⟩ :=
            (h.unfoldedAt hm hu).parent hnq
          obtain rfl := Option.some.inj (hi.symm.trans (hitem ▸ hi'))
          obtain rfl := Option.some.inj (hp.symm.trans hparent)
          exact (Manifest.mem_stepDown_position hi hv).mpr
            ⟨q, ih ha happlied hread, h.mem_children_iff.mpr hq, hthrough⟩

/-- The way down along a path keeps the values that were read through its items that are no
variants, as far as the last item applies. -/
theorem mem_descend_iff (h : Materialized m policy document t top) (hm : m.Sound) {c b : ItemId}
    {path : List ItemId} {w u : ValueId} (hpath : m.Owners c path b)
    (hb : t.applies b u = true) :
    u ∈ m.descend t w path ↔ t.ReadDown w (path.filter (!m.isVariant ·)) u := by
  obtain ⟨node, hu, hb⟩ := ValueTree.applies_iff.mp hb
  exact ⟨h.readDown_of_mem_descend hpath, h.mem_descend_of_readDown hm hpath hu hb⟩

end Materialized

namespace Manifest

variable {m : Manifest} {registry : RuleRegistry} {policy : FailurePolicy} {document : Json}
  {t : ValueTree} {top : Branch}

/-! ## What is found -/

/-- An item that can own others has no recursive item among its owners. -/
theorem Owners.not_recursive (hm : m.Sound) {c id : ItemId} {path : List ItemId} {item : Item}
    (h : m.Owners c path id) (hi : m.item? id = some item)
    (hrec : item.source.isRecursive = false) : ∀ x ∈ path, m.isRecursive x = false := by
  induction h generalizing item with
  | here => simp
  | down h hi' hp ih =>
      obtain ⟨-, owner, ho, howner⟩ := hm.parent_some hi' hp
      intro x hx
      rcases List.mem_append.mp hx with hx | hx
      · exact ih ho howner x hx
      · obtain rfl := List.mem_singleton.mp hx
        rw [isRecursive_of_item? hi, hrec]

/-- The way from a rule to the item of another: it leads up to a value, and down from there to
the values that a reference means. -/
theorem exists_meant (h : Materialized m policy document t top) (hm : m.Sound) {check : Check}
    {rule : RuleDecl} {target owner : Item} {ref : RuleRef} {node : ValueNode}
    (hrule : m.item? rule.item = some owner) (howner : owner.source.isRecursive = false)
    (hv : t.node? check.value = some node) (happlied : rule.item ∈ node.applied)
    (hb : m.item? ref.item = some target) (htarget : target.source.isRecursive = false) :
    ∃ values, m.meant t check rule ref = .ok values ∧
      ∀ u, t.applies ref.item u = true →
        (u ∈ values ↔ m.Meant t rule.item check.value ref.item u) := by
  obtain ⟨common, hmeet, hcommon, ⟨j, hj⟩, k, hk⟩ := exists_meet? hm hrule hb
  obtain ⟨pathA, hpathA⟩ := exists_path? hm hrule hj
  obtain ⟨pathB, hpathB⟩ := exists_path? hm hb hk
  have hownersA := path?_owners hpathA
  have hownersB := path?_owners hpathB
  have hdownA := hownersA.leadsDown hm hcommon
  have hdownB := hownersB.leadsDown hm hcommon
  have hanchor := h.anchor_of_applied hm hv happlied
  rw [hanchor] at hdownA
  have hdepth : m.depth rule.item = m.depth common + (pathA.filter (!m.isVariant ·)).length := by
    rw [← depth_anchor hm hrule, hanchor]
    exact hdownA.depth hm
  obtain ⟨w, start, hclimb, hw⟩ := h.exists_climb? hm
    (n := (pathA.filter (!m.isVariant ·)).length) hv (by rw [hdownA.depth hm]; omega)
  have hroute : m.route rule ref.item = .ok ((pathA.filter (!m.isVariant ·)).length, pathB) := by
    simp only [route, hmeet, hpathB, hdepth, Nat.add_sub_cancel_left]
  refine ⟨m.descend t w pathB, ?_, fun u hu => ?_⟩
  · rw [meant, hroute]
    simp [SetupError.ofManifest, Except.mapError, bind, Except.bind, hclimb]
  · rw [h.mem_descend_iff hm hownersB hu]
    obtain ⟨nodeU, hnodeU, happliedU⟩ := ValueTree.applies_iff.mp hu
    rw [h.anchor_of_applied hm hnodeU happliedU] at hdownB
    constructor
    · intro hread
      obtain ⟨start', hw', hdef⟩ := h.definition_of_readDown hm hnodeU hread hdownB rfl
      have hup := h.readDown_of_climb? hm hv hw' hdef hdownA hclimb
      refine ⟨⟨common, pathA, pathB, w, start', hmeet, hpathA, hpathB, hw', hdef, hup, hread, ?_⟩,
        hu⟩
      intro x hx
      rcases List.mem_append.mp hx with hx | hx
      · exact hownersA.not_recursive hm hrule howner x hx
      · exact hownersB.not_recursive hm hb htarget x hx
    · rintro ⟨⟨common', pathA', pathB', w', start', hmeet', hpathA', hpathB', hw', hdef, hup, hread,
        -⟩, -⟩
      obtain rfl := Option.some.inj (hmeet.symm.trans hmeet')
      obtain rfl := Option.some.inj (hpathA.symm.trans hpathA')
      obtain rfl := Option.some.inj (hpathB.symm.trans hpathB')
      obtain rfl := Option.some.inj (hclimb.symm.trans hup.climb?)
      exact hread

/-- What the check of a tree and the references of its rule have to do with the manifest. -/
theorem rule_of_check (hm : m.Sound)
    {cs : List Check} (hcs : m.checks registry t = .ok cs) {c : Check} (hc : c ∈ cs) :
    ∃ rule owner node, m.rule? c.rule = some rule ∧ m.item? rule.item = some owner ∧
      owner.source.isRecursive = false ∧ t.node? c.value = some node ∧
      rule.item ∈ node.applied := by
  have hpair : (c.rule, c.value) ∈ m.pairs t := by
    rw [← (checks_pairs hcs).1]
    exact List.mem_map_of_mem hc
  obtain ⟨node, a, hv, ha, hr⟩ := mem_pairs.mp hpair
  obtain ⟨rule, hrule, rfl⟩ := (mem_rulesOf_iff hm).mp hr
  obtain ⟨owner, ho, hrec, -⟩ := hm.rule_owner hrule
  exact ⟨rule, owner, node, hrule, ho, hrec, hv, ha⟩

/-- The numbers that a reference of a check finds are those of the checks that it means. -/
theorem exists_prerequisites (h : Materialized m policy document t top) (hm : m.Sound)
    {cs : List Check} (hcs : m.checks registry t = .ok cs) {r : Check} (hr : r ∈ cs)
    {rule : RuleDecl} (hrule : m.rule? r.rule = some rule) {ref : RuleRef} {name : RuleId}
    (href : m.findRule? ref = some name) :
    ∃ found, m.prerequisites t cs r rule ref = .ok found ∧
      ∀ j, j ∈ found ↔ ∃ s, cs[j]? = some s ∧ m.Refers t r ref s := by
  obtain ⟨rule', owner, node, hrule', ho, howner, hv, happlied⟩ := rule_of_check hm hcs hr
  obtain rfl := Option.some.inj (hrule.symm.trans hrule')
  obtain ⟨item, target, hitem, hlisted, htarget, -⟩ := findRule?_eq_some href
  obtain ⟨target', htarget', heq⟩ := ((hm.linked hitem).mem_rules name).mp hlisted
  obtain rfl := Option.some.inj (htarget.symm.trans htarget')
  obtain ⟨owner', ho', hrec, -⟩ := hm.rule_owner htarget
  obtain rfl := Option.some.inj (hitem.symm.trans (heq ▸ ho'))
  obtain ⟨values, hvalues, hmem⟩ := exists_meant h hm ho howner hv happlied hitem hrec
  refine ⟨values.filterMap (Check.find? cs name), ?_, fun j => ?_⟩
  · rw [prerequisites, Manifest.target, href]
    simp [SetupError.ofManifest, Except.mapError, bind, Except.bind, hvalues]
  · have hnodup : (cs.map fun c => (c.rule, c.value)).Nodup := by
      rw [(checks_pairs hcs).1]
      exact pairs_nodup hm h
    simp only [List.mem_filterMap, Check.find?_eq_some hnodup]
    constructor
    · rintro ⟨u, hu, s, hs, rfl, rfl⟩
      obtain ⟨target', _, _, htarget', -, -, hnode, happ⟩ :=
        rule_of_check hm hcs (List.mem_of_getElem? hs)
      obtain rfl := Option.some.inj (htarget.symm.trans htarget')
      have hmeant := (hmem s.value
        (ValueTree.applies_iff.mpr ⟨_, hnode, heq ▸ happ⟩)).mp hu
      exact ⟨s, hs, href, rule, target, hrule, htarget, heq ▸ hmeant⟩
    · rintro ⟨s, hs, hnames, rule₂, target₂, hrule₂, htarget₂, hmeant⟩
      obtain rfl := Option.some.inj (href.symm.trans hnames)
      obtain rfl := Option.some.inj (hrule.symm.trans hrule₂)
      obtain rfl := Option.some.inj (htarget.symm.trans htarget₂)
      rw [heq] at hmeant
      exact ⟨s.value, (hmem s.value hmeant.applies).mpr hmeant, s, hs, rfl, rfl⟩

/-- What resolving makes of a check: what it depends on, and whether some reference finds nothing;
all else stays. -/
structure Resolves (m : Manifest) (t : ValueTree) (cs : List Check) (c r : Check) : Prop where
  same : r = { c with dependencies := r.dependencies, unsatisfiable := r.unsatisfiable }
  mem_dependencies (j : Nat) : j ∈ r.dependencies ↔
    j ∈ c.dependencies ∨ ∃ s ref, cs[j]? = some s ∧ m.HasReference c ref ∧ m.Refers t c ref s
  unsatisfiable : r.unsatisfiable = true ↔
    c.unsatisfiable = true ∨ ∃ ref, m.HasReference c ref ∧ ∀ s ∈ cs, ¬ m.Refers t c ref s

theorem exists_resolveCheck (h : Materialized m policy document t top) (hm : m.Sound)
    (hvalid : m.validate = .ok ()) {cs : List Check} (hcs : m.checks registry t = .ok cs)
    {c : Check} (hc : c ∈ cs) :
    ∃ r, m.resolveCheck t cs c = .ok r ∧ m.Resolves t cs c r := by
  obtain ⟨rule, _, _, hrule, -⟩ := rule_of_check hm hcs hc
  have hdecl : ∀ {ref}, m.HasReference c ref ↔ ref ∈ rule.dependencies := by
    intro ref
    simp [HasReference, hrule]
  obtain ⟨found, hfound, hall⟩ := Fallible.exists_mapM_eq_ok fun ref href => by
    obtain ⟨name, hname⟩ := (validate_eq_ok.mp hvalid).2 c.rule rule hrule ref href
    exact exists_prerequisites h hm hcs hc hrule hname
  refine ⟨{ c with
    dependencies := ascending (c.dependencies ++ found.flatten)
    unsatisfiable := c.unsatisfiable || found.any List.isEmpty }, ?_, rfl, fun j => ?_, ?_⟩
  · rw [resolveCheck, getRule_eq_ok.mpr hrule]
    simp only [SetupError.ofManifest, Except.mapError, bind, Except.bind, hfound]
  · rw [mem_ascending, List.mem_append]
    refine or_congr_right ⟨fun hj => ?_, ?_⟩
    · obtain ⟨nums, hnums, hj⟩ := List.mem_flatten.mp hj
      obtain ⟨ref, href, hfinds⟩ := exists_left_of_forall₂ hall hnums
      obtain ⟨s, hs, hrefers⟩ := (hfinds j).mp hj
      exact ⟨s, ref, hs, hdecl.mpr href, hrefers⟩
    · rintro ⟨s, ref, hs, href, hrefers⟩
      obtain ⟨nums, hnums, hfinds⟩ := exists_right_of_forall₂ hall (hdecl.mp href)
      exact List.mem_flatten.mpr ⟨nums, hnums, (hfinds j).mpr ⟨s, hs, hrefers⟩⟩
  · rw [Bool.or_eq_true, List.any_eq_true]
    refine or_congr_right ⟨?_, ?_⟩
    · rintro ⟨nums, hnums, hempty⟩
      obtain ⟨ref, href, hfinds⟩ := exists_left_of_forall₂ hall hnums
      refine ⟨ref, hdecl.mpr href, fun s hs hrefers => ?_⟩
      obtain ⟨j, hj⟩ := List.mem_iff_getElem?.mp hs
      have := (hfinds j).mpr ⟨s, hj, hrefers⟩
      rw [List.isEmpty_iff.mp hempty] at this
      cases this
    · rintro ⟨ref, href, hnone⟩
      obtain ⟨nums, hnums, hfinds⟩ := exists_right_of_forall₂ hall (hdecl.mp href)
      refine ⟨nums, hnums, List.isEmpty_iff.mpr (List.eq_nil_iff_forall_not_mem.mpr ?_)⟩
      intro j hj
      obtain ⟨s, hs, hrefers⟩ := (hfinds j).mp hj
      exact hnone s (List.mem_of_getElem? hs) hrefers

/-- Resolving the checks of a tree always succeeds if the manifest is valid. -/
theorem exists_resolve (h : Materialized m policy document t top) (hm : m.Sound)
    (hvalid : m.validate = .ok ()) {cs : List Check} (hcs : m.checks registry t = .ok cs) :
    ∃ rs, m.resolve t cs = .ok rs ∧ List.Forall₂ (m.Resolves t cs) cs rs :=
  Fallible.exists_mapM_eq_ok fun _ hc => exists_resolveCheck h hm hvalid hcs hc

theorem Resolves.refers_iff {cs : List Check} {c r s s' : Check} (hr : m.Resolves t cs c r)
    (hs : m.Resolves t cs s s') (ref : RuleRef) : m.Refers t r ref s' ↔ m.Refers t c ref s := by
  rw [hr.same, hs.same]
  exact ⟨fun h => ⟨h.names, h.meant⟩, fun h => ⟨h.names, h.meant⟩⟩

theorem Resolves.hasReference_iff {cs : List Check} {c r : Check} (hr : m.Resolves t cs c r)
    (ref : RuleRef) : m.HasReference r ref ↔ m.HasReference c ref := by
  rw [hr.same]
  exact Iff.rfl

/-- The dependencies of the checks `rs`, made of the checks `cs`, are exactly what the references
of their rules mean. -/
structure ResolvedExactly (m : Manifest) (t : ValueTree) (cs rs : List Check) : Prop where
  same : List.Forall₂ (fun c r =>
    r = { c with dependencies := r.dependencies, unsatisfiable := r.unsatisfiable }) cs rs
  lt_length {r : Check} (hr : r ∈ rs) {j : Nat} (hj : j ∈ r.dependencies) : j < rs.length
  mem_dependencies {r s : Check} {j : Nat} (hr : r ∈ rs) (hs : rs[j]? = some s) :
    j ∈ r.dependencies ↔ ∃ ref, m.HasReference r ref ∧ m.Refers t r ref s
  unsatisfiable {r : Check} (hr : r ∈ rs) :
    r.unsatisfiable = true ↔ ∃ ref, m.HasReference r ref ∧ ∀ s ∈ rs, ¬ m.Refers t r ref s

theorem resolvedExactly {cs rs : List Check} (hcs : m.checks registry t = .ok cs)
    (hall : List.Forall₂ (m.Resolves t cs) cs rs) : m.ResolvedExactly t cs rs := by
  have hlen := hall.length_eq
  have hget : ∀ {j : Nat} {s : Check}, rs[j]? = some s →
      ∃ c, cs[j]? = some c ∧ m.Resolves t cs c s := by
    intro j s hs
    obtain ⟨hj, rfl⟩ := List.getElem?_eq_some_iff.mp hs
    exact ⟨cs[j], List.getElem?_eq_getElem (hlen ▸ hj), List.Forall₂.get hall (hlen ▸ hj) hj⟩
  have hfresh : ∀ c ∈ cs, c.dependencies = [] ∧ c.unsatisfiable = false := fun c hc =>
    ⟨((checks_pairs hcs).2 c hc).dependencies, ((checks_pairs hcs).2 c hc).satisfiable⟩
  refine ⟨hall.imp fun c r h => h.same, fun {r} hr {j} hj => ?_, fun {r s j} hr hs => ?_,
    fun {r} hr => ?_⟩
  · obtain ⟨c, hc, hresolves⟩ := exists_left_of_forall₂ hall hr
    rcases (hresolves.mem_dependencies j).mp hj with hold | ⟨s, -, hs, -⟩
    · rw [(hfresh c hc).1] at hold
      cases hold
    · exact hlen ▸ (List.getElem?_eq_some_iff.mp hs).1
  · obtain ⟨c, hc, hresolves⟩ := exists_left_of_forall₂ hall hr
    obtain ⟨s₀, hs₀, hsame⟩ := hget hs
    rw [hresolves.mem_dependencies, (hfresh c hc).1]
    simp only [List.not_mem_nil, false_or, hresolves.hasReference_iff, hresolves.refers_iff hsame]
    constructor
    · rintro ⟨s₁, ref, hs₁, hrefers⟩
      obtain rfl := Option.some.inj (hs₀.symm.trans hs₁)
      exact ⟨ref, hrefers⟩
    · rintro ⟨ref, hrefers⟩
      exact ⟨s₀, ref, hs₀, hrefers⟩
  · obtain ⟨c, hc, hresolves⟩ := exists_left_of_forall₂ hall hr
    rw [hresolves.unsatisfiable, (hfresh c hc).2]
    simp only [Bool.false_eq_true, false_or, hresolves.hasReference_iff]
    refine exists_congr fun ref => and_congr_right fun _ => ⟨fun hnone s hs hrefers => ?_,
      fun hnone s hs hrefers => ?_⟩
    · obtain ⟨s₀, hs₀, hsame⟩ := exists_left_of_forall₂ hall hs
      exact hnone s₀ hs₀ ((hresolves.refers_iff hsame ref).mp hrefers)
    · obtain ⟨s', hs', hsame⟩ := exists_right_of_forall₂ hall hs
      exact hnone s' hs' ((hresolves.refers_iff hsame ref).mpr hrefers)

end Manifest

/-- **Dependencies are resolved exactly.** In a valid manifest, whatever edits built it, the checks
of a materialized tree can always be resolved, and then one check depends on another exactly if a
reference of its rule means that other check; it is unsatisfiable exactly if some reference of its
rule means none. -/
theorem resolve_exact (rootType : String) (edits : List Edit) {registry : RuleRegistry}
    {policy : FailurePolicy} {depth : Nat} {document : Json} {t : ValueTree} {cs : List Check}
    (hvalid : (Manifest.build rootType edits).validate = .ok ())
    (ht : (Manifest.build rootType edits).materializeTo policy depth document = .ok t)
    (hcs : (Manifest.build rootType edits).checks registry t = .ok cs) :
    ∃ rs, (Manifest.build rootType edits).resolve t cs = .ok rs ∧
      (Manifest.build rootType edits).ResolvedExactly t cs rs := by
  have hm := Manifest.build_sound rootType edits
  obtain ⟨top, hmat⟩ := exists_materialized ht
  obtain ⟨rs, hrs, hall⟩ := Manifest.exists_resolve hmat hm hvalid hcs
  exact ⟨rs, hrs, Manifest.resolvedExactly hcs hall⟩

/-- A folder in which the key of a locked entry is checked only if the entry itself passes. -/
def lockedEdits : List Edit := folderEdits ++ [
  .addRule ⟨3⟩ "sealed" none [] [],
  .addRule ⟨4⟩ "known" none [] [⟨⟨3⟩, ⟨"sealed", "Locked", none⟩⟩],
  .addRule ⟨0⟩ "owned" none [] [⟨⟨4⟩, ⟨"known", "Key", none⟩⟩]]

def agreeable : RuleFactory :=
  StockRule.factory { parallelSafe := true } (.fixed (.ok .pass))

def lockedRules : RuleRegistry :=
  ((RuleRegistry.empty.register "sealed" agreeable).register "known" agreeable).register "owned"
    agreeable

theorem resolve_exact_locked :
    ∃ t cs rs, (Manifest.build "Folder" lockedEdits).validate = .ok () ∧
      (Manifest.build "Folder" lockedEdits).materializeTo .skip 6 folder = .ok t ∧
      (Manifest.build "Folder" lockedEdits).checks lockedRules t = .ok cs ∧
      (Manifest.build "Folder" lockedEdits).resolve t cs = .ok rs ∧
      (Manifest.build "Folder" lockedEdits).ResolvedExactly t cs rs := by
  have hvalid : (Manifest.build "Folder" lockedEdits).validate = .ok () :=
    Fallible.eq_ok_of_toOption (by decide +kernel)
  have hsome : (((Manifest.build "Folder" lockedEdits).materializeTo .skip 6 folder).toOption.bind
      fun t => ((Manifest.build "Folder" lockedEdits).checks lockedRules t).toOption).isSome =
        true := by decide +kernel
  obtain ⟨cs, hsome⟩ := Option.isSome_iff_exists.mp hsome
  obtain ⟨t, ht, hcs⟩ := Option.bind_eq_some_iff.mp hsome
  have htree := Fallible.eq_ok_of_toOption ht
  have hchecks := Fallible.eq_ok_of_toOption hcs
  obtain ⟨rs, hrs, hexact⟩ := resolve_exact "Folder" lockedEdits hvalid htree hchecks
  exact ⟨t, cs, rs, hvalid, htree, hchecks, hrs, hexact⟩

end Vetting
