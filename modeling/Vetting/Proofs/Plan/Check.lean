import Vetting.Plan.Dependencies
import Vetting.Proofs.ValueTree.Levels

/-!
# Which checks there are

The checks of a tree stand for pairs of a rule and a value: every value is paired with the rules of
the items that apply to it, in the order of the tree (`checks_pairs`). In a sound manifest no pair
occurs twice (`pairs_nodup`), so that a pair finds its check (`find?_eq_some`).
-/

namespace Vetting

theorem map_flatten_of_forall₂ {α β γ : Type} {f : β → γ} {g : α → List γ} {as : List α}
    {groups : List (List β)} (h : List.Forall₂ (fun a group => group.map f = g a) as groups) :
    groups.flatten.map f = as.flatMap g := by
  induction h with
  | nil => rfl
  | cons hgroup _ ih => rw [List.flatten_cons, List.map_append, hgroup, ih, List.flatMap_cons]

theorem forall_mem_flatten_of_forall₂ {α β : Type} {P : β → Prop} {as : List α}
    {groups : List (List β)} (h : List.Forall₂ (fun _ group => ∀ b ∈ group, P b) as groups) :
    ∀ b ∈ groups.flatten, P b := by
  intro b hb
  obtain ⟨group, hgroup, hb⟩ := List.mem_flatten.mp hb
  obtain ⟨_, -, hall⟩ := exists_left_of_forall₂ h hgroup
  exact hall b hb

namespace Manifest

variable {m : Manifest}

/-- The rules that an item lists. -/
def rulesOf (m : Manifest) (id : ItemId) : List RuleId := ((m.item? id).map (·.rules)).getD []

/-- The rules for a value, each with the value. -/
def pairsOf (m : Manifest) (t : ValueTree) (v : ValueId) : List (RuleId × ValueId) :=
  (((t.node? v).map (·.applied)).getD []).flatMap fun a => (m.rulesOf a).map (·, v)

/-- The rules for all values of a tree, each with its value. -/
def pairs (m : Manifest) (t : ValueTree) : List (RuleId × ValueId) := t.ids.flatMap (m.pairsOf t)

/-- What a check holds when it is made: the label and the logic of its rule, and no dependencies. -/
structure Fresh (m : Manifest) (registry : RuleRegistry) (t : ValueTree) (c : Check) : Prop where
  exists_rule : ∃ rule, m.rule? c.rule = some rule ∧ c.label.key = rule.key ∧
    registry.create rule = .ok c.logic
  exists_node : ∃ node, t.node? c.value = some node ∧ c.label.identity = node.identity
  dependencies : c.dependencies = []
  satisfiable : c.unsatisfiable = false

theorem getRule_eq_ok {id : RuleId} {rule : RuleDecl} :
    m.getRule id = .ok rule ↔ m.rule? id = some rule := by
  unfold getRule
  cases m.rule? id <;> simp

theorem mem_rulesOf {id : ItemId} {r : RuleId} :
    r ∈ m.rulesOf id ↔ ∃ item, m.item? id = some item ∧ r ∈ item.rules := by
  unfold rulesOf
  cases m.item? id <;> simp

theorem snd_of_mem_pairsOf {t : ValueTree} {v : ValueId} {p : RuleId × ValueId}
    (h : p ∈ m.pairsOf t v) : p.2 = v := by
  obtain ⟨_, -, h⟩ := List.mem_flatMap.mp h
  obtain ⟨_, -, rfl⟩ := List.mem_map.mp h
  rfl

theorem check_eq_ok {registry : RuleRegistry} {t : ValueTree} {v : ValueId} {node : ValueNode}
    {r : RuleId} {c : Check} (hv : t.node? v = some node)
    (h : m.check registry v node.identity r = .ok c) :
    (c.rule, c.value) = (r, v) ∧ m.Fresh registry t c := by
  obtain ⟨rule, hrule, hc⟩ := Fallible.bind_eq_ok.mp h
  obtain ⟨logic, hlogic, hc⟩ := Fallible.bind_eq_ok.mp hc
  cases hc
  have hdecl := getRule_eq_ok.mp (SetupError.ofManifest_eq_ok.mp hrule)
  exact ⟨rfl, ⟨rule, hdecl, rfl, hlogic⟩, ⟨node, hv, rfl⟩, rfl, rfl⟩

theorem checksOfItem_eq_ok {registry : RuleRegistry} {t : ValueTree} {v : ValueId}
    {node : ValueNode} {a : ItemId} {cs : List Check} (hv : t.node? v = some node)
    (h : m.checksOfItem registry v node.identity a = .ok cs) :
    cs.map (fun c => (c.rule, c.value)) = (m.rulesOf a).map (·, v) ∧
      ∀ c ∈ cs, m.Fresh registry t c := by
  obtain ⟨owner, hget, h⟩ := Fallible.bind_eq_ok.mp h
  have howner := get_eq_ok.mp (SetupError.ofManifest_eq_ok.mp hget)
  have hrules : m.rulesOf a = owner.rules := by simp [rulesOf, howner]
  have hall := (Fallible.mapM_eq_ok.mp h).imp fun r c hc => check_eq_ok hv hc
  rw [hrules]
  refine ⟨?_, fun c hc => ?_⟩
  · rw [← List.forall₂_eq_eq_eq, List.forall₂_map_left_iff, List.forall₂_map_right_iff]
    exact (hall.imp fun r c hc => hc.1).flip
  · obtain ⟨_, -, hfresh⟩ := exists_left_of_forall₂ hall hc
    exact hfresh.2

theorem checksOfValue_eq_ok {registry : RuleRegistry} {t : ValueTree} {v : ValueId}
    {cs : List Check} (h : m.checksOfValue registry t v = .ok cs) :
    cs.map (fun c => (c.rule, c.value)) = m.pairsOf t v ∧ ∀ c ∈ cs, m.Fresh registry t c := by
  unfold checksOfValue at h
  unfold pairsOf
  cases hv : t.node? v with
  | none =>
      rw [hv] at h
      cases h
      exact ⟨rfl, nofun⟩
  | some node =>
      rw [hv] at h
      obtain ⟨groups, hgroups, rfl⟩ := Fallible.map_eq_ok.mp h
      have hall := Fallible.mapM_eq_ok.mp hgroups
      exact ⟨map_flatten_of_forall₂ (hall.imp fun a group ha => (checksOfItem_eq_ok hv ha).1),
        forall_mem_flatten_of_forall₂ (hall.imp fun a group ha => (checksOfItem_eq_ok hv ha).2)⟩

/-- The checks stand for the pairs of rules and values, in order. -/
theorem checks_pairs {registry : RuleRegistry} {t : ValueTree} {cs : List Check}
    (h : m.checks registry t = .ok cs) :
    cs.map (fun c => (c.rule, c.value)) = m.pairs t ∧ ∀ c ∈ cs, m.Fresh registry t c := by
  obtain ⟨groups, hgroups, rfl⟩ := Fallible.map_eq_ok.mp h
  have hall := Fallible.mapM_eq_ok.mp hgroups
  exact ⟨map_flatten_of_forall₂ (hall.imp fun v group hv => (checksOfValue_eq_ok hv).1),
    forall_mem_flatten_of_forall₂ (hall.imp fun v group hv => (checksOfValue_eq_ok hv).2)⟩

theorem mem_pairs {t : ValueTree} {r : RuleId} {v : ValueId} :
    (r, v) ∈ m.pairs t ↔ ∃ node a, t.node? v = some node ∧ a ∈ node.applied ∧
      r ∈ m.rulesOf a := by
  unfold pairs pairsOf
  simp only [List.mem_flatMap, List.mem_map, Prod.mk.injEq]
  constructor
  · rintro ⟨v', -, a, ha, r', hr, rfl, rfl⟩
    cases hv : t.node? v' with
    | none => simp [hv] at ha
    | some node => exact ⟨node, a, rfl, by simpa [hv] using ha, hr⟩
  · rintro ⟨node, a, hv, ha, hr⟩
    refine ⟨v, ?_, a, by simpa [hv] using ha, r, hr, rfl, rfl⟩
    have hlt : v.index < t.size := (Array.getElem?_eq_some_iff.mp hv).1
    exact List.mem_map.mpr ⟨v.index, List.mem_range.mpr hlt, rfl⟩

/-- A rule of a sound manifest is listed by its own item only. -/
theorem mem_rulesOf_iff (hm : m.Sound) {a : ItemId} {r : RuleId} :
    r ∈ m.rulesOf a ↔ ∃ rule, m.rule? r = some rule ∧ rule.item = a := by
  rw [mem_rulesOf]
  constructor
  · rintro ⟨item, hi, hr⟩
    exact ((hm.linked hi).mem_rules r).mp hr
  · rintro ⟨rule, hr, rfl⟩
    obtain ⟨owner, ho, -⟩ := hm.rule_owner hr
    exact ⟨owner, ho, ((hm.linked ho).mem_rules r).mpr ⟨rule, hr, rfl⟩⟩

/-- Pairs are distinct also if the tree was found by another manifest. -/
theorem pairs_nodup_of_applied (hm : m.Sound) {t : ValueTree}
    (happlied : ∀ ⦃v node⦄, t.node? v = some node → node.applied.Nodup) : (m.pairs t).Nodup := by
  have hids : t.ids.Nodup := (List.nodup_map_iff fun a b hab => congrArg ValueId.index hab).mpr
    List.nodup_range
  refine List.nodup_flatMap.mpr ⟨fun v _ => ?_, hids.imp fun {v w} hne => ?_⟩
  · unfold pairsOf
    cases hv : t.node? v with
    | none => exact List.nodup_nil
    | some node =>
        refine List.nodup_flatMap.mpr ⟨fun a _ => ?_, ?_⟩
        · refine (List.nodup_map_iff fun r s hrs => congrArg Prod.fst hrs).mpr ?_
          unfold rulesOf
          cases ha : m.item? a with
          | none => exact List.nodup_nil
          | some item => exact (hm.linked ha).rules_nodup
        · refine (happlied hv).imp fun {a b} hne => ?_
          rintro ⟨r, v'⟩ hra hrb
          obtain ⟨r₁, hr₁, heq₁⟩ := List.mem_map.mp hra
          obtain ⟨r₂, hr₂, heq₂⟩ := List.mem_map.mp hrb
          obtain rfl : r₁ = r₂ := congrArg Prod.fst (heq₁.trans heq₂.symm)
          obtain ⟨rule, hrule, rfl⟩ := (mem_rulesOf_iff hm).mp hr₁
          obtain ⟨rule', hrule', rfl⟩ := (mem_rulesOf_iff hm).mp hr₂
          exact hne (congrArg RuleDecl.item (Option.some.inj (hrule.symm.trans hrule')))
  · rintro ⟨r, u⟩ hv hw
    obtain ⟨_, -, hv⟩ := List.mem_flatMap.mp hv
    obtain ⟨_, -, hw⟩ := List.mem_flatMap.mp hw
    obtain ⟨_, -, heqv⟩ := List.mem_map.mp hv
    obtain ⟨_, -, heqw⟩ := List.mem_map.mp hw
    exact hne (congrArg Prod.snd (heqv.trans heqw.symm))

theorem pairs_nodup {policy : FailurePolicy} {document : Json} {t : ValueTree} {top : Branch}
    (hm : m.Sound) (h : Materialized m policy document t top) : (m.pairs t).Nodup :=
  pairs_nodup_of_applied hm fun _ _ hv => (h.unfoldedAt hm hv).applied_nodup

end Manifest

namespace Check

/-- A pair of which there is one check at most finds that check. -/
theorem find?_eq_some {cs : List Check} (hcs : (cs.map fun c => (c.rule, c.value)).Nodup)
    {r : RuleId} {v : ValueId} {i : Nat} :
    Check.find? cs r v = some i ↔ ∃ c, cs[i]? = some c ∧ c.rule = r ∧ c.value = v := by
  unfold find?
  rw [List.findIdx?_eq_some_iff_getElem]
  constructor
  · rintro ⟨hlt, htest, -⟩
    simp only [Bool.and_eq_true, beq_iff_eq] at htest
    exact ⟨cs[i], List.getElem?_eq_getElem hlt, htest⟩
  · rintro ⟨c, hc, rfl, rfl⟩
    obtain ⟨hlt, rfl⟩ := List.getElem?_eq_some_iff.mp hc
    refine ⟨hlt, by simp, fun j hj htest => ?_⟩
    simp only [Bool.and_eq_true, beq_iff_eq] at htest
    have hj' : j < cs.length := Nat.lt_trans hj hlt
    have heq : (cs.map fun c => (c.rule, c.value))[j]? =
        (cs.map fun c => (c.rule, c.value))[i]? := by
      simp [htest.1, htest.2, hj', hlt]
    exact absurd ((List.getElem?_inj (by rwa [List.length_map]) hcs).mp heq) (Nat.ne_of_lt hj)

end Check

end Vetting
