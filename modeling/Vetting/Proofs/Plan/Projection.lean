import Vetting.Proofs.Plan.Rings
import Vetting.Proofs.Plan.Setup

/-!
# Rings of checks come from rings of rules

However many checks a document has, each dependency between two of them stands for a reference
between their rules (`Manifest.refersTo_of_resolve`). A ring of checks is therefore the image
of a cycle of references (`circular_projects`): where the references of a manifest have no cycle,
no document can make its checks wait for each other.
-/

namespace Vetting

open Relation

namespace Manifest

variable {m : Manifest} {registry : RuleRegistry} {policy : FailurePolicy} {document : Json}
  {t : ValueTree} {cs rs : List Check}

/-- A reference of rule `r` names rule `s`. -/
def RefersTo (m : Manifest) (r s : RuleId) : Prop :=
  ∃ rule ref, m.rule? r = some rule ∧ ref ∈ rule.dependencies ∧ m.findRule? ref = some s

/-- A reference between two rules of a list. -/
def RefersAmong (m : Manifest) (rules : List RuleId) (r s : RuleId) : Prop :=
  m.RefersTo r s ∧ r ∈ rules ∧ s ∈ rules

/-! ## Dependencies stand for references -/

theorem target_eq_ok {key : RuleKey} {ref : RuleRef} {r : RuleId} :
    m.target key ref = .ok r ↔ m.findRule? ref = some r := by
  unfold target
  cases m.findRule? ref <;> simp

/-- What a reference finds are checks by the rule that it names. -/
theorem mem_prerequisites {check : Check} {rule : RuleDecl} {ref : RuleRef} {found : List Nat}
    (h : m.prerequisites t cs check rule ref = .ok found) {j : Nat} (hj : j ∈ found) :
    ∃ s, cs[j]? = some s ∧ m.findRule? ref = some s.rule := by
  obtain ⟨name, hname, h⟩ := Fallible.bind_eq_ok.mp h
  obtain ⟨values, -, h⟩ := Fallible.bind_eq_ok.mp h
  cases h
  have hnamed := target_eq_ok.mp (SetupError.ofManifest_eq_ok.mp hname)
  obtain ⟨v, -, hv⟩ := List.mem_filterMap.mp hj
  obtain ⟨hlt, htest, -⟩ := List.findIdx?_eq_some_iff_getElem.mp hv
  simp only [Bool.and_eq_true, beq_iff_eq] at htest
  exact ⟨cs[j], List.getElem?_eq_getElem hlt, by rw [hnamed, htest.1]⟩

/-- Resolving a check keeps its rule and its value, and adds only dependencies on checks by rules
that its rule refers to. -/
theorem resolveCheck_eq_ok {c r : Check} (h : m.resolveCheck t cs c = .ok r) :
    r.rule = c.rule ∧ r.value = c.value ∧ ∀ j ∈ r.dependencies,
      j ∈ c.dependencies ∨ ∃ s, cs[j]? = some s ∧ m.RefersTo c.rule s.rule := by
  obtain ⟨rule, hrule, h⟩ := Fallible.bind_eq_ok.mp h
  obtain ⟨found, hfound, h⟩ := Fallible.bind_eq_ok.mp h
  cases h
  refine ⟨rfl, rfl, ?_⟩
  intro j hj
  rw [mem_ascending, List.mem_append] at hj
  rcases hj with hj | hj
  · exact .inl hj
  · obtain ⟨nums, hnums, hj⟩ := List.mem_flatten.mp hj
    obtain ⟨ref, href, hp⟩ := exists_left_of_forall₂ (Fallible.mapM_eq_ok.mp hfound) hnums
    obtain ⟨s, hs, hnames⟩ := mem_prerequisites hp hj
    exact .inr ⟨s, hs, rule, ref, getRule_eq_ok.mp (SetupError.ofManifest_eq_ok.mp hrule), href,
      hnames⟩

theorem forall₂_of_resolve (h : m.resolve t cs = .ok rs) :
    List.Forall₂ (fun c r => m.resolveCheck t cs c = .ok r) cs rs :=
  Fallible.mapM_eq_ok.mp h

/-- Among checks that had no dependencies before, one depends on another only if its rule refers to
the rule of the other. -/
theorem refersTo_of_resolve (h : m.resolve t cs = .ok rs) (hcs : ∀ c ∈ cs, c.dependencies = [])
    {r : Check} (hr : r ∈ rs) {j : Nat} (hj : j ∈ r.dependencies) :
    ∃ s, rs[j]? = some s ∧ m.RefersTo r.rule s.rule := by
  have hall := forall₂_of_resolve h
  obtain ⟨c, hc, hresolve⟩ := exists_left_of_forall₂ hall hr
  obtain ⟨hrule, -, hdeps⟩ := resolveCheck_eq_ok hresolve
  rcases hdeps j hj with hold | ⟨s, hs, hrefers⟩
  · rw [hcs c hc] at hold
    cases hold
  · obtain ⟨hlt, rfl⟩ := List.getElem?_eq_some_iff.mp hs
    have hlt' : j < rs.length := hall.length_eq ▸ hlt
    have hrule' : rs[j].rule = cs[j].rule := (resolveCheck_eq_ok (hall.get hlt hlt')).1
    refine ⟨rs[j], List.getElem?_eq_getElem hlt', ?_⟩
    rw [hrule, hrule']
    exact hrefers

end Manifest

/-- Every check of a plan is of a value of its tree. -/
theorem Plan.exists_value {m : Manifest} {registry : RuleRegistry} {policy : FailurePolicy}
    {depth : Nat} {document : Json} {p : Plan}
    (h : Plan.prepareTo m registry policy depth document = .ok p) {check : Check}
    (hcheck : check ∈ p.checks) : ∃ value, p.tree.value? check.value = some value := by
  obtain ⟨-, -, cs, hcs, hresolve, -⟩ := Plan.prepareTo_eq_ok.mp h
  obtain ⟨c, hc, hok⟩ := exists_left_of_forall₂ (Manifest.forall₂_of_resolve hresolve) hcheck
  obtain ⟨node, hnode, -⟩ := ((Manifest.checks_pairs hcs).2 c hc).exists_node
  refine ⟨node.value, ?_⟩
  rw [(Manifest.resolveCheck_eq_ok hok).2.1, ValueTree.value?, hnode]
  rfl

/-! ## Rings of checks -/

namespace Check

/-- The rules of the checks of a list of numbers. -/
def rulesAt (checks : List Check) (ring : List Nat) : List RuleId :=
  ring.filterMap fun i => checks[i]?.map (·.rule)

theorem mem_rulesAt {checks : List Check} {ring : List Nat} {i : Nat} {check : Check}
    (hi : i ∈ ring) (hcheck : checks[i]? = some check) : check.rule ∈ rulesAt checks ring :=
  List.mem_filterMap.mpr ⟨i, hi, by rw [hcheck]; rfl⟩

/-- A way from one check of a ring around to another stays within the ring, and each of its steps
stands for a reference. -/
theorem IsRing.refersAmong {m : Manifest} {checks : List Check} {ring : List Nat}
    (h : IsRing checks ring)
    (hrefers : ∀ r ∈ checks, ∀ j ∈ r.dependencies, ∃ s, checks[j]? = some s ∧
      m.RefersTo r.rule s.rule)
    {i j : Nat} {r : Check} (hi : i ∈ ring) (hr : checks[i]? = some r)
    (hij : TransGen (DependsOn checks) i j) (hj : j ∈ ring) :
    ∃ s, checks[j]? = some s ∧ TransGen (m.RefersAmong (rulesAt checks ring)) r.rule s.rule := by
  have hstep : ∀ {j k : Nat} {s : Check}, j ∈ ring → k ∈ ring → checks[j]? = some s →
      DependsOn checks j k →
      ∃ s', checks[k]? = some s' ∧ m.RefersAmong (rulesAt checks ring) s.rule s'.rule := by
    rintro j k s hj hk hs ⟨s₀, hs₀, hdep⟩
    obtain rfl := Option.some.inj (hs.symm.trans hs₀)
    obtain ⟨s', hs', hrefer⟩ := hrefers s (List.mem_of_getElem? hs) k hdep
    exact ⟨s', hs', hrefer, mem_rulesAt hj hs, mem_rulesAt hk hs'⟩
  induction hij with
  | single hedge =>
      obtain ⟨s, hs, hrefer⟩ := hstep hi hj hr hedge
      exact ⟨s, hs, .single hrefer⟩
  | @tail j k hij hedge ih =>
      -- The node before the last leads on around the ring, so it belongs to it.
      have hmid : j ∈ ring :=
        (h.mem_iff hi j).mpr ⟨hij, .head hedge ((h.mem_iff hi k).mp hj).2⟩
      obtain ⟨s, hs, hway⟩ := ih hmid
      obtain ⟨s', hs', hrefer⟩ := hstep hmid hj hs hedge
      exact ⟨s', hs', hway.tail hrefer⟩

/-- The rules of a ring of checks include a cycle of references. -/
theorem IsRing.exists_cycle {m : Manifest} {checks : List Check} {ring : List Nat}
    (h : IsRing checks ring)
    (hrefers : ∀ r ∈ checks, ∀ j ∈ r.dependencies, ∃ s, checks[j]? = some s ∧
      m.RefersTo r.rule s.rule) :
    ∃ r, TransGen (m.RefersAmong (rulesAt checks ring)) r r := by
  obtain ⟨i, hi⟩ := List.exists_mem_of_ne_nil ring h.ne_nil
  obtain ⟨r, hr⟩ := h.exists_check hi
  obtain ⟨s, hs, hcycle⟩ := h.refersAmong hrefers hi hr (h.waits hi) hi
  obtain rfl := Option.some.inj (hr.symm.trans hs)
  exact ⟨r.rule, hcycle⟩

end Check

/-- Only the last stage of a plan refuses checks that wait for each other. -/
theorem Plan.prepareTo_circular {m : Manifest} {registry : RuleRegistry} {policy : FailurePolicy}
    {depth : Nat} {document : Json} {labels : List RuleLabel} (hm : m.Sound)
    (h : Plan.prepareTo m registry policy depth document = .error (.circular labels)) :
    ∃ t cs checks, m.materializeTo policy depth document = .ok t ∧
      m.checks registry t = .ok cs ∧ m.resolve t cs = .ok checks ∧
      Check.acyclic checks = .error (.circular labels) := by
  unfold prepareTo at h
  rcases Fallible.bind_eq_error.mp h with h | ⟨_, hvalid, h⟩
  · obtain ⟨e, -, he⟩ := SetupError.ofManifest_eq_error.mp h
    cases he
  have hvalid := SetupError.ofManifest_eq_ok.mp hvalid
  rcases Fallible.bind_eq_error.mp h with h | ⟨t, ht, h⟩
  · have hunfold := Manifest.materializeTo_eq_error.mp h
    rcases Manifest.unfoldTo_error hm (Manifest.defined_of_valid hvalid) hunfold with
      ⟨_, _, he, -⟩ | ⟨_, he⟩ <;> cases he
  obtain ⟨top, hmat⟩ := exists_materialized ht
  rcases Fallible.bind_eq_error.mp h with h | ⟨cs, hcs, h⟩
  · cases Manifest.checks_error hmat hm h
  rcases Fallible.bind_eq_error.mp h with h | ⟨checks, hchecks, h⟩
  · obtain ⟨rs, hrs, -⟩ := Manifest.exists_resolve hmat hm hvalid hcs
    rw [hrs] at h
    cases h
  rcases Fallible.bind_eq_error.mp h with h | ⟨_, -, h⟩
  · exact ⟨t, cs, checks, ht, hcs, hchecks, h⟩
  · cases h

/-- Where a plan fails because checks wait for each other, it names a ring of checks whose rules
include a cycle of references. -/
theorem Plan.exists_ring {m : Manifest} {registry : RuleRegistry} {policy : FailurePolicy}
    {depth : Nat} {document : Json} {labels : List RuleLabel} (hm : m.Sound)
    (h : Plan.prepareTo m registry policy depth document = .error (.circular labels)) :
    ∃ t cs checks ring, m.materializeTo policy depth document = .ok t ∧
      m.checks registry t = .ok cs ∧ m.resolve t cs = .ok checks ∧
      Check.IsRing checks ring ∧ Check.Labelled checks ring labels ∧
      ∃ r, TransGen (m.RefersAmong (Check.rulesAt checks ring)) r r := by
  obtain ⟨t, cs, checks, ht, hcs, hchecks, hacyclic⟩ := Plan.prepareTo_circular hm h
  obtain ⟨ring, labels', -, hring, hlabels, heq⟩ := Check.acyclic_eq_error hacyclic
  cases heq
  have hfresh : ∀ c ∈ cs, c.dependencies = [] := fun c hc =>
    ((Manifest.checks_pairs hcs).2 c hc).dependencies
  exact ⟨t, cs, checks, ring, ht, hcs, hchecks, hring, hlabels,
    hring.exists_cycle fun r hr j hj => Manifest.refersTo_of_resolve hchecks hfresh hr hj⟩

/-- **Checks wait for each other only where rules refer to each other.** Whatever edits built a
manifest, whatever the registry, the policy and the document, and however deep the values are
followed: if no rule of the manifest reaches itself along references, a plan never fails because
checks wait for each other; and where a plan does fail for that, the rules of the checks that are
named include a cycle of references. -/
theorem circular_projects (rootType : String) (edits : List Edit) (registry : RuleRegistry)
    (policy : FailurePolicy) (depth : Nat) (document : Json) :
    ((∀ r, ¬ TransGen (Manifest.build rootType edits).RefersTo r r) → ∀ labels,
        Plan.prepareTo (Manifest.build rootType edits) registry policy depth document ≠
          .error (.circular labels)) ∧
      ∀ labels, Plan.prepareTo (Manifest.build rootType edits) registry policy depth document =
          .error (.circular labels) →
        ∃ t cs checks ring,
          (Manifest.build rootType edits).materializeTo policy depth document = .ok t ∧
          (Manifest.build rootType edits).checks registry t = .ok cs ∧
          (Manifest.build rootType edits).resolve t cs = .ok checks ∧
          Check.IsRing checks ring ∧ Check.Labelled checks ring labels ∧
          ∃ r, TransGen ((Manifest.build rootType edits).RefersAmong (Check.rulesAt checks ring))
            r r := by
  have hm := Manifest.build_sound rootType edits
  constructor
  · intro hacyclic labels h
    obtain ⟨_, _, _, _, -, -, -, -, -, r, hr⟩ := Plan.exists_ring hm h
    exact hacyclic r (TransGen.mono (fun a b hab => hab.1) r r hr)
  · intro labels h
    exact Plan.exists_ring hm h

/-- Whether every reference names a rule that was declared before the one that has it. -/
def Manifest.refersBack (m : Manifest) : Bool :=
  m.rules.toList.zipIdx.all fun (rule, i) =>
    rule.dependencies.all fun ref => (m.findRule? ref).all (·.index < i)

theorem Manifest.not_refersTo_self {m : Manifest} (h : m.refersBack = true) (r : RuleId) :
    ¬ TransGen m.RefersTo r r := by
  have hback : ∀ a b, m.RefersTo a b → b.index < a.index := by
    rintro a b ⟨rule, ref, hrule, href, hnames⟩
    have hmem : (rule, a.index) ∈ m.rules.toList.zipIdx := by
      rw [List.mem_zipIdx_iff_getElem?, Array.getElem?_toList]
      exact hrule
    have hall := List.all_eq_true.mp (List.all_eq_true.mp h _ hmem) ref href
    rw [hnames] at hall
    exact of_decide_eq_true hall
  have hdown : ∀ b, TransGen m.RefersTo r b → b.index < r.index := by
    intro b hb
    induction hb with
    | single hrb => exact hback r _ hrb
    | tail _ hbc ih => exact Nat.lt_trans (hback _ _ hbc) ih
  exact fun hr => Nat.lt_irrefl _ (hdown r hr)

/-- A folder whose owner is checked only if it is sealed, and the seal only if it is owned. -/
def knottedEdits : List Edit := folderEdits ++ [
  .addRule ⟨0⟩ "owned" none [] [],
  .addRule ⟨3⟩ "sealed" none [] [⟨⟨0⟩, ⟨"owned", "Folder", none⟩⟩],
  .addDependency ⟨0⟩ ⟨⟨3⟩, ⟨"sealed", "Locked", none⟩⟩]

/-- Of two folders the one whose rules refer back never has checks that wait for each other; the
other has. -/
theorem circular_projects_knotted :
    (∀ labels, Plan.prepareTo (Manifest.build "Folder" lockedEdits) lockedRules .skip 6 folder ≠
        .error (.circular labels)) ∧
      ∃ labels t cs checks ring,
        Plan.prepareTo (Manifest.build "Folder" knottedEdits) lockedRules .skip 6 folder =
          .error (.circular labels) ∧
        (Manifest.build "Folder" knottedEdits).materializeTo .skip 6 folder = .ok t ∧
        (Manifest.build "Folder" knottedEdits).checks lockedRules t = .ok cs ∧
        (Manifest.build "Folder" knottedEdits).resolve t cs = .ok checks ∧
        Check.IsRing checks ring ∧ Check.Labelled checks ring labels ∧
        ∃ r, TransGen ((Manifest.build "Folder" knottedEdits).RefersAmong
          (Check.rulesAt checks ring)) r r := by
  have hback : (Manifest.build "Folder" lockedEdits).refersBack = true := by decide +kernel
  have hcircular : (match Plan.prepareTo (Manifest.build "Folder" knottedEdits) lockedRules .skip 6
      folder with
    | .error (.circular _) => true
    | _ => false) = true := by decide +kernel
  refine ⟨(circular_projects "Folder" lockedEdits lockedRules .skip 6 folder).1
    (Manifest.not_refersTo_self hback), ?_⟩
  split at hcircular
  · rename_i labels h
    obtain ⟨t, cs, checks, ring, hring⟩ :=
      (circular_projects "Folder" knottedEdits lockedRules .skip 6 folder).2 labels h
    exact ⟨labels, t, cs, checks, ring, h, hring⟩
  · cases hcircular

end Vetting
