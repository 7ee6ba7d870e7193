import Vetting.Plan.Basic
import Vetting.Proofs.Plan.Dependencies
import Vetting.Proofs.ValueTree.Failure

/-!
# What can go wrong in a valid manifest

Making a plan passes through four stages, each of which could in principle stumble over the
manifest. After validation none does: the manifest is at fault exactly if validation says so, and
otherwise a plan fails for one of the reasons of `SetupError.LeftOpen` only. The headline is
`prepareTo_error`.
-/

namespace Vetting

/-- The faults that a valid manifest leaves possible. -/
inductive SetupError.LeftOpen : SetupError → Prop
  | unreadable (item : ItemId) (failure : ReadFailure) : LeftOpen (.unreadable item failure)
  | unknownRuleType (ruleType : String) : LeftOpen (.unknownRuleType ruleType)
  | rejectedConfig (rule : RuleKey) (error : RuleError) : LeftOpen (.rejectedConfig rule error)
  | circular (rules : List RuleLabel) : LeftOpen (.circular rules)

/-- The registry cannot make a rule. -/
inductive SetupError.Unmade : SetupError → Prop
  | unknownRuleType (ruleType : String) : Unmade (.unknownRuleType ruleType)
  | rejectedConfig (rule : RuleKey) (error : RuleError) : Unmade (.rejectedConfig rule error)

theorem SetupError.Unmade.leftOpen {e : SetupError} (h : e.Unmade) : e.LeftOpen := by
  cases h with
  | unknownRuleType ruleType => exact .unknownRuleType ruleType
  | rejectedConfig rule error => exact .rejectedConfig rule error

theorem RuleRegistry.create_error {registry : RuleRegistry} {rule : RuleDecl} {e : SetupError}
    (h : registry.create rule = .error e) : e.Unmade := by
  unfold create at h
  cases hf : registry.factory? rule.key.ruleType with
  | none =>
      rw [hf] at h
      cases h
      exact .unknownRuleType _
  | some factory =>
      rw [hf] at h
      cases hc : factory rule.config with
      | ok logic => simp [hc, Except.mapError] at h
      | error error =>
          simp only [hc, Except.mapError] at h
          cases h
          exact .rejectedConfig _ _

theorem Check.acyclic_error {checks : List Check} {e : SetupError}
    (h : Check.acyclic checks = .error e) : e.LeftOpen := by
  unfold acyclic at h
  split at h <;> cases h
  exact .circular _

namespace Manifest

variable {m : Manifest} {registry : RuleRegistry} {policy : FailurePolicy} {document : Json}
  {t : ValueTree} {top : Branch}

theorem check_error {v : ValueId} {identity : Option String} {r : RuleId} {rule : RuleDecl}
    {e : SetupError} (hr : m.rule? r = some rule)
    (h : m.check registry v identity r = .error e) : e.Unmade := by
  unfold check at h
  rw [getRule_eq_ok.mpr hr] at h
  rcases Fallible.bind_eq_error.mp h with h | ⟨rule', hok, h⟩
  · cases h
  · cases hok
    rcases Fallible.bind_eq_error.mp h with h | ⟨_, -, h⟩
    · exact RuleRegistry.create_error h
    · cases h

theorem checksOfItem_error (hm : m.Sound) {v : ValueId} {identity : Option String} {a : ItemId}
    {item : Item} {e : SetupError} (ha : m.item? a = some item)
    (h : m.checksOfItem registry v identity a = .error e) : e.Unmade := by
  unfold checksOfItem at h
  rw [get_eq_ok.mpr ha] at h
  rcases Fallible.bind_eq_error.mp h with h | ⟨item', hok, h⟩
  · cases h
  · cases hok
    obtain ⟨r, hr, h⟩ := Fallible.mapM_eq_error h
    obtain ⟨rule, hrule, -⟩ := ((hm.linked ha).mem_rules r).mp hr
    exact check_error hrule h

/-- Making the checks of a tree fails only where the registry cannot make a rule. -/
theorem checks_error (h : Materialized m policy document t top) (hm : m.Sound) {e : SetupError}
    (he : m.checks registry t = .error e) : e.Unmade := by
  obtain ⟨v, -, hv⟩ := Fallible.mapM_eq_error (Fallible.map_eq_error.mp he)
  unfold checksOfValue at hv
  cases hnode : t.node? v with
  | none =>
      rw [hnode] at hv
      cases hv
  | some node =>
      rw [hnode] at hv
      obtain ⟨a, ha, h'⟩ := Fallible.mapM_eq_error (Fallible.map_eq_error.mp hv)
      obtain ⟨item, hi⟩ := h.known_of_applied hm hnode ha
      exact checksOfItem_error hm hi h'

end Manifest

namespace Plan

variable {m : Manifest} {registry : RuleRegistry} {policy : FailurePolicy} {depth : Nat}
  {document : Json}

theorem prepareTo_eq_ok {p : Plan} :
    prepareTo m registry policy depth document = .ok p ↔
      m.validate = .ok () ∧ m.materializeTo policy depth document = .ok p.tree ∧
        ∃ cs, m.checks registry p.tree = .ok cs ∧ m.resolve p.tree cs = .ok p.checks ∧
          Check.acyclic p.checks = .ok () := by
  unfold prepareTo
  simp only [Fallible.bind_eq_ok, SetupError.ofManifest_eq_ok]
  constructor
  · rintro ⟨_, hv, t, ht, cs, hcs, rs, hrs, _, hac, heq⟩
    cases heq
    exact ⟨hv, ht, cs, hcs, hrs, hac⟩
  · rintro ⟨hv, ht, cs, hcs, hrs, hac⟩
    exact ⟨(), hv, p.tree, ht, cs, hcs, p.checks, hrs, (), hac, rfl⟩

theorem prepareTo_of_invalid {e : ManifestError} (h : m.validate = .error e) :
    prepareTo m registry policy depth document = .error (.manifest e) := by
  unfold prepareTo
  rw [h]
  rfl

/-- The stages that can stop the plan of a valid manifest. -/
theorem prepareTo_error_cases (hm : m.Sound) (hvalid : m.validate = .ok ()) {e : SetupError}
    (h : prepareTo m registry policy depth document = .error e) :
    e.LeftOpen ∨ ∃ item, e = .endless item ∧
      m.unfoldTo policy depth document = .error (.endless item) := by
  unfold prepareTo at h
  rw [hvalid] at h
  rcases Fallible.bind_eq_error.mp h with h | ⟨_, -, h⟩
  · cases h
  · rcases Fallible.bind_eq_error.mp h with ht | ⟨t, ht, h⟩
    · have hunfold := Manifest.materializeTo_eq_error.mp ht
      rcases Manifest.unfoldTo_error hm (Manifest.defined_of_valid hvalid) hunfold with
        ⟨item, failure, rfl, -⟩ | ⟨item, rfl⟩
      · exact .inl (.unreadable item failure)
      · exact .inr ⟨item, rfl, hunfold⟩
    · obtain ⟨top, hmat⟩ := exists_materialized ht
      refine .inl ?_
      rcases Fallible.bind_eq_error.mp h with hcs | ⟨cs, hcs, h⟩
      · exact (Manifest.checks_error hmat hm hcs).leftOpen
      · obtain ⟨rs, hrs, -⟩ := Manifest.exists_resolve hmat hm hvalid hcs
        rw [hrs] at h
        rcases Fallible.bind_eq_error.mp h with h | ⟨rs', -, h⟩
        · cases h
        · rcases Fallible.bind_eq_error.mp h with h | ⟨_, -, h⟩
          · exact Check.acyclic_error h
          · cases h

/-- Once a depth suffices, every greater depth gives the same plan or the same error. -/
theorem prepareTo_mono {depth' : Nat} (hle : depth ≤ depth')
    (h : Answered (prepareTo m registry policy depth document)) :
    prepareTo m registry policy depth' document = prepareTo m registry policy depth document := by
  unfold prepareTo at h ⊢
  cases hv : SetupError.ofManifest m.validate with
  | error e => rfl
  | ok _ =>
      rw [hv] at h
      have hanswered : Answered (m.unfoldTo policy depth document) := by
        intro item he
        exact h.of_bind_ok.of_bind item (Manifest.materializeTo_eq_error.mpr he)
      unfold Manifest.materializeTo
      rw [Manifest.unfoldTo_mono hle hanswered]

end Plan

/-- **After validation no later stage finds fault with the manifest.** Whatever edits built a
manifest, whatever the registry, the policy and the document, and however deep the values are
followed: a plan fails for the manifest exactly if validation fails, and with the same fault; in a
valid manifest all that can go wrong is left open by `SetupError.LeftOpen`. The mark `endless` is
no answer: it only says that the values go deeper than they were followed, and a greater depth
that suffices has one of the other answers. -/
theorem prepareTo_error (rootType : String) (edits : List Edit) (registry : RuleRegistry)
    (policy : FailurePolicy) (depth : Nat) (document : Json) :
    (∀ e, Plan.prepareTo (Manifest.build rootType edits) registry policy depth document =
        .error (.manifest e) ↔ (Manifest.build rootType edits).validate = .error e) ∧
      ((Manifest.build rootType edits).validate = .ok () → ∀ e,
        Plan.prepareTo (Manifest.build rootType edits) registry policy depth document = .error e →
        e.LeftOpen ∨ ∃ item, e = .endless item ∧
          (Manifest.build rootType edits).unfoldTo policy depth document =
            .error (.endless item)) := by
  have hm := Manifest.build_sound rootType edits
  refine ⟨fun e => ⟨fun h => ?_, Plan.prepareTo_of_invalid⟩, fun hvalid e h =>
    Plan.prepareTo_error_cases hm hvalid h⟩
  cases hv : (Manifest.build rootType edits).validate with
  | error e' =>
      rw [Plan.prepareTo_of_invalid hv] at h
      cases h
      rfl
  | ok _ =>
      rcases Plan.prepareTo_error_cases hm hv h with hopen | ⟨item, heq, -⟩
      · cases hopen
      · cases heq

/-- The owner of the folder cannot be read, and nothing stands in for it. -/
theorem prepareTo_error_locked :
    ∃ e, (Manifest.build "Folder" lockedEdits).validate = .ok () ∧
      Plan.prepareTo (Manifest.build "Folder" lockedEdits) lockedRules .propagate 6 folder =
        .error e ∧
      (e.LeftOpen ∨ ∃ item, e = .endless item ∧
        (Manifest.build "Folder" lockedEdits).unfoldTo .propagate 6 folder =
          .error (.endless item)) := by
  have hvalid : (Manifest.build "Folder" lockedEdits).validate = .ok () :=
    Fallible.eq_ok_of_toOption (by decide +kernel)
  have hfails : (Plan.prepareTo (Manifest.build "Folder" lockedEdits) lockedRules .propagate 6
      folder).toOption.isNone = true := by decide +kernel
  cases h : Plan.prepareTo (Manifest.build "Folder" lockedEdits) lockedRules .propagate 6
      folder with
  | ok p =>
      rw [h] at hfails
      cases hfails
  | error e =>
      exact ⟨e, hvalid, rfl,
        (prepareTo_error "Folder" lockedEdits lockedRules .propagate 6 folder).2 hvalid e h⟩

end Vetting
