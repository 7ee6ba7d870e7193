import Vetting.Proofs.Plan.Dependencies

/-!
# References that find no rule

Validation and resolution both look at the references of rules, and both stop at one that names no
declared rule. They do not say the same about it. Validation looks for the item first and tells a
missing item (`danglingReference`) from a missing rule (`undeclaredReference`). Resolution looks for
the rule first (`Manifest.target`) and comes to the item only by way of it, so that a missing item
is reported as a missing rule. The headline is `resolve_error`: which reference resolution stops at,
what it says, and that validation says the same exactly if the item is there.

Validation has run before every plan, so none of this shows in `Plan.prepareTo`
(`prepareTo_error`); it does where trees, checks and dependencies are made one by one.
-/

namespace Vetting.Manifest

/-- Resolving checks comes to the reference `ref` of `rule`: the references of the checks before,
and those before it in the same rule, all find theirs. -/
def ComesTo (m : Manifest) (cs : List Check) (rule : RuleDecl) (ref : RuleRef) : Prop :=
  ∃ before check after earlier later, cs = before ++ check :: after ∧
    m.rule? check.rule = some rule ∧ rule.dependencies = earlier ++ ref :: later ∧
    (∀ c ∈ before, ∀ x, m.HasReference c x → ∃ r, m.findRule? x = some r) ∧
    ∀ x ∈ earlier, ∃ r, m.findRule? x = some r

variable {m : Manifest} {registry : RuleRegistry} {policy : FailurePolicy} {document : Json}
  {t : ValueTree} {top : Branch}

/-! ## What each check says of a reference -/

/-- Validation tells whether it is the item or the rule that is missing. -/
theorem checkReference_of_unfound {key : RuleKey} {ref : RuleRef} (h : m.findRule? ref = none) :
    m.checkReference key ref = .error (if (m.item? ref.item).isSome
      then .undeclaredReference key ref else .danglingReference key ref.item) := by
  unfold checkReference
  cases m.item? ref.item <;> simp [h]

/-- Resolution does not. -/
theorem prerequisites_of_unfound {cs : List Check} {c : Check} {rule : RuleDecl} {ref : RuleRef}
    (h : m.findRule? ref = none) :
    m.prerequisites t cs c rule ref = .error (.manifest (.undeclaredReference rule.key ref)) := by
  unfold prerequisites target
  rw [h]
  rfl

/-! ## Where resolution stops -/

theorem prerequisites_answers (h : Materialized m policy document t top) (hm : m.Sound)
    {cs : List Check} (hcs : m.checks registry t = .ok cs) {c : Check} (hc : c ∈ cs)
    {rule : RuleDecl} (hrule : m.rule? c.rule = some rule) {ref : RuleRef} :
    (∃ found, m.prerequisites t cs c rule ref = .ok found) ↔ ∃ r, m.findRule? ref = some r := by
  constructor
  · rintro ⟨found, hfound⟩
    refine Option.ne_none_iff_exists'.mp fun hnone => ?_
    rw [prerequisites_of_unfound hnone] at hfound
    cases hfound
  · rintro ⟨r, hr⟩
    obtain ⟨found, hfound, -⟩ := exists_prerequisites h hm hcs hc hrule hr
    exact ⟨found, hfound⟩

theorem prerequisites_eq_error (h : Materialized m policy document t top) (hm : m.Sound)
    {cs : List Check} (hcs : m.checks registry t = .ok cs) {c : Check} (hc : c ∈ cs)
    {rule : RuleDecl} (hrule : m.rule? c.rule = some rule) {ref : RuleRef} {e : SetupError} :
    m.prerequisites t cs c rule ref = .error e ↔
      m.findRule? ref = none ∧ e = .manifest (.undeclaredReference rule.key ref) := by
  cases hfind : m.findRule? ref with
  | none => simp [prerequisites_of_unfound hfind, eq_comm]
  | some r =>
      obtain ⟨found, hfound⟩ := (prerequisites_answers h hm hcs hc hrule).mpr ⟨r, hfind⟩
      simp [hfound]

theorem resolveCheck_answers (h : Materialized m policy document t top) (hm : m.Sound)
    {cs : List Check} (hcs : m.checks registry t = .ok cs) {c : Check} (hc : c ∈ cs) :
    (∃ r, m.resolveCheck t cs c = .ok r) ↔
      ∀ ref, m.HasReference c ref → ∃ r, m.findRule? ref = some r := by
  obtain ⟨rule, -, -, hrule, -⟩ := rule_of_check hm hcs hc
  constructor
  · rintro ⟨r, hr⟩ ref ⟨rule', hrule', href⟩
    obtain rfl := Option.some.inj (hrule.symm.trans hrule')
    obtain ⟨rule', hdecl, hr⟩ := Fallible.bind_eq_ok.mp hr
    obtain rfl := Option.some.inj
      (hrule.symm.trans (getRule_eq_ok.mp (SetupError.ofManifest_eq_ok.mp hdecl)))
    obtain ⟨found, hfound, -⟩ := Fallible.bind_eq_ok.mp hr
    obtain ⟨numbers, -, hnumbers⟩ := exists_right_of_forall₂ (Fallible.mapM_eq_ok.mp hfound) href
    exact (prerequisites_answers h hm hcs hc hrule).mp ⟨numbers, hnumbers⟩
  · intro hall
    have hfound : ∀ ref ∈ rule.dependencies,
        ∃ numbers, m.prerequisites t cs c rule ref = .ok numbers ∧ True := fun ref href => by
      obtain ⟨numbers, hnumbers⟩ :=
        (prerequisites_answers h hm hcs hc hrule).mpr (hall ref ⟨rule, hrule, href⟩)
      exact ⟨numbers, hnumbers, trivial⟩
    obtain ⟨found, hfound, -⟩ := Fallible.exists_mapM_eq_ok hfound
    have hget := SetupError.ofManifest_eq_ok.mpr (getRule_eq_ok.mpr hrule)
    exact ⟨_, Fallible.bind_eq_ok.mpr ⟨rule, hget, Fallible.bind_eq_ok.mpr ⟨found, hfound, rfl⟩⟩⟩

/-- One check stops at the first reference of its rule that finds none. -/
theorem resolveCheck_eq_error (h : Materialized m policy document t top) (hm : m.Sound)
    {cs : List Check} (hcs : m.checks registry t = .ok cs) {c : Check} (hc : c ∈ cs)
    {e : SetupError} :
    m.resolveCheck t cs c = .error e ↔ ∃ rule earlier ref later, m.rule? c.rule = some rule ∧
      rule.dependencies = earlier ++ ref :: later ∧
      (∀ x ∈ earlier, ∃ r, m.findRule? x = some r) ∧ m.findRule? ref = none ∧
      e = .manifest (.undeclaredReference rule.key ref) := by
  obtain ⟨rule, -, -, hrule, -⟩ := rule_of_check hm hcs hc
  unfold resolveCheck
  rw [getRule_eq_ok.mpr hrule]
  constructor
  · intro he
    rcases Fallible.bind_eq_error.mp he with he | ⟨rule', hok, he⟩
    · cases he
    · cases hok
      rcases Fallible.bind_eq_error.mp he with he | ⟨_, -, he⟩
      · obtain ⟨earlier, ref, later, hdeps, hearlier, href⟩ := Fallible.mapM_eq_error_iff.mp he
        obtain ⟨hnone, rfl⟩ := (prerequisites_eq_error h hm hcs hc hrule).mp href
        exact ⟨rule, earlier, ref, later, hrule, hdeps,
          fun x hx => (prerequisites_answers h hm hcs hc hrule).mp (hearlier x hx), hnone, rfl⟩
      · cases he
  · rintro ⟨rule', earlier, ref, later, hrule', hdeps, hearlier, hnone, rfl⟩
    obtain rfl := Option.some.inj (hrule.symm.trans hrule')
    have hstops : rule.dependencies.mapM (m.prerequisites t cs c rule) =
        .error (.manifest (.undeclaredReference rule.key ref)) :=
      Fallible.mapM_eq_error_iff.mpr ⟨earlier, ref, later, hdeps,
        fun x hx => (prerequisites_answers h hm hcs hc hrule).mpr (hearlier x hx),
        prerequisites_of_unfound hnone⟩
    exact Fallible.bind_eq_error.mpr
      (.inr ⟨rule, rfl, Fallible.bind_eq_error.mpr (.inl hstops)⟩)

/-- Resolution stops at the first reference that finds no rule, in the order of the checks. -/
theorem resolve_eq_error (h : Materialized m policy document t top) (hm : m.Sound)
    {cs : List Check} (hcs : m.checks registry t = .ok cs) {e : SetupError} :
    m.resolve t cs = .error e ↔ ∃ rule ref, m.ComesTo cs rule ref ∧ m.findRule? ref = none ∧
      e = .manifest (.undeclaredReference rule.key ref) := by
  unfold resolve
  rw [Fallible.mapM_eq_error_iff]
  constructor
  · rintro ⟨before, c, after, heq, hbefore, hc⟩
    have hmem : ∀ c' ∈ before ++ c :: after, c' ∈ cs := fun c' hc' => heq ▸ hc'
    obtain ⟨rule, earlier, ref, later, hrule, hdeps, hearlier, hnone, rfl⟩ :=
      (resolveCheck_eq_error h hm hcs (hmem c (by simp))).mp hc
    refine ⟨rule, ref, ⟨before, c, after, earlier, later, heq, hrule, hdeps, fun c' hc' => ?_,
      hearlier⟩, hnone, rfl⟩
    exact (resolveCheck_answers h hm hcs (hmem c' (List.mem_append_left _ hc'))).mp
      (hbefore c' hc')
  · rintro ⟨rule, ref, ⟨before, c, after, earlier, later, heq, hrule, hdeps, hbefore, hearlier⟩,
      hnone, rfl⟩
    have hmem : ∀ c' ∈ before ++ c :: after, c' ∈ cs := fun c' hc' => heq ▸ hc'
    refine ⟨before, c, after, heq, fun c' hc' => ?_,
      (resolveCheck_eq_error h hm hcs (hmem c (by simp))).mpr
        ⟨rule, earlier, ref, later, hrule, hdeps, hearlier, hnone, rfl⟩⟩
    exact (resolveCheck_answers h hm hcs (hmem c' (List.mem_append_left _ hc'))).mpr
      (hbefore c' hc')

end Vetting.Manifest

namespace Vetting

/-- **Resolution reports a missing item as a missing rule.** Whatever edits built the manifest,
valid or not: resolving the checks of a materialized tree fails exactly if it comes to a reference
that finds no rule, always with `undeclaredReference` for that reference. Validation has an error
for the same reference, and it is the same error exactly if the item that the reference names is in
the manifest. -/
theorem resolve_error (rootType : String) (edits : List Edit) {registry : RuleRegistry}
    {policy : FailurePolicy} {depth : Nat} {document : Json} {t : ValueTree} {cs : List Check}
    (ht : (Manifest.build rootType edits).materializeTo policy depth document = .ok t)
    (hcs : (Manifest.build rootType edits).checks registry t = .ok cs) :
    (∀ e, (Manifest.build rootType edits).resolve t cs = .error e ↔
      ∃ rule ref, (Manifest.build rootType edits).ComesTo cs rule ref ∧
        (Manifest.build rootType edits).findRule? ref = none ∧
        e = .manifest (.undeclaredReference rule.key ref)) ∧
    ∀ rule ref, (Manifest.build rootType edits).ComesTo cs rule ref →
      (Manifest.build rootType edits).findRule? ref = none →
      ∃ e, (Manifest.build rootType edits).checkReference rule.key ref = .error e ∧
        ((Manifest.build rootType edits).resolve t cs = .error (.manifest e) ↔
          ∃ item, (Manifest.build rootType edits).item? ref.item = some item) := by
  have hm := Manifest.build_sound rootType edits
  obtain ⟨top, hmat⟩ := exists_materialized ht
  refine ⟨fun e => Manifest.resolve_eq_error hmat hm hcs, fun rule ref hcomes hnone => ?_⟩
  have hstops := (Manifest.resolve_eq_error hmat hm hcs).mpr ⟨rule, ref, hcomes, hnone, rfl⟩
  refine ⟨_, Manifest.checkReference_of_unfound hnone, ?_⟩
  rw [hstops]
  cases (Manifest.build rootType edits).item? ref.item <;> simp

/-- A reference to an item that the manifest below does not have. -/
def astrayRef : RuleRef := ⟨⟨9⟩, ⟨"sealed", "Key", none⟩⟩

/-- A folder whose one rule has that reference. -/
def astrayEdits : List Edit := [.addRule ⟨0⟩ "known" none [] [astrayRef]]

theorem exists_astray :
    ∃ t cs rule, (Manifest.build "Folder" astrayEdits).materializeTo .skip 1 (.object []) = .ok t ∧
      (Manifest.build "Folder" astrayEdits).checks lockedRules t = .ok cs ∧
      (Manifest.build "Folder" astrayEdits).ComesTo cs rule astrayRef := by
  have hchecks : (((Manifest.build "Folder" astrayEdits).materializeTo .skip 1
      (.object [])).toOption.bind fun t =>
        ((Manifest.build "Folder" astrayEdits).checks lockedRules t).toOption).any
      (fun cs => cs.map (·.rule) == [⟨0⟩]) = true := by decide +kernel
  obtain ⟨cs, hsome, hrules⟩ := (Option.any_eq_true _ _).mp hchecks
  obtain ⟨t, ht, hcs⟩ := Option.bind_eq_some_iff.mp hsome
  obtain ⟨c, rfl, hc⟩ := List.map_eq_singleton_iff.mp (eq_of_beq hrules)
  refine ⟨t, [c], ⟨⟨"known", "Folder", none⟩, ⟨0⟩, [], [astrayRef]⟩, Fallible.eq_ok_of_toOption ht,
    Fallible.eq_ok_of_toOption hcs, [], c, [], [], [], rfl, ?_, rfl, nofun, nofun⟩
  rw [hc]
  rfl

/-- Of the same reference, validation says that the item is missing, and resolution does not. -/
theorem resolve_error_astray :
    ∃ t cs rule e,
      (Manifest.build "Folder" astrayEdits).materializeTo .skip 1 (.object []) = .ok t ∧
      (Manifest.build "Folder" astrayEdits).checks lockedRules t = .ok cs ∧
      (Manifest.build "Folder" astrayEdits).ComesTo cs rule astrayRef ∧
      (Manifest.build "Folder" astrayEdits).checkReference rule.key astrayRef = .error e ∧
      (Manifest.build "Folder" astrayEdits).resolve t cs ≠ .error (.manifest e) := by
  obtain ⟨t, cs, rule, ht, hcs, hcomes⟩ := exists_astray
  obtain ⟨e, he, hsame⟩ := (resolve_error "Folder" astrayEdits ht hcs).2 rule astrayRef hcomes rfl
  refine ⟨t, cs, rule, e, ht, hcs, hcomes, he, fun heq => ?_⟩
  obtain ⟨item, hitem⟩ := hsame.mp heq
  cases hitem

/-- Resolution does not report every reference that it stops at as validation does. -/
theorem resolve_not_as_validated :
    ¬ ∀ (rootType : String) (edits : List Edit) (registry : RuleRegistry) (policy : FailurePolicy)
      (depth : Nat) (document : Json) (t : ValueTree) (cs : List Check) (rule : RuleDecl)
      (ref : RuleRef) (e : ManifestError),
      (Manifest.build rootType edits).materializeTo policy depth document = .ok t →
      (Manifest.build rootType edits).checks registry t = .ok cs →
      (Manifest.build rootType edits).ComesTo cs rule ref →
      (Manifest.build rootType edits).checkReference rule.key ref = .error e →
      (Manifest.build rootType edits).resolve t cs = .error (.manifest e) := by
  intro halways
  obtain ⟨t, cs, rule, ht, hcs, hcomes⟩ := exists_astray
  obtain ⟨top, hmat⟩ := exists_materialized ht
  have hdangling := halways "Folder" astrayEdits lockedRules .skip 1 (.object []) t cs rule
    astrayRef (.danglingReference rule.key ⟨9⟩) ht hcs hcomes rfl
  have hundeclared := (Manifest.resolve_eq_error hmat
    (Manifest.build_sound "Folder" astrayEdits) hcs).mpr ⟨rule, astrayRef, hcomes, rfl, rfl⟩
  rw [hundeclared] at hdangling
  cases hdangling

end Vetting
