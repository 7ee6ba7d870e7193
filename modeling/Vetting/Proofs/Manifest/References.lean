import Vetting.Proofs.Manifest.Stability

/-!
# References and the rules that they name

A rule gives out a reference (`Manifest.refOf?`), and a reference is looked up by the first rule of
its item with its key (`Manifest.findRule?`). The two undo each other, at the time and ever after:
an item lists every rule that is declared for it, keys of an item are unique, and what is found
stays found (`GrowsInto.findRule?`). So a manifest in which every reference was given out by a rule
of that manifest has no fault but the levels of its recursive items (`references_name_rules`).

References come into a manifest by edits only (`Edit.references`), which is an induction on the
edits with one case for each way of changing the arena.
-/

namespace Vetting

/-- The references that an edit brings into a manifest. -/
def Edit.references : Edit → List RuleRef
  | .addRule _ _ _ _ dependencies => dependencies
  | .addDependency _ target => [target]
  | _ => []

namespace Manifest

/-- Whenever an edit was carried out, each reference that it brought along had been given out by a
rule, then or earlier in the construction. -/
def AskedFor (rootType : String) (edits : List Edit) : Prop :=
  ∀ i e result, edits[i]? = some e → (build rootType (edits.take i)).apply e = .ok result →
    ∀ ref ∈ e.references, ∃ k ≤ i, ∃ r, (build rootType (edits.take k)).refOf? r = some ref

variable {m m' : Manifest}

/-! ## Giving out and looking up -/

theorem refOf?_eq_some {r : RuleId} {ref : RuleRef} :
    m.refOf? r = some ref ↔ ∃ decl, m.rule? r = some decl ∧ ref = ⟨decl.item, decl.key⟩ := by
  rw [refOf?, Option.map_eq_some_iff]
  exact exists_congr fun decl => and_congr_right fun _ => eq_comm

/-- The item of a reference lists the rule that gave it out, and no other rule of the item has its
key. -/
theorem findRule?_iff (hm : m.Sound) {r : RuleId} {ref : RuleRef} :
    m.findRule? ref = some r ↔ m.refOf? r = some ref := by
  rw [refOf?_eq_some]
  constructor
  · intro hfind
    obtain ⟨item, decl, hi, hmem, hr, hkey⟩ := findRule?_eq_some hfind
    obtain ⟨decl', hr', hitem⟩ := ((hm.linked hi).mem_rules r).mp hmem
    obtain rfl := Option.some.inj (hr.symm.trans hr')
    exact ⟨decl, hr, by rw [hitem, hkey]⟩
  · rintro ⟨decl, hr, rfl⟩
    obtain ⟨owner, ho, -⟩ := hm.rule_owner hr
    have hmem := ((hm.linked ho).mem_rules r).mpr ⟨decl, hr, rfl⟩
    cases hfind : m.findRule? ⟨decl.item, decl.key⟩ with
    | none => exact absurd rfl (findRule?_eq_none ho hfind hmem hr)
    | some s =>
        obtain ⟨item, other, hi, hmem', hs, hkey⟩ := findRule?_eq_some hfind
        obtain ⟨other', hs', hitem⟩ := ((hm.linked hi).mem_rules s).mp hmem'
        obtain rfl := Option.some.inj (hs.symm.trans hs')
        rw [hm.key_unique hr hs hitem.symm hkey.symm]

/-- What validation asks for, in terms of what was given out. -/
theorem validate_iff (hm : m.Sound) :
    m.validate = .ok () ↔ m.LevelsThere ∧
      ∀ r decl, m.rule? r = some decl → ∀ ref ∈ decl.dependencies,
        ∃ s, m.refOf? s = some ref := by
  simp only [validate_eq_ok, findRule?_iff hm]
  refine and_congr_left fun _ => ?_
  constructor
  · exact fun h id item levels hi hl => (exists_definition_iff hm hi).mp (h id item hi) levels hl
  · exact fun h id item hi =>
      (exists_definition_iff hm hi).mpr fun levels hl => h id item levels hi hl

/-! ## Where references come from -/

theorem Step.references {e : Edit} (h : m.Step m' e) {r : RuleId} {decl : RuleDecl}
    (hr : m'.rule? r = some decl) {ref : RuleRef} (href : ref ∈ decl.dependencies) :
    (∃ old, m.rule? r = some old ∧ ref ∈ old.dependencies) ∨ ref ∈ e.references := by
  cases h with
  | adds _ _ _ h => exact .inl ⟨decl, h.rule? r ▸ hr, href⟩
  | changes _ h =>
      subst h
      exact .inl ⟨decl, hr, href⟩
  | declares h =>
      rcases h.cases_rule? hr with ⟨-, rfl⟩ | ⟨-, hr⟩
      · exact .inr href
      · exact .inl ⟨decl, hr, href⟩
  | depends h =>
      rw [h.rule?] at hr
      split at hr
      · obtain ⟨old, hold, rfl⟩ := Option.map_eq_some_iff.mp hr
        rcases List.mem_append.mp href with href | href
        · exact .inl ⟨old, hold, href⟩
        · exact .inr href
      · exact .inl ⟨decl, hr, href⟩

/-- Every reference in a manifest was brought along by an edit that was carried out. -/
theorem exists_edit_of_reference (rootType : String) (edits : List Edit) {r : RuleId}
    {decl : RuleDecl} (hr : (build rootType edits).rule? r = some decl) {ref : RuleRef}
    (href : ref ∈ decl.dependencies) :
    ∃ i e result, edits[i]? = some e ∧
      (build rootType (edits.take i)).apply e = .ok result ∧ ref ∈ e.references := by
  induction edits using List.reverseRecOn generalizing decl with
  | nil => simp [build, ofType, rule?] at hr
  | append_singleton edits e ih =>
      -- An edit of before keeps its number and what was built before it.
      have hbefore : ∀ {old}, (build rootType edits).rule? r = some old → ref ∈ old.dependencies →
          ∃ i e' result, (edits ++ [e])[i]? = some e' ∧
            (build rootType ((edits ++ [e]).take i)).apply e' = .ok result ∧
            ref ∈ e'.references := by
        intro old hold href
        obtain ⟨i, e', result, he', hok, hbrought⟩ := ih hold href
        have hi := (List.getElem?_eq_some_iff.mp he').1
        refine ⟨i, e', result, ?_, ?_, hbrought⟩
        · rw [List.getElem?_append_left hi, he']
        · rw [List.take_append_of_le_length (Nat.le_of_lt hi), hok]
      rw [build, List.foldl_append, List.foldl_cons, List.foldl_nil, ← build, edit] at hr
      split at hr
      · rename_i m' receipt happly
        rcases (apply_step happly).references hr href with ⟨old, hold, href⟩ | hbrought
        · exact hbefore hold href
        · refine ⟨edits.length, e, (m', receipt), by simp, ?_, hbrought⟩
          rw [List.take_left', happly]
          rfl
      · exact hbefore hr href

/-- Rules give out the same references ever after. -/
theorem GrowsInto.refOf? (h : m.GrowsInto m') {r : RuleId} {ref : RuleRef}
    (href : m.refOf? r = some ref) : m'.refOf? r = some ref := by
  obtain ⟨decl, hr, rfl⟩ := refOf?_eq_some.mp href
  obtain ⟨decl', hr', hcont⟩ := h.rule? hr
  exact refOf?_eq_some.mpr ⟨decl', hr', by rw [hcont.item, hcont.key]⟩

theorem AskedFor.exists_refOf? {rootType : String} {edits : List Edit}
    (h : AskedFor rootType edits) {r : RuleId} {decl : RuleDecl}
    (hr : (build rootType edits).rule? r = some decl) {ref : RuleRef}
    (href : ref ∈ decl.dependencies) : ∃ s, (build rootType edits).refOf? s = some ref := by
  obtain ⟨i, e, result, he, hok, hbrought⟩ := exists_edit_of_reference rootType edits hr href
  obtain ⟨k, -, s, hs⟩ := h i e result he hok ref hbrought
  have hgrows := build_growsInto rootType (edits.take k) (edits.drop k)
  rw [List.take_append_drop] at hgrows
  exact ⟨s, hgrows.refOf? hs⟩

end Manifest

/-- **A reference names one rule.** Whatever edits built the manifest, a reference finds a rule
exactly if the rule gave it out, and it finds the same rule whatever edits follow. A manifest is fit
for use exactly if its recursive items have the levels that they ask for and every reference was
given out by a rule; so it is if all references were asked for on the way. -/
theorem references_name_rules (rootType : String) (edits : List Edit) :
    let m := Manifest.build rootType edits
    (∀ ref r, m.findRule? ref = some r ↔ m.refOf? r = some ref) ∧
    (∀ r decl, m.rule? r = some decl →
      ∃ ref, m.refOf? r = some ref ∧ ref.item = decl.item ∧ ref.key = decl.key ∧
        ∀ more, (Manifest.build rootType (edits ++ more)).findRule? ref = some r) ∧
    (m.validate = .ok () ↔ m.LevelsThere ∧ ∀ r decl, m.rule? r = some decl →
      ∀ ref ∈ decl.dependencies, ∃ s, m.refOf? s = some ref) ∧
    (m.LevelsThere → Manifest.AskedFor rootType edits → m.validate = .ok ()) := by
  intro m
  have hm := Manifest.build_sound rootType edits
  refine ⟨fun ref r => Manifest.findRule?_iff hm, fun r decl hr => ?_, Manifest.validate_iff hm,
    fun hlevels hasked => ?_⟩
  · have href := Manifest.refOf?_eq_some.mpr ⟨decl, hr, rfl⟩
    refine ⟨_, href, rfl, rfl, fun more => ?_⟩
    exact (Manifest.build_growsInto rootType edits more).findRule? hm
      ((Manifest.findRule?_iff hm).mpr href)
  · exact (Manifest.validate_iff hm).mpr
      ⟨hlevels, fun r decl hr ref href => hasked.exists_refOf? hr href⟩

/-- Rules for nodes and their children, two of them of one type. The rule of nodes refers to one of
the two when it is declared, and to the other, which is declared later, by an edit of its own. -/
def citingEdits : List Edit := nodeEdits ++ [
  .setRecursiveElement ⟨2⟩ .standard 2,
  .addRule ⟨1⟩ "sorted" (some "by name") [] [],
  .addRule ⟨0⟩ "whole" none [] [⟨⟨1⟩, ⟨"sorted", "Nodes", some "by name"⟩⟩],
  .addRule ⟨1⟩ "sorted" none [] [],
  .addDependency ⟨1⟩ ⟨⟨1⟩, ⟨"sorted", "Nodes", none⟩⟩]

theorem references_name_rules_citing :
    Manifest.AskedFor "Node" citingEdits ∧ (Manifest.build "Node" citingEdits).validate = .ok () ∧
      (Manifest.build "Node" citingEdits).findRule? ⟨⟨1⟩, ⟨"sorted", "Nodes", none⟩⟩ =
        some ⟨2⟩ := by
  have hall := references_name_rules "Node" citingEdits
  have hlevels : (Manifest.build "Node" citingEdits).LevelsThere := fun id item levels hi =>
    (Manifest.exists_definition_iff (Manifest.build_sound _ _) hi).mp
      (Manifest.definitions_eq_ok.mp (Fallible.eq_ok_of_toOption (by decide +kernel)) id item hi)
      levels
  have hasked : Manifest.AskedFor "Node" citingEdits := by
    intro i e result he _ ref href
    match i with
    | 0 | 1 | 2 | 3 | 5 =>
        cases he
        cases href
    | 4 =>
        cases he
        obtain rfl := List.mem_singleton.mp href
        exact ⟨4, Nat.le_refl 4, ⟨0⟩, by decide +kernel⟩
    | 6 =>
        cases he
        obtain rfl := List.mem_singleton.mp href
        exact ⟨6, Nat.le_refl 6, ⟨2⟩, by decide +kernel⟩
    | n + 7 => cases he
  exact ⟨hasked, hall.2.2.2 hlevels hasked, (hall.1 _ _).mpr (by decide +kernel)⟩

end Vetting
