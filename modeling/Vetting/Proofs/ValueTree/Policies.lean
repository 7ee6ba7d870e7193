import Vetting.Proofs.Manifest.Stability
import Vetting.Proofs.ValueTree.Termination

/-!
# The policy matters only where something fails

What becomes of a value that cannot be read is asked only where a value cannot be read. A tree that
was unfolded while failures stop the unfolding met no failure but those for which an item has a
policy of its own, and no other policy of the run gets to decide anything in it
(`unfoldTo_of_propagate`). The readings below a value that stands in for another are no exception,
since they are readings like all others. Conversely, an unfolding in which no item passes failures
on can stop for want of depth only (`exists_materializeTo`).
-/

namespace Vetting

namespace Manifest

variable {m : Manifest}

/-! ## Where failures would have stopped the unfolding -/

/-- What a slot offers though failures are passed on, it offers under every policy. -/
theorem offered_of_propagate {policy : FailurePolicy} {value : Json} {slot : ItemId}
    {offered : List (Option Nat × Json)} (h : m.offered .propagate value slot = .ok offered) :
    m.offered policy value slot = .ok offered := by
  obtain ⟨item, hitem, h⟩ := Fallible.bind_eq_ok.mp h
  refine Fallible.bind_eq_ok.mpr ⟨item, hitem, ?_⟩
  cases hown : item.onFailure with
  | some own =>
      rw [hown] at h
      exact h
  | none =>
      rw [hown, Option.getD_none] at h
      cases hs : item.source with
      | root | «variant» => simpa only [hs] using h
      | member name reader levels =>
          simp only [hs] at h ⊢
          cases hread : reader.read value with
          | ok found => simpa only [hread] using h
          | error failure => simp [hread] at h
      | element enumerator levels =>
          simp only [hs] at h ⊢
          cases hread : enumerator.elements value with
          | ok elements => simpa only [hread] using h
          | error failure => simp [hread] at h

theorem sprout_imp {expand expand' : Reading → Except SetupError Branch}
    (h : ∀ r b, expand r = .ok b → expand' r = .ok b) {lineage : List Reading} {slot : ItemId}
    {offer : Option Nat × Json} {result : Option Branch}
    (hsprout : m.sprout expand lineage slot offer = .ok result) :
    m.sprout expand' lineage slot offer = .ok result := by
  obtain ⟨below, hbelow, hresult⟩ := sprout_eq_ok.mp hsprout
  refine sprout_eq_ok.mpr ⟨below, hbelow, ?_⟩
  split
  · rw [if_pos ‹_›] at hresult
    obtain ⟨b, hb, rfl⟩ := hresult
    exact ⟨b, h below b hb, rfl⟩
  · rwa [if_neg ‹_›] at hresult

theorem fill_of_propagate {policy : FailurePolicy}
    {expand expand' : Reading → Except SetupError Branch}
    (h : ∀ r b, expand r = .ok b → expand' r = .ok b) {lineage : List Reading} {value : Json}
    {slot : ItemId} {group : List Branch}
    (hfill : m.fill .propagate expand lineage value slot = .ok group) :
    m.fill policy expand' lineage value slot = .ok group := by
  obtain ⟨offered, hoffered, hfill⟩ := Fallible.bind_eq_ok.mp hfill
  obtain ⟨sprouted, hsprouted, hgroup⟩ := Fallible.bind_eq_ok.mp hfill
  have hsprouted' : offered.mapM (m.sprout expand' lineage slot) = .ok sprouted :=
    Fallible.mapM_eq_ok.mpr ((Fallible.mapM_eq_ok.mp hsprouted).imp fun _ _ => sprout_imp h)
  exact Fallible.bind_eq_ok.mpr ⟨offered, offered_of_propagate hoffered,
    Fallible.bind_eq_ok.mpr ⟨sprouted, hsprouted', hgroup⟩⟩

theorem grow_of_propagate {policy : FailurePolicy} {depth : Nat} {ancestors : List Reading}
    {r : Reading} {b : Branch} (h : m.grow .propagate depth ancestors r = .ok b) :
    m.grow policy depth ancestors r = .ok b := by
  induction depth generalizing ancestors r b with
  | zero => cases h
  | succ depth ih =>
      rw [grow] at h ⊢
      split
      · rwa [if_pos ‹_›] at h
      · rw [if_neg ‹_›] at h
        obtain ⟨groups, hgroups, hb⟩ := Fallible.bind_eq_ok.mp h
        refine Fallible.bind_eq_ok.mpr ⟨groups, Fallible.mapM_eq_ok.mpr ?_, hb⟩
        exact (Fallible.mapM_eq_ok.mp hgroups).imp fun _ _ =>
          fill_of_propagate fun _ _ hgrow => ih hgrow

/-- What was unfolded though failures are passed on is unfolded alike under every policy. -/
theorem unfoldTo_of_propagate {policy : FailurePolicy} {depth : Nat} {document : Json} {b : Branch}
    (h : m.unfoldTo .propagate depth document = .ok b) :
    m.unfoldTo policy depth document = .ok b := by
  obtain ⟨r, hr, h⟩ := Fallible.bind_eq_ok.mp h
  exact Fallible.bind_eq_ok.mpr ⟨r, hr, grow_of_propagate h⟩

theorem materializeTo_of_propagate {policy : FailurePolicy} {depth : Nat} {document : Json}
    {t : ValueTree} (h : m.materializeTo .propagate depth document = .ok t) :
    m.materializeTo policy depth document = .ok t := by
  obtain ⟨top, htop, rfl⟩ := Fallible.map_eq_ok.mp h
  exact Fallible.map_eq_ok.mpr ⟨top, unfoldTo_of_propagate htop, rfl⟩

/-! ## Where no failure stops the unfolding -/

theorem LevelsThere.defined (h : m.LevelsThere) (hm : m.Sound) : m.Defined := fun id item hi =>
  (exists_definition_iff hm hi).mpr fun levels hl => h id item levels hi hl

/-- Where every item has a definition and none passes failures on, all that can stop the unfolding
is want of depth. -/
theorem exists_materializeTo {policy : FailurePolicy} (hm : m.Sound) (hdefined : m.Defined)
    (hlenient : ∀ id, ¬m.PassesOn policy id) {depth : Nat} {document : Json}
    (h : Answered (m.materializeTo policy depth document)) :
    ∃ t, m.materializeTo policy depth document = .ok t := by
  cases ht : m.materializeTo policy depth document with
  | ok t => exact ⟨t, rfl⟩
  | error e =>
      rcases unfoldTo_error hm hdefined (materializeTo_eq_error.mp ht) with
        ⟨id, failure, -, hpasses⟩ | ⟨item, rfl⟩
      · exact absurd hpasses (hlenient id)
      · exact absurd ht (h item)

end Manifest

/-- **The policy matters only where something fails.** Whatever edits built the manifest, a tree
that is materialized though failures are passed on is materialized value for value under every other
policy of the run. And where every recursive item has the levels that it asks for and no member or
element passes its failures on, every document that the values can be followed through has a tree,
which is every document if readers and enumerators are confined. -/
theorem policy_on_failure (rootType : String) (edits : List Edit) (policy : FailurePolicy) :
    let m := Manifest.build rootType edits
    (∀ document t, m.materialize .propagate document = .ok t →
      m.materialize policy document = .ok t) ∧
    (∀ depth document t, m.materializeTo .propagate depth document = .ok t →
      m.materializeTo policy depth document = .ok t) ∧
    (m.LevelsThere → (∀ id, ¬m.PassesOn policy id) → ∀ document,
      (∀ depth, Answered (m.materializeTo policy depth document) →
        ∃ t, m.materializeTo policy depth document = .ok t) ∧
      (m.Confined → ∃ t, m.materialize policy document = .ok t)) := by
  intro m
  have hm := Manifest.build_sound rootType edits
  refine ⟨fun document t => Manifest.materializeTo_of_propagate,
    fun depth document t => Manifest.materializeTo_of_propagate,
    fun hlevels hlenient document => ?_⟩
  have hanswered := fun depth (h : Answered (m.materializeTo policy depth document)) =>
    Manifest.exists_materializeTo hm (hlevels.defined hm) hlenient h
  refine ⟨hanswered, fun hconfined => hanswered _ ?_⟩
  exact (materialize_answered rootType edits policy document hconfined).1

/-- The folder with an owner that cannot be read, for which "nobody" stands in. -/
def ownedEdits : List Edit := folderEdits ++ [
  .setFallback ⟨5⟩ (.string "nobody"),
  .setPolicy ⟨5⟩ .useDefault]

/-- The owner fails, and yet the failures of all other items are free to be passed on; a text, of
which no field can be read, is no error if failures are skipped. -/
theorem policy_on_failure_owned :
    let m := Manifest.build "Folder" ownedEdits
    (∃ t, m.materialize .propagate folder = .ok t ∧ m.materialize .skip folder = .ok t) ∧
      m.LevelsThere ∧ (∀ id, ¬m.PassesOn .skip id) ∧ m.Confined ∧
      ∃ t, m.materialize .skip (.string "text") = .ok t := by
  intro m
  have hm := Manifest.build_sound "Folder" ownedEdits
  have hsources : m.items.toList.map (·.source) =
      [.root, .member "entries" (.field "entries") none, .element .standard (some 2),
        .variant (.withField "Locked" "key"), .member "key" (.field "key") none,
        .member "owner" (.failing "offline") none, .member "link" .itself (some 1)] := rfl
  have hconfined : m.Confined := by
    refine Manifest.confined_of_sources hsources ?_
    simp only [List.forall_mem_cons, List.not_mem_nil, false_implies, implies_true, and_true]
    exact ⟨trivial, Reader.confined_field _, Enumerator.confined_standard, trivial,
      Reader.confined_field _, Reader.confined_failing _, Reader.confined_itself⟩
  have hdefined : m.Defined :=
    Manifest.defined_of_valid (Fallible.eq_ok_of_toOption (by decide +kernel))
  have hlevels : m.LevelsThere := fun id item levels hi =>
    (Manifest.exists_definition_iff hm hi).mp (hdefined id item hi) levels
  have hlenient : ∀ id, ¬m.PassesOn .skip id := by
    rintro id ⟨item, hi, -, hpolicy⟩
    have hmem : item ∈ m.items.toList := Array.mem_toList_iff.mpr (Array.mem_of_getElem? hi)
    have hall : m.items.toList.all (·.onFailure.getD .skip != .propagate) = true := by
      decide +kernel
    simpa [hpolicy] using List.all_eq_true.mp hall item hmem
  have hsome : ((m.materialize .propagate folder).toOption).isSome = true := by decide +kernel
  obtain ⟨t, ht⟩ := Option.isSome_iff_exists.mp hsome
  have hanyway := policy_on_failure "Folder" ownedEdits .skip
  have htree := Fallible.eq_ok_of_toOption ht
  exact ⟨⟨t, htree, hanyway.1 folder t htree⟩, hlevels, hlenient, hconfined,
    (hanyway.2.2 hlevels hlenient _).2 hconfined⟩

end Vetting
