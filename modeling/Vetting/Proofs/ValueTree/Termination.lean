import Mathlib.Data.List.Perm.Subperm
import Mathlib.Data.List.ProdSigma
import Vetting.Proofs.ValueTree.Confined
import Vetting.Proofs.ValueTree.Failure
import Vetting.Proofs.ValueTree.Unfolded

/-!
# Unfolding comes to an end

Nothing need get smaller on the way down a value tree: a recursive item may read the value itself, a
constant, or the same default again and again. What ends the way is that a recursive item keeps no
reading that an ancestor with its definition and its value has made before. A lineage
(`Descends`) therefore has no two recursive readings with one pair of definition and value
(`pairs_nodup`), and the values of a confined manifest come from a finite pool. Between two
recursive readings the definitions have ascending numbers, so that a lineage has a bounded length
(`length_lt_reach`), and unfolding never runs out of depth (`materialize_answered`).
-/

namespace Vetting

namespace Manifest

variable {m : Manifest} {policy : FailurePolicy} {document : Json} {pool : List Json}

/-! ## Lineages -/

/-- The readings from some value up to the root, the closest first, as unfolding makes them. -/
inductive Descends (m : Manifest) (pool : List Json) : List Reading → Prop
  | top {r : Reading} (hr : m.IsReading r) (hv : r.value ∈ pool) : Descends m pool [r]
  | down {r p : Reading} {ancestors : List Reading} (h : Descends m pool (p :: ancestors))
      (hr : m.IsReading r) (hv : r.value ∈ pool) (hslot : r.item ∈ p.applied.flatMap m.slots)
      (hkeeps : m.keeps (p :: ancestors) r.item r = true) : Descends m pool (r :: p :: ancestors)

/-- The readings of recursive items. -/
def returns (m : Manifest) (lineage : List Reading) : List Reading :=
  lineage.filter fun r => m.isRecursive r.item

theorem returns_cons_of_recursive {r : Reading} (h : m.isRecursive r.item = true)
    (lineage : List Reading) : m.returns (r :: lineage) = r :: m.returns lineage :=
  List.filter_cons_of_pos h

theorem returns_cons_of_not {r : Reading} (h : m.isRecursive r.item = false)
    (lineage : List Reading) : m.returns (r :: lineage) = m.returns lineage :=
  List.filter_cons_of_neg (by rw [h]; exact Bool.false_ne_true)

/-- A reading with the definition and the value of an earlier one repeats it. -/
theorem repeats_of_eq {later earlier : Reading} (hl : m.IsReading later)
    (he : m.IsReading earlier) (hdefinition : later.definition = earlier.definition)
    (hvalue : later.value = earlier.value) : later.repeats earlier = true := by
  obtain ⟨a, ha, hidl⟩ := hl.identity
  obtain ⟨b, hb, hide⟩ := he.identity
  rw [hdefinition] at ha
  obtain rfl := Option.some.inj (ha.symm.trans hb)
  have hidentity : later.identity = earlier.identity := by rw [hidl, hide, hvalue]
  unfold Reading.repeats
  rw [hdefinition, hidentity, hvalue]
  cases earlier.identity <;> simp [Json.same_refl]

/-- Without recursion definitions get greater numbers on the way down. -/
theorem definition_lt_of_slot (hm : m.Sound) {r p : Reading} (hr : m.IsReading r)
    (hp : m.IsReading p) (hslot : r.item ∈ p.applied.flatMap m.slots)
    (hrec : m.isRecursive r.item = false) : p.definition.index < r.definition.index := by
  obtain ⟨a, ha, hslot⟩ := List.mem_flatMap.mp hslot
  obtain ⟨item, hi, hparent, -⟩ := slot_spec hm hslot
  have hle : p.definition.index ≤ a.index := by
    have happlied := hp.applied
    split at happlied
    · rw [happlied] at ha
      exact Nat.le_of_eq (congrArg _ (List.mem_singleton.mp ha).symm)
    · exact le_of_mem_applied hm (happlied ▸ ha)
  have hlt := (hm.parent_some hi hparent).1
  obtain ⟨item', hi', ⟨-, hown⟩ | ⟨n, hlevels, -⟩⟩ := definition_eq_ok.mp hr.definition
  · rw [← hown]
    omega
  · rw [isRecursive_of_item? hi', Source.isRecursive, hlevels] at hrec
    cases hrec

namespace Descends

variable {r : Reading} {lineage ancestors : List Reading}

theorem isReading (h : m.Descends pool lineage) {e : Reading} (he : e ∈ lineage) :
    m.IsReading e ∧ e.value ∈ pool := by
  induction h with
  | top hr hv => exact List.mem_singleton.mp he ▸ ⟨hr, hv⟩
  | down _ hr hv _ _ ih =>
      rcases List.mem_cons.mp he with rfl | he
      · exact ⟨hr, hv⟩
      · exact ih he

theorem definition_lt (h : m.Descends pool lineage) {e : Reading} (he : e ∈ lineage) :
    e.definition.index < m.items.size := by
  obtain ⟨defining, hd, -⟩ := (h.isReading he).1.identity
  exact item?_lt hd

/-- No two recursive readings of a lineage have the same definition and the same value. -/
theorem pairs_nodup (h : m.Descends pool lineage) :
    ((m.returns lineage).map fun r => (r.definition, r.value)).Nodup := by
  induction h with
  | @top r => cases hrec : m.isRecursive r.item <;> simp [returns, hrec]
  | @down r p ancestors h hr hv hslot hkeeps ih =>
      cases hrec : m.isRecursive r.item with
      | false => rwa [returns_cons_of_not hrec]
      | true =>
          have hnew : ∀ e ∈ p :: ancestors, r.repeats e = false := by
            simpa [keeps, hrec] using hkeeps
          rw [returns_cons_of_recursive hrec, List.map_cons, List.nodup_cons]
          refine ⟨fun hmem => ?_, ih⟩
          obtain ⟨e, he, heq⟩ := List.mem_map.mp hmem
          obtain ⟨hdefinition, hvalue⟩ := Prod.mk.inj heq
          have hlineage := List.mem_of_mem_filter he
          have hrepeats := repeats_of_eq hr (h.isReading hlineage).1 hdefinition.symm hvalue.symm
          rw [hnew e hlineage] at hrepeats
          cases hrepeats

theorem length_returns_le (h : m.Descends pool lineage) :
    (m.returns lineage).length ≤ m.items.size * pool.length := by
  have hsub : (m.returns lineage).map (fun r => (r.definition, r.value)) ⊆
      ((List.range m.items.size).map ItemId.mk) ×ˢ pool := by
    intro pair hpair
    obtain ⟨e, he, rfl⟩ := List.mem_map.mp hpair
    have hlineage := List.mem_of_mem_filter he
    refine List.mem_product.mpr ⟨?_, (h.isReading hlineage).2⟩
    exact List.mem_map.mpr ⟨_, List.mem_range.mpr (h.definition_lt hlineage), rfl⟩
  have hle := (h.pairs_nodup.subperm hsub).length_le
  simpa [List.length_product] using hle

/-- Between two recursive readings the definitions have ascending numbers. -/
theorem length_le (h : m.Descends pool lineage) (hm : m.Sound) (hhead : lineage.head? = some r) :
    lineage.length ≤ (m.returns lineage).length * m.items.size + r.definition.index + 1 := by
  induction h generalizing r with
  | top => simp
  | @down r' p ancestors h hr hv hslot hkeeps ih =>
      obtain rfl : r' = r := Option.some.inj hhead
      have hbelow := ih rfl
      have hp := h.isReading (e := p) List.mem_cons_self
      have hlt := h.definition_lt (e := p) List.mem_cons_self
      cases hrec : m.isRecursive r'.item with
      | false =>
          have := definition_lt_of_slot hm hr hp.1 hslot hrec
          rw [returns_cons_of_not hrec, List.length_cons]
          omega
      | true =>
          have hmore : (m.returns (r' :: p :: ancestors)).length =
              (m.returns (p :: ancestors)).length + 1 := by
            rw [returns_cons_of_recursive hrec, List.length_cons]
          rw [hmore, Nat.succ_mul, List.length_cons]
          omega

theorem length_lt_reach (h : m.Descends (m.pool document) lineage) (hm : m.Sound) :
    lineage.length < m.reach document := by
  have hreturns := h.length_returns_le
  rw [length_pool] at hreturns
  have hne : ∃ r, lineage.head? = some r ∧ r ∈ lineage := by
    cases h with
    | top => exact ⟨_, rfl, List.mem_cons_self⟩
    | down => exact ⟨_, rfl, List.mem_cons_self⟩
  obtain ⟨r, hhead, hr⟩ := hne
  have hlength := h.length_le hm hhead
  have hlt := h.definition_lt hr
  calc lineage.length
      ≤ (m.returns lineage).length * m.items.size + r.definition.index + 1 := hlength
    _ ≤ m.items.size * m.supply document * m.items.size + m.items.size := by
        have := Nat.mul_le_mul_right m.items.size hreturns
        omega
    _ < m.reach document := by
        unfold reach
        rw [Nat.succ_mul, Nat.mul_add, Nat.mul_comm _ m.items.size]
        omega

end Descends

/-! ## What slots offer -/

theorem offered_ne_endless {value : Json} {slot item : ItemId} :
    m.offered policy value slot ≠ .error (.endless item) := by
  intro h
  rcases Fallible.bind_eq_error.mp h with hget | ⟨found, hget, -⟩
  · obtain ⟨_, -, he⟩ := SetupError.ofManifest_eq_error.mp hget
    cases he
  · have hi := get_eq_ok.mp (SetupError.ofManifest_eq_ok.mp hget)
    obtain ⟨_, _, he, -⟩ := offered_error hi h
    cases he

/-- All that the items of a confined manifest offer comes from the pool. -/
theorem offered_mem_pool (hconfined : m.Confined) {value : Json} {slot : ItemId}
    {offered : List (Option Nat × Json)} {offer : Option Nat × Json}
    (hv : value ∈ m.pool document) (h : m.offered policy value slot = .ok offered)
    (hoffer : offer ∈ offered) : offer.2 ∈ m.pool document := by
  obtain ⟨item, hget, hbody⟩ := Fallible.bind_eq_ok.mp h
  have hi := get_eq_ok.mp (SetupError.ofManifest_eq_ok.mp hget)
  have hsource := hconfined slot item hi
  cases hs : item.source with
  | root | «variant» =>
      simp only [hs] at hbody
      cases hbody
      cases hoffer
  | member name reader levels =>
      rw [hs] at hsource
      have hfixed : ∀ w ∈ reader.fixed, w ∈ constants item := fun w hw => by
        simp [constants, hs, hw]
      obtain ⟨outcome, houtcome, rfl⟩ := offered_member hi hs h
      cases houtcome with
      | @read found hread =>
          obtain rfl := List.mem_singleton.mp hoffer
          exact mem_pool_of_yields hi hfixed hv (hsource value found hread)
      | fallback =>
          obtain rfl := List.mem_singleton.mp hoffer
          exact constant_mem_pool hi List.mem_cons_self
      | skipped => cases hoffer
  | element enumerator levels =>
      rw [hs] at hsource
      have hfixed : ∀ w ∈ enumerator.fixed, w ∈ constants item := fun w hw => by
        simp [constants, hs, hw]
      obtain ⟨elements, houtcome, rfl⟩ := offered_element hi hs h
      obtain ⟨⟨found, place⟩, hmem, rfl⟩ := List.mem_map.mp hoffer
      cases houtcome with
      | read hread =>
          have hfound := List.fst_mem_of_mem_zipIdx hmem
          exact mem_pool_of_yields hi hfixed hv (hsource value elements hread found hfound)
      | failed => cases hmem

/-! ## Depth suffices -/

/-- A slot runs out of depth only below a reading that it keeps. -/
theorem fill_endless {expand : Reading → Except SetupError Branch} {lineage : List Reading}
    {value : Json} {slot item : ItemId}
    (h : m.fill policy expand lineage value slot = .error (.endless item)) :
    ∃ offered, m.offered policy value slot = .ok offered ∧ ∃ offer ∈ offered, ∃ below,
      m.reading slot offer.1 offer.2 = .ok below ∧ m.keeps lineage slot below = true ∧
      expand below = .error (.endless item) := by
  rcases Fallible.bind_eq_error.mp h with h | ⟨offered, hoffered, h⟩
  · exact absurd h offered_ne_endless
  · rcases Fallible.bind_eq_error.mp h with h | ⟨_, -, h⟩
    · obtain ⟨offer, hoffer, h⟩ := Fallible.mapM_eq_error h
      rcases Fallible.bind_eq_error.mp h with h | ⟨below, hbelow, h⟩
      · obtain ⟨_, -, he⟩ := SetupError.ofManifest_eq_error.mp h
        cases he
      · refine ⟨offered, hoffered, offer, hoffer, below, SetupError.ofManifest_eq_ok.mp hbelow, ?_⟩
        split at h
        · exact ⟨‹_›, Fallible.map_eq_error.mp h⟩
        · cases h
    · cases h

/-- As long as a lineage and the depth left make up the bound, growth does not run out of depth. -/
theorem grow_answered (hm : m.Sound) (hconfined : m.Confined) {depth : Nat} {r : Reading}
    {ancestors : List Reading} (h : m.Descends (m.pool document) (r :: ancestors))
    (hdepth : m.reach document ≤ depth + ancestors.length) :
    Answered (m.grow policy depth ancestors r) := by
  induction depth generalizing r ancestors with
  | zero =>
      have := h.length_lt_reach hm
      rw [List.length_cons] at this
      omega
  | succ depth ih =>
      intro item
      rw [grow]
      split
      · intro he
        cases he
      · intro he
        rcases Fallible.bind_eq_error.mp he with he | ⟨_, -, he⟩
        · obtain ⟨slot, hslot, he⟩ := Fallible.mapM_eq_error he
          obtain ⟨offered, hoffered, offer, hoffer, below, hbelow, hkeeps, he⟩ := fill_endless he
          obtain ⟨hread, hitem, -, hvalue⟩ := reading_eq_ok.mp hbelow
          have hr := h.isReading (e := r) List.mem_cons_self
          have hpool := offered_mem_pool hconfined hr.2 hoffered hoffer
          refine ih (h.down hread (hvalue ▸ hpool) (hitem ▸ hslot) (hitem ▸ hkeeps)) ?_ item he
          rw [List.length_cons]
          omega
        · cases he

theorem unfoldTo_answered (hm : m.Sound) (hconfined : m.Confined) {depth : Nat}
    (hdepth : m.reach document ≤ depth) : Answered (m.unfoldTo policy depth document) := by
  intro item he
  rcases Fallible.bind_eq_error.mp he with he | ⟨r, hr, he⟩
  · obtain ⟨_, -, he⟩ := SetupError.ofManifest_eq_error.mp he
    cases he
  · obtain ⟨hread, -, -, hvalue⟩ := reading_eq_ok.mp (SetupError.ofManifest_eq_ok.mp hr)
    have htop : m.Descends (m.pool document) [r] :=
      .top hread (hvalue ▸ m.document_mem_pool document)
    exact grow_answered hm hconfined htop hdepth item he

end Manifest

/-- **Materialization comes to an end.** Whatever edits built a manifest, and whatever the policy
and the document: if readers and enumerators return only parts of their argument, null and
constants of their own, the values are followed to the end, and the answer, a tree or an error, is
the one that every greater depth gives. Nothing is asked of identities, recognizers, defaults and
levels. -/
theorem materialize_answered (rootType : String) (edits : List Edit) (policy : FailurePolicy)
    (document : Json) (hconfined : (Manifest.build rootType edits).Confined) :
    Answered ((Manifest.build rootType edits).materialize policy document) ∧
      ∀ depth, (Manifest.build rootType edits).reach document ≤ depth →
        (Manifest.build rootType edits).materializeTo policy depth document =
          (Manifest.build rootType edits).materialize policy document := by
  have hm := Manifest.build_sound rootType edits
  have hunfold : Answered ((Manifest.build rootType edits).unfoldTo policy
      ((Manifest.build rootType edits).reach document) document) :=
    Manifest.unfoldTo_answered hm hconfined (Nat.le_refl _)
  refine ⟨fun item he => ?_, fun depth hdepth => ?_⟩
  · exact hunfold item (Manifest.materializeTo_eq_error.mp he)
  · unfold Manifest.materialize Manifest.materializeTo
    rw [Manifest.unfoldTo_mono hdepth hunfold]

/-- A node that reads itself, a constant that reads itself in turn, and a link whose default has no
link either, so that the default stands in again and again. -/
def echoEdits : List Edit := [
  .addRecursiveMember ⟨0⟩ "self" .itself 1,
  .addRecursiveMember ⟨0⟩ "origin" (.const (.string "origin")) 1,
  .addRecursiveMember ⟨0⟩ "link" (.requiredField "link") 1,
  .setFallback ⟨3⟩ (.array [.null]),
  .addMember ⟨0⟩ "parts" "Parts" (.field "parts"),
  .setRecursiveElement ⟨4⟩ .standard 2]

theorem materialize_answered_echo :
    (Manifest.build "Node" echoEdits).Confined ∧
      Answered ((Manifest.build "Node" echoEdits).materialize .useDefault folder) := by
  have hsources : (Manifest.build "Node" echoEdits).items.toList.map (·.source) =
      [.root, .member "self" .itself (some 1),
        .member "origin" (.const (.string "origin")) (some 1),
        .member "link" (.requiredField "link") (some 1),
        .member "parts" (.field "parts") none, .element .standard (some 2)] := rfl
  have hconfined : (Manifest.build "Node" echoEdits).Confined := by
    refine Manifest.confined_of_sources hsources ?_
    simp only [List.forall_mem_cons, List.not_mem_nil, false_implies, implies_true, and_true]
    exact ⟨trivial, Reader.confined_itself, Reader.confined_const _,
      Reader.confined_requiredField _, Reader.confined_field _, Enumerator.confined_standard⟩
  exact ⟨hconfined, (materialize_answered "Node" echoEdits .useDefault folder hconfined).1⟩

/-- Constant and default turn up once on every way down. -/
example : (((Manifest.build "Node" echoEdits).materialize .useDefault folder).toOption.map
    (·.size)) = some 10 := by decide +kernel

end Vetting
