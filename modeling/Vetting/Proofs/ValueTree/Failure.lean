import Vetting.Proofs.Manifest.WellFormed
import Vetting.Proofs.ValueTree.Growth
import Vetting.ValueTree.Numbering

/-!
# How unfolding fails

If every item has a definition, every position can be read (`exists_reading`), so that unfolding
fails only where the data cannot be read, through an item that passes failures on, or where the
values go deeper than they are followed (`unfoldTo_error`). The latter is no answer of its own: once
a depth suffices, every greater depth gives the same answer (`unfoldTo_mono`).
-/

namespace Vetting

/-- A computation that did not stop for want of depth. -/
def Answered {α : Type} (x : Except SetupError α) : Prop := ∀ item, x ≠ .error (.endless item)

theorem Answered.of_bind {α β : Type} {x : Except SetupError α} {f : α → Except SetupError β}
    (h : Answered (x >>= f)) : Answered x := by
  rintro item rfl
  exact h item rfl

theorem Answered.of_bind_ok {α β : Type} {a : α} {f : α → Except SetupError β}
    (h : Answered (Except.ok a >>= f)) : Answered (f a) := h

/-- Computations that agree where the first has an answer. -/
def Agree {α β : Type} (f g : α → Except SetupError β) : Prop :=
  ∀ a, Answered (f a) → g a = f a

theorem Agree.bind {α β γ : Type} {f g : α → Except SetupError β} {k : β → Except SetupError γ}
    (h : Agree f g) : Agree (fun a => f a >>= k) (fun a => g a >>= k) := by
  intro a ha
  dsimp only at ha ⊢
  rw [h a ha.of_bind]

theorem Agree.mapM {α β : Type} {f g : α → Except SetupError β} (h : Agree f g) :
    Agree (fun as : List α => as.mapM f) (fun as => as.mapM g) := by
  intro as has
  induction as with
  | nil => rfl
  | cons a as ih =>
      dsimp only at has ih ⊢
      rw [List.mapM_cons] at has
      rw [List.mapM_cons, List.mapM_cons, h a has.of_bind]
      cases hfa : f a with
      | error e => rfl
      | ok b =>
          rw [hfa] at has
          rw [ih has.of_bind_ok.of_bind]

namespace Manifest

variable {m : Manifest} {policy : FailurePolicy}

/-! ## More depth -/

theorem sprout_agree {expand expand' : Reading → Except SetupError Branch}
    (h : Agree expand expand') (lineage : List Reading) (slot : ItemId) :
    Agree (m.sprout expand lineage slot) (m.sprout expand' lineage slot) := by
  intro offer hoffer
  unfold sprout at hoffer ⊢
  cases hr : SetupError.ofManifest (m.reading slot offer.1 offer.2) with
  | error e => rfl
  | ok below =>
      rw [hr] at hoffer
      have hbelow := hoffer.of_bind_ok
      show (if _ then _ else _) = (if _ then _ else _)
      split
      · rw [if_pos ‹_›] at hbelow
        have hanswered : Answered (expand below) := by
          rintro item he
          rw [he] at hbelow
          exact hbelow item rfl
        rw [h below hanswered]
      · rfl

theorem fill_agree {expand expand' : Reading → Except SetupError Branch}
    (h : Agree expand expand') (lineage : List Reading) (value : Json) :
    Agree (m.fill policy expand lineage value) (m.fill policy expand' lineage value) := by
  intro slot hslot
  unfold fill at hslot ⊢
  cases ho : m.offered policy value slot with
  | error e => rfl
  | ok offered =>
      rw [ho] at hslot
      exact (sprout_agree h lineage slot).mapM.bind offered hslot.of_bind_ok

theorem grow_agree (depth : Nat) (lineage : List Reading) :
    Agree (m.grow policy depth lineage) (m.grow policy (depth + 1) lineage) := by
  induction depth generalizing lineage with
  | zero => exact fun r hr => absurd rfl (hr r.item)
  | succ depth ih =>
      intro r hr
      rw [grow] at hr
      rw [grow, grow]
      split
      · rfl
      · rw [if_neg ‹_›] at hr
        exact (fill_agree (ih _) _ _).mapM.bind _ hr

/-- What has been unfolded to a depth that suffices is what every greater depth gives. -/
theorem unfoldTo_mono {document : Json} {depth depth' : Nat} (hle : depth ≤ depth')
    (h : Answered (m.unfoldTo policy depth document)) :
    m.unfoldTo policy depth' document = m.unfoldTo policy depth document := by
  induction hle with
  | refl => rfl
  | @step depth' _ ih =>
      rw [← ih] at h ⊢
      unfold unfoldTo at h ⊢
      cases hr : SetupError.ofManifest (m.reading root none document) with
      | error e => rfl
      | ok r =>
          rw [hr] at h
          exact grow_agree depth' [] r h.of_bind_ok

/-! ## Causes of failure -/

theorem materializeTo_eq_error {depth : Nat} {document : Json} {e : SetupError} :
    m.materializeTo policy depth document = .error e ↔
      m.unfoldTo policy depth document = .error e :=
  Fallible.map_eq_error

/-- Every item has a definition. -/
def Defined (m : Manifest) : Prop :=
  ∀ id item, m.item? id = some item → ∃ d, m.definition id = .ok d

theorem defined_of_valid (hvalid : m.validate = .ok ()) : m.Defined := (validate_eq_ok.mp hvalid).1

theorem exists_reading (hm : m.Sound) (hdefined : m.Defined) {item : ItemId}
    (hpos : m.IsPosition item) (order : Option Nat) (value : Json) :
    ∃ r, m.reading item order value = .ok r := by
  obtain ⟨i, hi, -⟩ := id hpos
  obtain ⟨d, hd⟩ := hdefined item i hi
  obtain ⟨defining, hdefining, -⟩ := definition_position hm hpos hd
  exact ⟨_, Fallible.bind_eq_ok.mpr
    ⟨d, hd, Fallible.bind_eq_ok.mpr ⟨defining, get_eq_ok.mpr hdefining, rfl⟩⟩⟩

/-- A member or element whose failures are the answer. -/
def PassesOn (m : Manifest) (policy : FailurePolicy) (id : ItemId) : Prop :=
  ∃ item, m.item? id = some item ∧ (item.source.isMember = true ∨ item.source.isElement = true) ∧
    item.onFailure.getD policy = .propagate

/-- A failure to read data through an item that passes failures on. -/
def Unreadable (m : Manifest) (policy : FailurePolicy) (e : SetupError) : Prop :=
  ∃ id failure, e = .unreadable id failure ∧ m.PassesOn policy id

theorem offered_error {value : Json} {slot : ItemId} {item : Item} {e : SetupError}
    (hi : m.item? slot = some item) (h : m.offered policy value slot = .error e) :
    m.Unreadable policy e := by
  unfold offered at h
  rw [get_eq_ok.mpr hi] at h
  simp only [SetupError.ofManifest, Except.mapError, bind, Except.bind] at h
  cases hs : item.source with
  | root | «variant» => simp [hs] at h
  | member name reader levels =>
      simp only [hs] at h
      split at h <;> cases h
      exact ⟨slot, _, rfl, item, hi, .inl (by rw [hs]; rfl), ‹_›⟩
  | element enumerator levels =>
      simp only [hs] at h
      split at h <;> cases h
      exact ⟨slot, _, rfl, item, hi, .inr (by rw [hs]; rfl), ‹_›⟩

theorem sprout_error {expand : Reading → Except SetupError Branch} {lineage : List Reading}
    {slot : ItemId} {offer : Option Nat × Json} {below : Reading} {e : SetupError}
    (hbelow : m.reading slot offer.1 offer.2 = .ok below)
    (h : m.sprout expand lineage slot offer = .error e) : expand below = .error e := by
  unfold sprout at h
  rw [SetupError.ofManifest_eq_ok.mpr hbelow] at h
  rcases Fallible.bind_eq_error.mp h with h | ⟨below', hok, h⟩
  · cases h
  · cases hok
    split at h
    · exact Fallible.map_eq_error.mp h
    · cases h

/-- A slot cannot be filled where data cannot be read, or where a reading cannot be expanded. -/
theorem fill_error (hm : m.Sound) (hdefined : m.Defined)
    {expand : Reading → Except SetupError Branch} {lineage : List Reading} {value : Json}
    {slot : ItemId} {e : SetupError} (hslot : m.IsPosition slot)
    (h : m.fill policy expand lineage value slot = .error e) :
    m.Unreadable policy e ∨
      ∃ below, m.IsReading below ∧ m.IsPosition below.item ∧ expand below = .error e := by
  obtain ⟨item, hi, -⟩ := id hslot
  rcases Fallible.bind_eq_error.mp h with hoffered | ⟨offered, -, h⟩
  · exact .inl (offered_error hi hoffered)
  · rcases Fallible.bind_eq_error.mp h with hsprouted | ⟨_, -, h⟩
    · obtain ⟨offer, -, hsprout⟩ := Fallible.mapM_eq_error hsprouted
      obtain ⟨below, hbelow⟩ := exists_reading hm hdefined hslot offer.1 offer.2
      obtain ⟨hread, hitem, -, -⟩ := reading_eq_ok.mp hbelow
      exact .inr ⟨below, hread, hitem ▸ hslot, sprout_error hbelow hsprout⟩
    · cases h

theorem grow_error (hm : m.Sound) (hdefined : m.Defined) {depth : Nat}
    {lineage : List Reading} {r : Reading} {e : SetupError} (hr : m.IsReading r)
    (hpos : m.IsPosition r.item) (h : m.grow policy depth lineage r = .error e) :
    m.Unreadable policy e ∨ ∃ item, e = .endless item := by
  induction depth generalizing lineage r with
  | zero => exact .inr ⟨r.item, (Except.error.inj h).symm⟩
  | succ depth ih =>
      rw [grow] at h
      split at h
      · cases h
      · rcases Fallible.bind_eq_error.mp h with hgroups | ⟨_, -, h⟩
        · obtain ⟨slot, hslot, hfill⟩ := Fallible.mapM_eq_error hgroups
          obtain ⟨a, -, hslot⟩ := List.mem_flatMap.mp hslot
          obtain ⟨item, hi, -, hv⟩ := slot_spec hm hslot
          rcases fill_error hm hdefined ⟨item, hi, hv⟩ hfill with hread | ⟨below, hread, hbelow, h⟩
          · exact .inl hread
          · exact ih hread hbelow h
        · cases h

/-- Unfolding fails only where data cannot be read, as far as every item has a definition and the
depth suffices. -/
theorem unfoldTo_error (hm : m.Sound) (hdefined : m.Defined) {depth : Nat}
    {document : Json} {e : SetupError} (h : m.unfoldTo policy depth document = .error e) :
    m.Unreadable policy e ∨ ∃ item, e = .endless item := by
  obtain ⟨r, hr⟩ := exists_reading hm hdefined hm.root_position none document
  obtain ⟨hread, hitem, -, -⟩ := reading_eq_ok.mp hr
  unfold unfoldTo at h
  rw [SetupError.ofManifest_eq_ok.mpr hr] at h
  exact grow_error hm hdefined hread (hitem ▸ hm.root_position) h

end Manifest

end Vetting
