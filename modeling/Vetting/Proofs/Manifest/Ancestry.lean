import Mathlib.Data.List.Chain
import Mathlib.Logic.Relation
import Vetting.Proofs.Manifest.Position

/-!
# What stands above what

The levels of a manifest form a tree, in which variants are transparent. An item *stands above*
another if climbing from the other one leads to it (`StandsAbove`). The items above one item are in
line, one to each depth (`StandsAbove.of_depth_le`), so two items have a deepest one above both,
which is where they meet (`meet_deepest`).

Paths go by the owners of items instead, and pass through variants too. They exist exactly where the
owners of an item lead up to the start, and those of their items that are no variants are the levels
in between (`path_levels`).
-/

namespace Vetting

namespace Manifest

variable {m : Manifest}

/-! ## Items above an item -/

/-- Climbing some number of levels from `b` leads to `a`. -/
def StandsAbove (m : Manifest) (a b : ItemId) : Prop := ∃ n, m.climb? n b = some a

namespace StandsAbove

theorem refl (m : Manifest) (a : ItemId) : m.StandsAbove a a := ⟨0, rfl⟩

theorem trans {a b c : ItemId} (hab : m.StandsAbove a b) (hbc : m.StandsAbove b c) :
    m.StandsAbove a c := by
  obtain ⟨j, hj⟩ := hab
  obtain ⟨k, hk⟩ := hbc
  exact ⟨k + j, climb?_trans hk hj⟩

theorem depth_le (hm : m.Sound) {a b : ItemId} (h : m.StandsAbove a b) : m.depth a ≤ m.depth b := by
  obtain ⟨n, hn⟩ := h
  have := depth_of_climb? hm hn
  omega

theorem eq_of_depth_le (hm : m.Sound) {a b : ItemId} (h : m.StandsAbove a b)
    (hd : m.depth b ≤ m.depth a) : a = b := by
  obtain ⟨n, hn⟩ := h
  have hdepth := depth_of_climb? hm hn
  obtain rfl : n = 0 := by omega
  exact (Option.some.inj hn).symm

theorem antisymm (hm : m.Sound) {a b : ItemId} (hab : m.StandsAbove a b)
    (hba : m.StandsAbove b a) : a = b :=
  hab.eq_of_depth_le hm (hba.depth_le hm)

/-- Of two items above a third, the one that is less deep is above the other. -/
theorem of_depth_le (hm : m.Sound) {x y a : ItemId} (hx : m.StandsAbove x a)
    (hy : m.StandsAbove y a) (hd : m.depth x ≤ m.depth y) : m.StandsAbove x y := by
  obtain ⟨i, hi⟩ := hx
  obtain ⟨j, hj⟩ := hy
  have hdi := depth_of_climb? hm hi
  have hdj := depth_of_climb? hm hj
  refine ⟨i - j, ?_⟩
  rw [show i = j + (i - j) by omega, climb?_add, hj] at hi
  exact hi

theorem cases_above {x a : ItemId} (h : m.StandsAbove x a) :
    x = a ∨ ∃ u, m.above? a = some u ∧ m.StandsAbove x u := by
  obtain ⟨n, hn⟩ := h
  cases n with
  | zero => exact .inl (Option.some.inj hn).symm
  | succ n =>
      obtain ⟨u, hu, hn⟩ := climb?_succ_eq_some.mp hn
      exact .inr ⟨u, hu, n, hn⟩

end StandsAbove

/-! ## Meeting points -/

/-- Two items of one depth meet no higher than they must: what is above both is above the point
where they meet. -/
theorem StandsAbove.join? (hm : m.Sound) {n : Nat} {a b c x : ItemId}
    (h : m.join? n a b = some c) (hd : m.depth a = m.depth b) (hxa : m.StandsAbove x a)
    (hxb : m.StandsAbove x b) : m.StandsAbove x c := by
  induction n generalizing a b with
  | zero =>
      rw [Manifest.join?] at h
      split at h
      · obtain rfl := Option.some.inj h
        exact hxa
      · cases h
  | succ n ih =>
      rw [Manifest.join?] at h
      split at h
      · obtain rfl := Option.some.inj h
        exact hxa
      · rename_i hne
        obtain ⟨u, hu, h⟩ := Option.bind_eq_some_iff.mp h
        obtain ⟨v, hv, h⟩ := Option.bind_eq_some_iff.mp h
        have hdu := depth_of_above? hm hu
        have hdv := depth_of_above? hm hv
        -- `x` is neither `a` nor `b`, because it would be both.
        rcases hxa.cases_above with rfl | ⟨u', hu', hxu⟩
        · exact absurd (hxb.eq_of_depth_le hm (Nat.le_of_eq hd.symm)) hne
        rcases hxb.cases_above with rfl | ⟨v', hv', hxv⟩
        · exact absurd (hxa.eq_of_depth_le hm (Nat.le_of_eq hd)).symm hne
        obtain rfl := Option.some.inj (hu.symm.trans hu')
        obtain rfl := Option.some.inj (hv.symm.trans hv')
        exact ih h (by omega) hxu hxv

/-- `c` has a level of its own and is above `a` and `b`, and everything above both is above `c`. -/
structure DeepestAbove (m : Manifest) (a b c : ItemId) : Prop where
  position : m.IsPosition c
  left : m.StandsAbove c (m.anchor a)
  right : m.StandsAbove c (m.anchor b)
  deepest {x : ItemId} (hxa : m.StandsAbove x (m.anchor a)) (hxb : m.StandsAbove x (m.anchor b)) :
    m.StandsAbove x c

theorem meet?_deepest (hm : m.Sound) {a b : ItemId} {itemA itemB : Item}
    (ha : m.item? a = some itemA) (hb : m.item? b = some itemB) :
    ∃ c, m.meet? a b = some c ∧ m.DeepestAbove a b c := by
  obtain ⟨c, hmeet, hpos, hca, hcb⟩ := exists_meet? hm ha hb
  refine ⟨c, hmeet, hpos, hca, hcb, fun {x} hxa hxb => ?_⟩
  simp only [Manifest.meet?, Option.bind_eq_bind, Option.bind_eq_some_iff] at hmeet
  obtain ⟨-, -, -, -, u, hu, v, hv, hjoin⟩ := hmeet
  have hdu := depth_of_climb? hm hu
  have hdv := depth_of_climb? hm hv
  have hda := hxa.depth_le hm
  have hdb := hxb.depth_le hm
  exact StandsAbove.join? hm hjoin (by omega) (hxa.of_depth_le hm ⟨_, hu⟩ (by omega))
    (hxb.of_depth_le hm ⟨_, hv⟩ (by omega))

theorem anchor_of_unknown {id : ItemId} (h : m.item? id = none) : m.anchor id = id := by
  rw [anchor, h]

theorem meet?_of_unknown {a b : ItemId} (h : m.item? a = none ∨ m.item? b = none) :
    m.meet? a b = none := by
  rcases h with h | h
  · simp [Manifest.meet?, anchor_of_unknown h, h]
  · cases ha : m.item? (m.anchor a) <;> simp [Manifest.meet?, anchor_of_unknown h, h, ha]

theorem meet?_eq_none (hm : m.Sound) {a b : ItemId} :
    m.meet? a b = none ↔ m.item? a = none ∨ m.item? b = none := by
  refine ⟨fun hnone => ?_, meet?_of_unknown⟩
  cases ha : m.item? a with
  | none => exact .inl rfl
  | some itemA =>
      cases hb : m.item? b with
      | none => exact .inr rfl
      | some itemB =>
          obtain ⟨c, hmeet, -⟩ := meet?_deepest hm ha hb
          rw [hnone] at hmeet
          cases hmeet

theorem deepestAbove_of_meet? (hm : m.Sound) {a b c : ItemId} (h : m.meet? a b = some c) :
    m.DeepestAbove a b c := by
  cases ha : m.item? a with
  | none => rw [meet?_of_unknown (.inl ha)] at h; cases h
  | some itemA =>
      cases hb : m.item? b with
      | none => rw [meet?_of_unknown (.inr hb)] at h; cases h
      | some itemB =>
          obtain ⟨c', hmeet, hdeepest⟩ := meet?_deepest hm ha hb
          obtain rfl := Option.some.inj (h.symm.trans hmeet)
          exact hdeepest

namespace DeepestAbove

theorem unique (hm : m.Sound) {a b c d : ItemId} (hc : m.DeepestAbove a b c)
    (hd : m.DeepestAbove a b d) : c = d :=
  (hd.deepest hc.left hc.right).antisymm hm (hc.deepest hd.left hd.right)

theorem comm {a b c : ItemId} (h : m.DeepestAbove a b c) : m.DeepestAbove b a c :=
  ⟨h.position, h.right, h.left, fun hxb hxa => h.deepest hxa hxb⟩

theorem anchor_eq {a b c : ItemId} (h : m.DeepestAbove a b c) : m.anchor c = c :=
  anchor_of_position h.position

/-- In whichever order three items are brought together, they meet in the same item. -/
theorem assoc (hm : m.Sound) {a b c p q r s : ItemId} (hp : m.DeepestAbove a b p)
    (hq : m.DeepestAbove p c q) (hr : m.DeepestAbove b c r) (hs : m.DeepestAbove a r s) :
    q = s := by
  have hqp : m.StandsAbove q p := hp.anchor_eq ▸ hq.left
  have hsr : m.StandsAbove s r := hr.anchor_eq ▸ hs.right
  have hqr : m.StandsAbove q r := hr.deepest (hqp.trans hp.right) hq.right
  have hsp : m.StandsAbove s p := hp.deepest hs.left (hsr.trans hr.left)
  have hqs : m.StandsAbove q s := hs.deepest (hqp.trans hp.left) (hr.anchor_eq.symm ▸ hqr)
  have hsq : m.StandsAbove s q := hq.deepest (hp.anchor_eq.symm ▸ hsp) (hsr.trans hr.right)
  exact hqs.antisymm hm hsq

end DeepestAbove

theorem meet?_comm (hm : m.Sound) (a b : ItemId) : m.meet? a b = m.meet? b a := by
  cases hab : m.meet? a b with
  | none => exact (meet?_of_unknown ((meet?_eq_none hm).mp hab).symm).symm
  | some c =>
      cases hba : m.meet? b a with
      | none =>
          rw [meet?_of_unknown ((meet?_eq_none hm).mp hba).symm] at hab
          cases hab
      | some d =>
          exact congrArg some
            ((deepestAbove_of_meet? hm hab).unique hm (deepestAbove_of_meet? hm hba).comm)

theorem meet?_self (hm : m.Sound) (a : ItemId) :
    m.meet? a a = (m.item? a).map fun _ => m.anchor a := by
  cases ha : m.item? a with
  | none => exact meet?_of_unknown (.inl ha)
  | some item =>
      obtain ⟨c, hmeet, hdeepest⟩ := meet?_deepest hm ha ha
      rw [hmeet]
      have hself : m.StandsAbove (m.anchor a) c := hdeepest.deepest (.refl m _) (.refl m _)
      exact congrArg some (hdeepest.left.antisymm hm hself)

theorem meet?_assoc (hm : m.Sound) (a b c : ItemId) :
    ((m.meet? a b).bind fun p => m.meet? p c) = (m.meet? b c).bind fun r => m.meet? a r := by
  by_cases hunknown : m.item? a = none ∨ m.item? b = none ∨ m.item? c = none
  · rcases hunknown with ha | hb | hc
    · simp [meet?_of_unknown (.inl ha)]
    · simp [meet?_of_unknown (.inl hb), meet?_of_unknown (.inr hb)]
    · simp [meet?_of_unknown (.inr hc)]
  · simp only [not_or, ← ne_eq, Option.ne_none_iff_exists'] at hunknown
    obtain ⟨⟨itemA, ha⟩, ⟨itemB, hb⟩, itemC, hc⟩ := hunknown
    obtain ⟨p, hmp, hp⟩ := meet?_deepest hm ha hb
    obtain ⟨r, hmr, hr⟩ := meet?_deepest hm hb hc
    obtain ⟨_, hknownP, -⟩ := hp.position
    obtain ⟨_, hknownR, -⟩ := hr.position
    obtain ⟨q, hmq, hq⟩ := meet?_deepest hm hknownP hc
    obtain ⟨s, hms, hs⟩ := meet?_deepest hm ha hknownR
    rw [hmp, hmr, Option.bind_some, Option.bind_some, hmq, hms, hp.assoc hm hq hr hs]

/-! ## Paths -/

/-- The item that an item belongs to. -/
def owner? (m : Manifest) (id : ItemId) : Option ItemId := (m.item? id).bind (·.parent)

theorem owner?_of_item? {id p : ItemId} {item : Item} (hi : m.item? id = some item)
    (hp : item.parent = some p) : m.owner? id = some p := by
  rw [owner?, hi]
  exact hp

/-- A path exists exactly from an item and from its owners, however far up. -/
theorem exists_path?_iff (hm : m.Sound) {a b : ItemId} :
    (∃ path, m.path? a b = some path) ↔
      Relation.ReflTransGen (fun owner id => m.owner? id = some owner) a b := by
  constructor
  · rintro ⟨path, hpath⟩
    have howners := path?_owners hpath
    clear hpath
    induction howners with
    | here => exact .refl
    | down _ hi hp ih => exact ih.tail (owner?_of_item? hi hp)
  · intro h
    induction h with
    | refl => exact ⟨[], path?_self a⟩
    | @tail p id _ hstep ih =>
        obtain ⟨item, hi, hp⟩ := Option.bind_eq_some_iff.mp hstep
        obtain ⟨path, hpath⟩ := ih
        by_cases hid : id = a
        · exact ⟨[], hid ▸ path?_self id⟩
        · exact ⟨path ++ [id], by rw [path?_of_parent hm hi hp hid, hpath]; rfl⟩

namespace Owners

/-- Going down, every item belongs to the one before it, and the last one is where the path ends. -/
theorem isChain {a b : ItemId} {path : List ItemId} (h : m.Owners a path b) :
    (a :: path).IsChain (fun owner id => m.owner? id = some owner) ∧
      (a :: path).getLast? = some b := by
  induction h with
  | here => exact ⟨.singleton a, rfl⟩
  | @down path p id item _ hi hp ih =>
      refine ⟨ih.1.append (.singleton id) fun owner howner x hx => ?_,
        by rw [← List.cons_append, List.getLast?_concat]⟩
      obtain rfl : p = owner := Option.some.inj (ih.2.symm.trans howner)
      obtain rfl : id = x := Option.some.inj hx
      exact owner?_of_item? hi hp

theorem known {a b : ItemId} {path : List ItemId} (h : m.Owners a path b) :
    ∀ x ∈ path, (m.item? x).isSome := by
  induction h with
  | here => intro x hx; cases hx
  | down _ hi _ ih =>
      intro x hx
      rcases List.mem_append.mp hx with hx | hx
      · exact ih x hx
      · obtain rfl := List.mem_singleton.mp hx
        rw [hi]
        rfl

end Owners

/-- A path never comes back to where it starts. -/
theorem path?_eq_nil {a b : ItemId} {path : List ItemId}
    (h : m.path? a b = some path) : path = [] ↔ a = b := by
  constructor
  · rintro rfl
    exact Option.some.inj (path?_owners h).isChain.2
  · rintro rfl
    exact Option.some.inj (h.symm.trans (path?_self a))

/-- The way down from the point where two items meet passes through every level in between once. -/
theorem exists_path?_meet? (hm : m.Sound) {a b : ItemId} {itemA itemB : Item}
    (ha : m.item? a = some itemA) (hb : m.item? b = some itemB) :
    ∃ c path, m.meet? a b = some c ∧ m.path? c b = some path ∧ m.depth c ≤ m.depth b ∧
      path.countP (!m.isVariant ·) = m.depth b - m.depth c ∧ ∀ x ∈ path, (m.item? x).isSome := by
  obtain ⟨c, hmeet, hpos, -, n, hclimb⟩ := exists_meet? hm ha hb
  obtain ⟨path, hpath⟩ := exists_path? hm hb hclimb
  have howners := path?_owners hpath
  have hdepth := (howners.leadsDown hm hpos).depth hm
  rw [depth_anchor hm hb, ← List.countP_eq_length_filter] at hdepth
  exact ⟨c, path, hmeet, hpath, by omega, by omega, howners.known⟩

end Manifest

/-- **Two items meet in the deepest item above both**, in whatever manifest edits have built.
Climbing from the anchors of both leads there, and everything that both climbs pass through is above
it. Only unknown items do not meet. So it does not matter in which order items are brought
together. -/
theorem meet_deepest (rootType : String) (edits : List Edit) :
    let m := Manifest.build rootType edits
    (∀ a b, m.meet? a b = none ↔ m.item? a = none ∨ m.item? b = none) ∧
    (∀ a b c, m.meet? a b = some c → m.DeepestAbove a b c) ∧
    (∀ a b, m.meet? a b = m.meet? b a) ∧
    (∀ a, m.meet? a a = (m.item? a).map fun _ => m.anchor a) ∧
    ∀ a b c, ((m.meet? a b).bind fun p => m.meet? p c) = (m.meet? b c).bind fun r => m.meet? a r :=
  have hm := Manifest.build_sound rootType edits
  ⟨fun _ _ => Manifest.meet?_eq_none hm, fun _ _ _ => Manifest.deepestAbove_of_meet? hm,
    Manifest.meet?_comm hm, Manifest.meet?_self hm, Manifest.meet?_assoc hm⟩

/-- A shop with orders, some of which are gifts with a card, and customers. Some customers are
members, and some members are patrons. -/
def shopEdits : List Edit := [
  .addMember Manifest.root "orders" "Orders" (.field "orders"),
  .setElement ⟨1⟩ "Order" .standard,
  .addVariant ⟨2⟩ (.withField "Gift" "card"),
  .addMember ⟨3⟩ "card" "Card" (.field "card"),
  .addMember ⟨2⟩ "customer" "Customer" (.field "customer"),
  .addVariant ⟨5⟩ (.withField "Member" "joined"),
  .addVariant ⟨6⟩ (.withField "Patron" "donated")]

/-- The card of a gift and the patron meet in the order. -/
theorem meet_deepest_shop :
    (Manifest.build "Shop" shopEdits).meet? ⟨4⟩ ⟨7⟩ = some ⟨2⟩ ∧
      (Manifest.build "Shop" shopEdits).DeepestAbove ⟨4⟩ ⟨7⟩ ⟨2⟩ :=
  have hmeet : (Manifest.build "Shop" shopEdits).meet? ⟨4⟩ ⟨7⟩ = some ⟨2⟩ := by decide +kernel
  ⟨hmeet, (meet_deepest "Shop" shopEdits).2.1 _ _ _ hmeet⟩

/-- **Paths agree with levels**, in whatever manifest edits have built. There is a path from an item
to another exactly if the owners of the other lead up to it, and the path goes from owner to item.
From where two items meet there is always a path to either, and it has as many items that are no
variants as there are levels in between. -/
theorem path_levels (rootType : String) (edits : List Edit) :
    let m := Manifest.build rootType edits
    (∀ a b, (∃ path, m.path? a b = some path) ↔
      Relation.ReflTransGen (fun owner id => m.owner? id = some owner) a b) ∧
    (∀ a b path, m.path? a b = some path →
      (a :: path).IsChain (fun owner id => m.owner? id = some owner) ∧
        (a :: path).getLast? = some b ∧ (path = [] ↔ a = b)) ∧
    ∀ a b itemA itemB, m.item? a = some itemA → m.item? b = some itemB →
      ∃ c path, m.meet? a b = some c ∧ m.path? c b = some path ∧ m.depth c ≤ m.depth b ∧
        path.countP (!m.isVariant ·) = m.depth b - m.depth c ∧
        ∀ x ∈ path, (m.item? x).isSome := by
  have hm := Manifest.build_sound rootType edits
  refine ⟨fun a b => Manifest.exists_path?_iff hm, fun a b path hpath => ?_,
    fun a b itemA itemB ha hb => Manifest.exists_path?_meet? hm ha hb⟩
  obtain ⟨hchain, hlast⟩ := (Manifest.path?_owners hpath).isChain
  exact ⟨hchain, hlast, Manifest.path?_eq_nil hpath⟩

/-- The way from the order to the patron has the customer as its only level. -/
theorem path_levels_shop :
    let m := Manifest.build "Shop" shopEdits
    m.path? ⟨2⟩ ⟨7⟩ = some [⟨5⟩, ⟨6⟩, ⟨7⟩] ∧
      List.IsChain (fun owner id => m.owner? id = some owner) [⟨2⟩, ⟨5⟩, ⟨6⟩, ⟨7⟩] ∧
      List.countP (!m.isVariant ·) [⟨5⟩, ⟨6⟩, ⟨7⟩] = m.depth ⟨7⟩ - m.depth ⟨2⟩ := by
  intro m
  have hpath : m.path? ⟨2⟩ ⟨7⟩ = some [⟨5⟩, ⟨6⟩, ⟨7⟩] := by decide +kernel
  have hmeet : m.meet? ⟨4⟩ ⟨7⟩ = some ⟨2⟩ := by decide +kernel
  obtain ⟨-, hchain, hlevels⟩ := path_levels "Shop" shopEdits
  obtain ⟨c, path, hc, hp, -, hcount, -⟩ := hlevels ⟨4⟩ ⟨7⟩ _ _ rfl rfl
  obtain rfl : c = ⟨2⟩ := Option.some.inj (hc.symm.trans hmeet)
  obtain rfl : path = [⟨5⟩, ⟨6⟩, ⟨7⟩] := Option.some.inj (hp.symm.trans hpath)
  exact ⟨hpath, (hchain _ _ _ hpath).1, hcount⟩

end Vetting
