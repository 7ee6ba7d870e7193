import Mathlib.Data.List.Sort
import Vetting.Proofs.Plan.Making

/-!
# Resolutions add up

Resolving a list of checks adds to what the checks depend on already. In place it does so step by
step, and a reference counts as found if the dependencies have become longer, although what it finds
may be there already. None of this shows in the end (`resolutions_accumulate`): what a resolution
finds depends on nothing that resolutions change, so it adds the same whenever it is made, and two
resolutions may change places.

A check without its dependencies is `Check.bare`; that is all a resolution looks at. What it finds
is settled for one reference (`sought`), for one check (`findings`) and for a list, and each time
the steps in place are shown to end as that says (`EndsAs`).
-/

namespace Vetting

/-! ## Ascending lists -/

theorem pairwise_insertAscending {n : Nat} {ns : List Nat} (h : ns.Pairwise (· < ·)) :
    (insertAscending n ns).Pairwise (· < ·) := by
  induction ns with
  | nil => exact List.pairwise_singleton _ _
  | cons k ks ih =>
      obtain ⟨hk, hks⟩ := List.pairwise_cons.mp h
      simp only [insertAscending]
      split
      · rename_i hlt
        refine List.pairwise_cons.mpr ⟨fun j hj => ?_, h⟩
        rcases List.mem_cons.mp hj with rfl | hj
        · exact hlt
        · exact Nat.lt_trans hlt (hk j hj)
      · split
        · exact h
        · refine List.pairwise_cons.mpr ⟨fun j hj => ?_, ih hks⟩
          rcases mem_insertAscending.mp hj with rfl | hj
          · omega
          · exact hk j hj

theorem pairwise_ascending (ns : List Nat) : (ascending ns).Pairwise (· < ·) := by
  induction ns with
  | nil => exact .nil
  | cons n ns ih => exact pairwise_insertAscending ih

/-- An ascending list is given by what is in it. -/
theorem eq_of_ascending {xs ys : List Nat} (hx : xs.Pairwise (· < ·)) (hy : ys.Pairwise (· < ·))
    (h : ∀ k, k ∈ xs ↔ k ∈ ys) : xs = ys :=
  ((List.perm_ext_iff_of_nodup (hx.imp Nat.ne_of_lt) (hy.imp Nat.ne_of_lt)).mpr h).eq_of_pairwise
    (fun _ _ _ _ hab hba => absurd hab (Nat.lt_asymm hba)) hx hy

/-! ## Checks but for their dependencies -/

namespace Check

/-- A check without what resolutions have added to it. -/
def bare (c : Check) : Check := { c with dependencies := [], unsatisfiable := false }

/-- The check after a resolution, when `found` is what its references find. -/
def extend (c : Check) (found : List (List Nat)) : Check :=
  { c with
    dependencies := ascending (c.dependencies ++ found.flatten)
    unsatisfiable := c.unsatisfiable || found.any List.isEmpty }

/-- The check during a resolution, before the dependencies are put in order. -/
def append (c : Check) (found : List (List Nat)) : Check :=
  { c with
    dependencies := c.dependencies ++ found.flatten
    unsatisfiable := c.unsatisfiable || found.any List.isEmpty }

@[simp] theorem append_nil (c : Check) : c.append [] = c := by
  simp [append]

theorem append_append (c : Check) (found more : List (List Nat)) :
    (c.append found).append more = c.append (found ++ more) := by
  simp [append, List.append_assoc, Bool.or_assoc]

/-- What two resolutions add does not depend on which is first. -/
theorem extend_comm (c : Check) (found more : List (List Nat)) :
    (c.extend found).extend more = (c.extend more).extend found := by
  have hdeps : ascending (ascending (c.dependencies ++ found.flatten) ++ more.flatten) =
      ascending (ascending (c.dependencies ++ more.flatten) ++ found.flatten) :=
    eq_of_ascending (pairwise_ascending _) (pairwise_ascending _) fun k => by
      simp only [mem_ascending, List.mem_append, or_assoc, or_comm (a := k ∈ more.flatten)]
  simp only [extend, hdeps, Bool.or_assoc, Bool.or_comm (found.any _)]

/-- A resolution that is repeated adds nothing. -/
theorem extend_extend_self (c : Check) (found : List (List Nat)) :
    (c.extend found).extend found = c.extend found := by
  have hdeps : ascending (ascending (c.dependencies ++ found.flatten) ++ found.flatten) =
      ascending (c.dependencies ++ found.flatten) :=
    eq_of_ascending (pairwise_ascending _) (pairwise_ascending _) fun k => by
      simp only [mem_ascending, List.mem_append, or_assoc, or_self]
  simp only [extend, hdeps, Bool.or_assoc, Bool.or_self]

end Check

/-! ## How steps in place end -/

/-- Two ways from one list to others come together where those of its elements do. -/
theorem eq_of_forall₂_diamond {α : Type} {A B C D : α → α → Prop} {as xs us ys vs : List α}
    (hA : List.Forall₂ A as xs) (hB : List.Forall₂ B xs us) (hC : List.Forall₂ C as ys)
    (hD : List.Forall₂ D ys vs) (h : ∀ a x u y v, A a x → B x u → C a y → D y v → u = v) :
    us = vs := by
  induction hA generalizing us ys vs with
  | nil =>
      cases hB
      cases hC
      cases hD
      rfl
  | cons ha _ ih =>
      cases hB with
      | cons hb hB =>
          cases hC with
          | cons hc hC =>
              cases hD with
              | cons hd hD => exact congrArg₂ _ (h _ _ _ _ _ ha hb hc hd) (ih hB hC hD)

/-- Steps end as a computation does: they leave what its answer stands for, and after an error
something that is still `kept`. -/
inductive EndsAs {ε σ β : Type} (x : Except ε β) (left : β → σ) (kept : σ → Prop) :
    EStateM.Result ε σ Unit → Prop
  | ok {b : β} (h : x = .ok b) : EndsAs x left kept (.ok () (left b))
  | error {e : ε} {s : σ} (h : x = .error e) (hs : kept s) : EndsAs x left kept (.error e s)

namespace EndsAs

variable {ε σ β : Type} {x : Except ε β} {left : β → σ} {kept : σ → Prop}
  {ended : EStateM.Result ε σ Unit}

theorem ok_iff (h : EndsAs x left kept ended) {s : σ} :
    ended = .ok () s ↔ ∃ b, x = .ok b ∧ s = left b := by
  cases h with
  | ok hx =>
      subst hx
      simp [eq_comm]
  | error hx _ =>
      subst hx
      simp

/-- Steps that begin with a computation end as one that begins in the same way. -/
theorem read {α : Type} {x : Except ε α} {y : α → Except ε β} {rest : α → EStateM ε σ Unit} {s : σ}
    (hs : kept s) (h : ∀ a, EndsAs (y a) left kept ((rest a).run s)) :
    EndsAs (x >>= y) left kept ((MonadExcept.ofExcept x >>= rest).run s) := by
  cases x with
  | error e => exact .error rfl hs
  | ok a => exact h a

theorem bind {γ : Type} {y : β → Except ε γ} {left' : γ → σ} {first rest : EStateM ε σ Unit}
    {s : σ} (h : EndsAs x left kept (first.run s))
    (hrest : ∀ b, EndsAs (y b) left' kept (rest.run (left b))) :
    EndsAs (x >>= y) left' kept ((first >>= fun _ => rest).run s) := by
  rw [EStateM.run_bind]
  generalize first.run s = ended at h
  cases h with
  | ok hx =>
      subst hx
      exact hrest _
  | error hx hs =>
      subst hx
      exact .error rfl hs

theorem map {γ : Type} {f : β → γ} {left' : γ → σ} (h : EndsAs x left kept ended)
    (hleft : ∀ b, left' (f b) = left b) : EndsAs (x >>= fun b => .ok (f b)) left' kept ended := by
  cases h with
  | ok hx =>
      subst hx
      rw [← hleft]
      exact .ok rfl
  | error hx hs =>
      subst hx
      exact .error rfl hs

theorem of_map {γ : Type} {y : Except ε γ} {left' : γ → σ}
    (h : EndsAs (left' <$> y) id kept ended) : EndsAs y left' kept ended := by
  cases y with
  | error e =>
      cases h with
      | ok hx => cases hx
      | error hx hs =>
          cases hx
          exact .error rfl hs
  | ok c =>
      cases h with
      | ok hx =>
          cases hx
          exact .ok rfl
      | error hx _ => cases hx

end EndsAs

theorem run_get_bind {ε σ β : Type} (f : σ → EStateM ε σ β) (s : σ) :
    (get >>= f).run s = (f s).run s := rfl

namespace Manifest

variable (m : Manifest) (t : ValueTree) (bound? : RuleId → ValueId → Option Nat)

/-- What a reference of a check finds. -/
def sought (decl : RuleDecl) (c : Check) (ref : RuleRef) : Except SetupError (List Nat) := do
  let target ← SetupError.ofManifest (m.target decl.key ref)
  let values ← m.meant t c decl ref
  .ok (values.filterMap (bound? target))

/-- What the references of a check find. -/
def findings (c : Check) : Except SetupError (List (List Nat)) := do
  let decl ← SetupError.ofManifest (m.getRule c.rule)
  decl.dependencies.mapM (m.sought t bound? decl c)

theorem findings_bare (c : Check) : m.findings t bound? c.bare = m.findings t bound? c := rfl

theorem findings_congr {c c' : Check} (h : c.bare = c'.bare) :
    m.findings t bound? c = m.findings t bound? c' := by
  rw [← findings_bare, h, findings_bare]

variable {m t bound?}

/-- A reference has found nothing exactly if the dependencies are no longer than before. -/
theorem run_link (decl : RuleDecl) (ref : RuleRef) (c : Check) :
    EndsAs (m.sought t bound? decl c ref) (fun nums => c.append [nums]) (·.bare = c.bare)
      ((Linking.link m t bound? decl ref).run c) := by
  refine .read rfl fun target => ?_
  rw [run_get_bind]
  refine .read rfl fun values => ?_
  rw [run_get_bind]
  have hlonger : (c.dependencies ++ values.filterMap (bound? target)).length =
      c.dependencies.length ↔ values.filterMap (bound? target) = [] := by simp
  convert EndsAs.ok rfl using 1
  simp only [EStateM.run_bind, EStateM.run_modify, EStateM.run_get, hlonger]
  cases hnums : values.filterMap (bound? target) with
  | nil => simp [Check.append]
  | cons n ns => simp [Check.append]

theorem run_forM_link (decl : RuleDecl) (refs : List RuleRef) (c : Check) :
    EndsAs (refs.mapM (m.sought t bound? decl c)) c.append (·.bare = c.bare)
      ((refs.forM (Linking.link m t bound? decl)).run c) := by
  induction refs generalizing c with
  | nil =>
      have hnil : (([] : List RuleRef).forM (Linking.link m t bound? decl)).run c =
          .ok () (c.append []) := by
        rw [Check.append_nil]
        rfl
      rw [hnil]
      exact .ok rfl
  | cons ref refs ih =>
      rw [List.mapM_cons]
      refine (run_link decl ref c).bind fun nums => ?_
      refine (ih (c.append [nums])).map fun found => ?_
      rw [Check.append_append]
      rfl

/-- The steps for one check find what its references find, whatever it depends on already. -/
theorem run_linkAll (c : Check) :
    EndsAs (m.findings t bound? c) c.extend (·.bare = c.bare)
      ((Linking.linkAll m t bound?).run c) := by
  unfold findings Linking.linkAll
  rw [run_get_bind]
  refine .read rfl fun decl => ?_
  rw [← bind_pure (decl.dependencies.mapM _)]
  exact (run_forM_link decl decl.dependencies c).bind fun found => .ok rfl

end Manifest

/-! ## Stored checks -/

namespace Check

/-- The stored checks without what resolutions have added to them. -/
def bareAll (stored : List (Numbered Nat Check)) : List (Numbered Nat Check) :=
  stored.map fun entry => { entry with content := entry.content.bare }

theorem bareAll_bareAll (stored : List (Numbered Nat Check)) :
    bareAll (bareAll stored) = bareAll stored := by
  rw [bareAll, bareAll, List.map_map]
  rfl

theorem bound?_bareAll (stored : List (Numbered Nat Check)) :
    bound? (bareAll stored) = bound? stored := by
  funext rule value
  rw [bound?, bareAll, ← List.map_reverse, List.find?_map, Option.map_map]
  rfl

theorem bound?_congr {stored stored' : List (Numbered Nat Check)}
    (h : bareAll stored = bareAll stored') : bound? stored = bound? stored' := by
  rw [← bound?_bareAll, h, bound?_bareAll]

end Check

namespace Manifest

variable (m : Manifest) (t : ValueTree) (bound? : RuleId → ValueId → Option Nat)

/-- A stored check after a resolution. -/
def accrue (entry : Numbered Nat Check) : Except SetupError (Numbered Nat Check) := do
  let found ← m.findings t bound? entry.content
  .ok { entry with content := entry.content.extend found }

variable {m t bound?}

theorem run_sweep (stored : List (Numbered Nat Check)) :
    EndsAs (stored.mapM (m.accrue t bound?)) id
      (fun left => Check.bareAll left = Check.bareAll stored)
      (Check.sweep (Linking.linkAll m t bound?) stored) := by
  induction stored with
  | nil => exact .ok rfl
  | cons entry later ih =>
      rw [List.mapM_cons, Check.sweep, accrue]
      have hfirst : EndsAs (m.findings t bound? entry.content) _ _
          ((Linking.linkAll m t bound?).run entry.content) := run_linkAll entry.content
      generalize (Linking.linkAll m t bound?).run entry.content = ended at hfirst ⊢
      cases hfirst with
      | error hx hbare =>
          rw [hx]
          refine .error rfl ?_
          simp only [Check.bareAll, List.map_cons, hbare]
      | @ok found hx =>
          rw [hx]
          generalize Check.sweep (Linking.linkAll m t bound?) later = ended at ih ⊢
          cases ih with
          | error hrest hbare =>
              rw [hrest]
              refine .error rfl ?_
              exact congrArg (_ :: ·) hbare
          | ok hrest =>
              rw [hrest]
              exact .ok rfl

theorem run_resolveInPlace (stored : List (Numbered Nat Check)) :
    EndsAs (stored.mapM (m.accrue t (Check.bound? stored))) id
      (fun left => Check.bareAll left = Check.bareAll stored) (m.resolveInPlace t stored) :=
  run_sweep stored

theorem accrue_eq_ok {entry entry' : Numbered Nat Check} :
    m.accrue t bound? entry = .ok entry' ↔ ∃ found, m.findings t bound? entry.content = .ok found ∧
      entry' = { entry with content := entry.content.extend found } := by
  rw [accrue, Fallible.bind_eq_ok]
  simp only [Except.ok.injEq, eq_comm]

/-- What a resolution in place has made of every stored check. -/
theorem forall₂_of_resolveInPlace {stored stored' : List (Numbered Nat Check)}
    (h : m.resolveInPlace t stored = .ok () stored') :
    List.Forall₂ (fun entry entry' => ∃ found,
      m.findings t (Check.bound? stored) entry.content = .ok found ∧
        entry' = { entry with content := entry.content.extend found }) stored stored' := by
  obtain ⟨left, hleft, rfl⟩ := (run_resolveInPlace stored).ok_iff.mp h
  exact (Fallible.mapM_eq_ok.mp hleft).imp fun _ _ => accrue_eq_ok.mp

theorem bareAll_eq_iff {stored stored' : List (Numbered Nat Check)} :
    Check.bareAll stored = Check.bareAll stored' ↔ List.Forall₂ (fun entry entry' =>
      entry.id = entry'.id ∧ entry.content.bare = entry'.content.bare) stored stored' := by
  rw [← List.forall₂_eq_eq_eq, Check.bareAll, Check.bareAll, List.forall₂_map_left_iff,
    List.forall₂_map_right_iff]
  simp only [Numbered.mk.injEq]

theorem bareAll_of_resolveInPlace {stored stored' : List (Numbered Nat Check)}
    (h : m.resolveInPlace t stored = .ok () stored') :
    Check.bareAll stored' = Check.bareAll stored := by
  refine (bareAll_eq_iff.mpr ?_).symm
  refine (forall₂_of_resolveInPlace h).imp ?_
  rintro entry _ ⟨found, -, rfl⟩
  exact ⟨rfl, rfl⟩

/-- The ends of two resolutions of checks that differ in their dependencies only. -/
theorem mapM_accrue_alike {stored stored' : List (Numbered Nat Check)}
    (h : Check.bareAll stored = Check.bareAll stored') :
    Fallible.Alike Eq (List.Forall₂ fun _ _ => True)
      (stored.mapM (m.accrue t (Check.bound? stored)))
      (stored'.mapM (m.accrue t (Check.bound? stored'))) := by
  rw [Check.bound?_congr h]
  refine Fallible.Alike.mapM ((bareAll_eq_iff.mp h).imp ?_)
  rintro entry entry' ⟨-, hbare⟩
  rw [accrue, accrue, findings_congr m t _ hbare]
  exact (Fallible.Alike.refl (fun _ => rfl) _).bind fun _ _ _ => .ok trivial

/-- Two resolutions both succeed, or fail with one error. -/
inductive SameOutcome {σ : Type} :
    EStateM.Result SetupError σ Unit → EStateM.Result SetupError σ Unit → Prop
  | ok {s s' : σ} : SameOutcome (.ok () s) (.ok () s')
  | error {e : SetupError} {s s' : σ} : SameOutcome (.error e s) (.error e s')

/-- Whether a resolution succeeds, and its error, do not depend on the dependencies there are. -/
theorem resolveInPlace_sameOutcome {stored stored' : List (Numbered Nat Check)}
    (h : Check.bareAll stored = Check.bareAll stored') :
    SameOutcome (m.resolveInPlace t stored) (m.resolveInPlace t stored') := by
  have halike := mapM_accrue_alike (m := m) (t := t) h
  have hends := run_resolveInPlace (m := m) (t := t) stored
  have hends' := run_resolveInPlace (m := m) (t := t) stored'
  generalize m.resolveInPlace t stored = ended, m.resolveInPlace t stored' = ended'
    at hends hends' ⊢
  cases hends with
  | ok hx =>
      rw [hx] at halike
      cases hends' with
      | ok hx' => exact .ok
      | error hx' _ =>
          rw [hx'] at halike
          cases halike
  | error hx _ =>
      rw [hx] at halike
      cases hends' with
      | ok hx' =>
          rw [hx'] at halike
          cases halike
      | error hx' _ =>
          rw [hx'] at halike
          cases halike with
          | error h =>
              cases h
              exact .error

theorem exists_resolveInPlace {stored stored' left : List (Numbered Nat Check)}
    (h : Check.bareAll stored' = Check.bareAll stored)
    (hok : m.resolveInPlace t stored = .ok () left) :
    ∃ left', m.resolveInPlace t stored' = .ok () left' := by
  have hsame := resolveInPlace_sameOutcome (m := m) (t := t) h.symm
  rw [hok] at hsame
  generalize m.resolveInPlace t stored' = ended at hsame ⊢
  cases hsame with
  | ok => exact ⟨_, rfl⟩

end Manifest

/-! ## Sums -/

namespace Check

/-- Every check of `after` is that of `before` with what the checks of the lists `parts` depend on:
the dependencies are in ascending order, each once, and the check is unsatisfiable if it is in one
of the lists. -/
structure SumsUp (before : List (Numbered Nat Check)) (parts : List (List (Numbered Nat Check)))
    (after : List (Numbered Nat Check)) : Prop where
  bare : bareAll after = bareAll before
  ascending {a : Numbered Nat Check} (ha : a ∈ after) : a.content.dependencies.Pairwise (· < ·)
  mem_dependencies {i : Nat} {b a : Numbered Nat Check} (hb : before[i]? = some b)
    (ha : after[i]? = some a) (j : Nat) : j ∈ a.content.dependencies ↔ j ∈ b.content.dependencies ∨
      ∃ part ∈ parts, ∃ p, part[i]? = some p ∧ j ∈ p.content.dependencies
  unsatisfiable {i : Nat} {b a : Numbered Nat Check} (hb : before[i]? = some b)
    (ha : after[i]? = some a) : a.content.unsatisfiable = true ↔ b.content.unsatisfiable = true ∨
      ∃ part ∈ parts, ∃ p, part[i]? = some p ∧ p.content.unsatisfiable = true

theorem mem_dependencies_extend {c : Check} {found : List (List Nat)} {j : Nat} :
    j ∈ (c.extend found).dependencies ↔ j ∈ c.dependencies ∨ j ∈ found.flatten := by
  rw [extend, mem_ascending, List.mem_append]

theorem SumsUp.trans {before middle after : List (Numbered Nat Check)}
    {parts more : List (List (Numbered Nat Check))} (h : SumsUp before parts middle)
    (h' : SumsUp middle more after) : SumsUp before (parts ++ more) after := by
  have hmiddle : ∀ {i : Nat} {b}, before[i]? = some b → ∃ c, middle[i]? = some c := by
    intro i b hb
    obtain ⟨c, hc, -⟩ := getElem?_right_of_forall₂ (Manifest.bareAll_eq_iff.mp h.bare.symm) hb
    exact ⟨c, hc⟩
  refine ⟨h'.bare.trans h.bare, h'.ascending, fun hb ha j => ?_, fun hb ha => ?_⟩
  · obtain ⟨c, hc⟩ := hmiddle hb
    rw [h'.mem_dependencies hc ha, h.mem_dependencies hb hc]
    simp only [List.mem_append, or_and_right, exists_or, or_assoc]
  · obtain ⟨c, hc⟩ := hmiddle hb
    rw [h'.unsatisfiable hc ha, h.unsatisfiable hb hc]
    simp only [List.mem_append, or_and_right, exists_or, or_assoc]

end Check

namespace Manifest

variable {m m₁ m₂ : Manifest} {t t₁ t₂ : ValueTree}
  {stored stored' alone stored₁ stored₂ : List (Numbered Nat Check)}

/-- A resolution adds to the checks what it makes of checks without dependencies. -/
theorem sumsUp_of_resolveInPlace (h : m.resolveInPlace t stored = .ok () stored')
    (halone : m.resolveInPlace t (Check.bareAll stored) = .ok () alone) :
    Check.SumsUp stored [alone] stored' := by
  have hget : ∀ {i : Nat} {b a : Numbered Nat Check}, stored[i]? = some b →
      stored'[i]? = some a → ∃ found, a.content = b.content.extend found ∧
        alone[i]? = some { b with content := b.content.bare.extend found } := by
    intro i b a hb ha
    obtain ⟨_, ha', found, hfound, rfl⟩ :=
      getElem?_right_of_forall₂ (forall₂_of_resolveInPlace h) hb
    obtain rfl := Option.some.inj (ha'.symm.trans ha)
    have hbare : (Check.bareAll stored)[i]? = some { b with content := b.content.bare } := by
      rw [Check.bareAll, List.getElem?_map, hb, Option.map_some]
    obtain ⟨_, halone', found', hfound', rfl⟩ :=
      getElem?_right_of_forall₂ (forall₂_of_resolveInPlace halone) hbare
    rw [Check.bound?_bareAll, findings_bare, hfound] at hfound'
    obtain rfl := Except.ok.inj hfound'
    exact ⟨found, rfl, halone'⟩
  refine ⟨bareAll_of_resolveInPlace h, fun {a} ha => ?_, fun hb ha j => ?_, fun hb ha => ?_⟩
  · obtain ⟨_, -, found, -, rfl⟩ := exists_left_of_forall₂ (forall₂_of_resolveInPlace h) ha
    exact pairwise_ascending _
  · obtain ⟨found, hcontent, hpart⟩ := hget hb ha
    simp [hcontent, hpart, Check.mem_dependencies_extend, Check.bare]
  · obtain ⟨found, hcontent, hpart⟩ := hget hb ha
    simp [hcontent, hpart, Check.extend, Check.bare]

/-- What a second resolution makes of what the first has left. -/
theorem forall₂_of_resolveInPlace_again (h : m₁.resolveInPlace t₁ stored = .ok () stored₁)
    (h' : m₂.resolveInPlace t₂ stored₁ = .ok () stored') :
    List.Forall₂ (fun entry entry' => ∃ found,
      m₂.findings t₂ (Check.bound? stored) entry.content = .ok found ∧
        entry' = { entry with content := entry.content.extend found }) stored₁ stored' := by
  rw [← Check.bound?_congr (bareAll_of_resolveInPlace h)]
  exact forall₂_of_resolveInPlace h'

theorem resolveInPlace_comm (h₁ : m₁.resolveInPlace t₁ stored = .ok () stored₁)
    (h₂ : m₂.resolveInPlace t₂ stored = .ok () stored₂) :
    ∃ both, m₂.resolveInPlace t₂ stored₁ = .ok () both ∧
      m₁.resolveInPlace t₁ stored₂ = .ok () both := by
  obtain ⟨both, hboth⟩ := exists_resolveInPlace (bareAll_of_resolveInPlace h₁) h₂
  obtain ⟨both', hboth'⟩ := exists_resolveInPlace (bareAll_of_resolveInPlace h₂) h₁
  have heq : both = both' := by
    refine eq_of_forall₂_diamond (forall₂_of_resolveInPlace h₁)
      (forall₂_of_resolveInPlace_again h₁ hboth) (forall₂_of_resolveInPlace h₂)
      (forall₂_of_resolveInPlace_again h₂ hboth') ?_
    rintro entry _ _ _ _ ⟨found, hfound, rfl⟩ ⟨more, hmore, rfl⟩ ⟨more', hmore', rfl⟩
      ⟨found', hfound', rfl⟩
    obtain rfl := Except.ok.inj (hfound.symm.trans hfound')
    obtain rfl := Except.ok.inj (hmore.symm.trans hmore')
    simp only [Check.extend_comm]
  exact ⟨both, hboth, heq ▸ hboth'⟩

theorem resolveInPlace_idem (h : m.resolveInPlace t stored = .ok () stored') :
    m.resolveInPlace t stored' = .ok () stored' := by
  obtain ⟨again, hagain⟩ := exists_resolveInPlace (bareAll_of_resolveInPlace h) h
  have heq : again = stored' := by
    refine eq_of_forall₂_diamond (D := Eq) (forall₂_of_resolveInPlace h)
      (forall₂_of_resolveInPlace_again h hagain) (forall₂_of_resolveInPlace h)
      (List.forall₂_refl stored') ?_
    rintro entry _ _ _ _ ⟨found, hfound, rfl⟩ ⟨found', hfound', rfl⟩ ⟨found'', hfound'', rfl⟩ rfl
    obtain rfl := Except.ok.inj (hfound.symm.trans hfound')
    obtain rfl := Except.ok.inj (hfound.symm.trans hfound'')
    simp only [Check.extend_extend_self]
  rwa [heq] at hagain

/-! ## Resolving in place and all at once -/

theorem mapM_accrue (cs : List Check) (k : Nat) :
    (cs.mapIdx fun i c => (⟨i + k, c⟩ : Numbered Nat Check)).mapM (m.accrue t bound?) =
      (fun rs => rs.mapIdx fun i c => (⟨i + k, c⟩ : Numbered Nat Check)) <$>
        cs.mapM fun c => m.findings t bound? c >>= fun found => .ok (c.extend found) := by
  induction cs generalizing k with
  | nil => rfl
  | cons c cs ih =>
      have hshift : ∀ cs : List Check,
          (cs.mapIdx fun i c => (⟨i + 1 + k, c⟩ : Numbered Nat Check)) =
            cs.mapIdx fun i c => ⟨i + (k + 1), c⟩ := by
        simp only [Nat.add_assoc, Nat.add_comm 1 k, implies_true]
      rw [List.mapIdx_cons, List.mapM_cons, List.mapM_cons, hshift, ih (k + 1), accrue]
      cases m.findings t bound? c with
      | error e => rfl
      | ok found =>
          generalize cs.mapM (fun c =>
            m.findings t bound? c >>= fun found => Except.ok (c.extend found)) = rest
          cases rest with
          | error e => rfl
          | ok rs =>
              show Except.ok _ = Except.ok ((c.extend found :: rs).mapIdx _)
              rw [List.mapIdx_cons, hshift]

theorem resolve_eq (m : Manifest) (t : ValueTree) (cs : List Check) :
    m.resolve t cs = cs.mapM fun c =>
      m.findings t (Check.find? cs) c >>= fun found => .ok (c.extend found) := by
  refine mapM_congr fun c _ => ?_
  rw [resolveCheck, findings, bind_assoc]
  rfl

end Manifest

namespace Check

theorem mem_stored {cs : List Check} {entry : Numbered Nat Check} :
    entry ∈ stored cs ↔ cs[entry.id]? = some entry.content := by
  rw [List.mem_iff_getElem?]
  simp only [stored, List.getElem?_mapIdx, Option.map_eq_some_iff]
  constructor
  · rintro ⟨i, c, hc, rfl⟩
    exact hc
  · intro h
    exact ⟨entry.id, entry.content, h, rfl⟩

/-- Where no two checks are of one pair, the last check of a pair is the first. -/
theorem bound?_stored {cs : List Check} (hcs : (cs.map fun c => (c.rule, c.value)).Nodup) :
    bound? (stored cs) = find? cs := by
  have hfinds : ∀ {r v i}, bound? (stored cs) r v = some i → find? cs r v = some i := by
    intro r v i h
    obtain ⟨entry, hentry, rfl⟩ := Option.map_eq_some_iff.mp h
    have htest := List.find?_some hentry
    simp only [Bool.and_eq_true, beq_iff_eq] at htest
    exact (find?_eq_some hcs).mpr ⟨entry.content,
      mem_stored.mp (List.mem_reverse.mp (List.mem_of_find?_eq_some hentry)), htest⟩
  funext r v
  refine Option.ext fun i => ⟨hfinds, fun h => ?_⟩
  obtain ⟨c, hc, rfl, rfl⟩ := (find?_eq_some hcs).mp h
  have hsome : (bound? (stored cs) c.rule c.value).isSome := by
    rw [bound?, Option.isSome_map, List.find?_isSome]
    exact ⟨⟨i, c⟩, List.mem_reverse.mpr (mem_stored.mpr hc), by simp⟩
  obtain ⟨j, hj⟩ := Option.isSome_iff_exists.mp hsome
  rw [hj, ← hfinds hj, h]

theorem ids_stored (cs : List Check) : (stored cs).map (·.id) = List.range cs.length := by
  refine List.ext_getElem (by simp [stored]) fun i _ _ => ?_
  simp [stored]

theorem contents_stored (cs : List Check) : (stored cs).map (·.content) = cs := by
  refine List.ext_getElem (by simp [stored]) fun i _ _ => ?_
  simp [stored]

theorem eq_stored_of_ids {entries : List (Numbered Nat Check)}
    (h : entries.map (·.id) = List.range entries.length) :
    entries = stored (entries.map (·.content)) := by
  refine List.ext_getElem? fun i => ?_
  cases hentry : entries[i]? with
  | none => simp [stored, hentry]
  | some entry =>
      obtain ⟨hi, rfl⟩ := List.getElem?_eq_some_iff.mp hentry
      have hid : entries[i].id = i := by simpa [hi] using congrArg (·[i]?) h
      have hstored : (stored (entries.map (·.content)))[i]? = some ⟨i, entries[i].content⟩ := by
        simp [stored, hentry]
      rw [hstored, ← congrArg (fun id => (⟨id, entries[i].content⟩ : Numbered Nat Check)) hid]

/-- Checks that differ from checks under their numbers in what resolutions have added are stored
under their numbers, too. -/
theorem eq_stored_of_bareAll {cs : List Check} {entries : List (Numbered Nat Check)}
    (h : bareAll entries = bareAll (stored cs)) : entries = stored (entries.map (·.content)) := by
  have hlength : entries.length = cs.length := by
    simpa [bareAll, stored] using congrArg List.length h
  have hids : entries.map (·.id) = (stored cs).map (·.id) := by
    simpa [bareAll, Function.comp_def] using congrArg (List.map (·.id)) h
  refine eq_stored_of_ids ?_
  rw [hids, ids_stored, hlength]

/-- Checks are stored under their numbers, and no two of them are of one pair. -/
def WellStored (entries : List (Numbered Nat Check)) : Prop :=
  ∃ cs, entries = stored cs ∧ (cs.map fun c => (c.rule, c.value)).Nodup

theorem WellStored.of_bareAll {entries entries' : List (Numbered Nat Check)}
    (h : WellStored entries) (hbare : bareAll entries' = bareAll entries) :
    WellStored entries' := by
  obtain ⟨cs, rfl, hcs⟩ := h
  have hpairs : (entries'.map (·.content)).map (fun c => (c.rule, c.value)) =
      cs.map fun c => (c.rule, c.value) := by
    rw [← contents_stored cs, List.map_map, List.map_map]
    have hmap := congrArg (List.map fun e => (e.content.rule, e.content.value)) hbare
    simpa [bareAll, bare, Function.comp_def] using hmap
  refine ⟨entries'.map (·.content), eq_stored_of_bareAll hbare, ?_⟩
  rwa [hpairs]

/-- Stored checks that can come about: made for the values of a tree, and then resolved any number
of times. A resolution that fails may have changed some of them. -/
inductive Attainable : List (Numbered Nat Check) → Prop
  | made {rootType rootType' : String} {edits edits' : List Edit} {registry : RuleRegistry}
      {policy : FailurePolicy} {depth : Nat} {document : Json} {t : ValueTree} {cs : List Check}
      (ht : (Manifest.build rootType' edits').materializeTo policy depth document = .ok t)
      (hcs : (Manifest.build rootType edits).checks registry t = .ok cs) : Attainable (stored cs)
  | resolved {m : Manifest} {t : ValueTree} {entries entries' : List (Numbered Nat Check)}
      (h : Attainable entries) (hr : m.resolveInPlace t entries = .ok () entries') :
      Attainable entries'
  | abandoned {m : Manifest} {t : ValueTree} {entries entries' : List (Numbered Nat Check)}
      {e : SetupError} (h : Attainable entries)
      (hr : m.resolveInPlace t entries = .error e entries') : Attainable entries'

theorem Attainable.wellStored {entries : List (Numbered Nat Check)} (h : Attainable entries) :
    WellStored entries := by
  induction h with
  | made ht hcs =>
      obtain ⟨top, hmat⟩ := exists_materialized ht
      refine ⟨_, rfl, ?_⟩
      rw [(Manifest.checks_pairs hcs).1]
      exact Manifest.pairs_nodup_of_applied (Manifest.build_sound _ _) fun _ _ hv =>
        (hmat.unfoldedAt (Manifest.build_sound _ _) hv).applied_nodup
  | resolved _ hr ih => exact ih.of_bareAll (Manifest.bareAll_of_resolveInPlace hr)
  | @abandoned m t entries entries' e _ hr ih =>
      refine ih.of_bareAll ?_
      have hends := Manifest.run_resolveInPlace (m := m) (t := t) entries
      rw [hr] at hends
      cases hends with
      | error _ hbare => exact hbare

end Check

namespace Manifest

theorem resolveInPlace_stored {cs : List Check}
    (hcs : (cs.map fun c => (c.rule, c.value)).Nodup) (m : Manifest) (t : ValueTree) :
    EndsAs (m.resolve t cs) Check.stored
      (fun left => Check.bareAll left = Check.bareAll (Check.stored cs))
      (m.resolveInPlace t (Check.stored cs)) := by
  have hends := run_resolveInPlace (m := m) (t := t) (Check.stored cs)
  have hmapM : (Check.stored cs).mapM (m.accrue t (Check.find? cs)) =
      Check.stored <$> m.resolve t cs := by
    rw [resolve_eq]
    exact mapM_accrue cs 0
  rw [Check.bound?_stored hcs, hmapM] at hends
  exact hends.of_map

/-- How resolutions of stored checks go together. -/
structure Accumulates (entries : List (Numbered Nat Check)) : Prop where
  /-- In place the checks become what they become all at once. -/
  inPlace : ∃ cs, entries = Check.stored cs ∧ ∀ (m : Manifest) (t : ValueTree),
    EndsAs (m.resolve t cs) Check.stored (fun left => Check.bareAll left = Check.bareAll entries)
      (m.resolveInPlace t entries)
  /-- A resolution adds what it finds for checks without dependencies. -/
  alone {m : Manifest} {t : ValueTree} {entries' : List (Numbered Nat Check)}
    (h : m.resolveInPlace t entries = .ok () entries') :
    ∃ alone, m.resolveInPlace t (Check.bareAll entries) = .ok () alone ∧
      Check.SumsUp entries [alone] entries'
  /-- Two resolutions add what each of them adds, whichever is first. -/
  commute {m₁ m₂ : Manifest} {t₁ t₂ : ValueTree} {entries₁ entries₂ : List (Numbered Nat Check)}
    (h₁ : m₁.resolveInPlace t₁ entries = .ok () entries₁)
    (h₂ : m₂.resolveInPlace t₂ entries = .ok () entries₂) :
    ∃ alone₁ alone₂ both, m₁.resolveInPlace t₁ (Check.bareAll entries) = .ok () alone₁ ∧
      m₂.resolveInPlace t₂ (Check.bareAll entries) = .ok () alone₂ ∧
      m₂.resolveInPlace t₂ entries₁ = .ok () both ∧ m₁.resolveInPlace t₁ entries₂ = .ok () both ∧
      Check.SumsUp entries [alone₁, alone₂] both
  idempotent {m : Manifest} {t : ValueTree} {entries' : List (Numbered Nat Check)}
    (h : m.resolveInPlace t entries = .ok () entries') :
    m.resolveInPlace t entries' = .ok () entries'
  /-- Dependencies that are there have no say in whether a resolution fails, and how. -/
  sameOutcome (m : Manifest) (t : ValueTree) {entries' : List (Numbered Nat Check)}
    (h : Check.bareAll entries' = Check.bareAll entries) :
    SameOutcome (m.resolveInPlace t entries) (m.resolveInPlace t entries')

end Manifest

/-- **Resolutions add up, in any order.** Take the checks of a tree, whichever manifests built the
tree and made the checks, resolved as often as you like, also by resolutions that failed halfway. A
further resolution adds to them what it finds for checks without dependencies. Two resolutions add
what each of them adds, in whichever order they are made, and a repeated one adds nothing. Whether a
resolution fails, and with which error, does not depend on the dependencies that are there. -/
theorem resolutions_accumulate {entries : List (Numbered Nat Check)}
    (hentries : Check.Attainable entries) : Manifest.Accumulates entries where
  inPlace := by
    obtain ⟨cs, rfl, hcs⟩ := hentries.wellStored
    exact ⟨cs, rfl, Manifest.resolveInPlace_stored hcs⟩
  alone h := by
    obtain ⟨alone, halone⟩ := Manifest.exists_resolveInPlace (Check.bareAll_bareAll entries) h
    exact ⟨alone, halone, Manifest.sumsUp_of_resolveInPlace h halone⟩
  commute h₁ h₂ := by
    obtain ⟨alone₁, halone₁⟩ := Manifest.exists_resolveInPlace (Check.bareAll_bareAll entries) h₁
    obtain ⟨alone₂, halone₂⟩ := Manifest.exists_resolveInPlace (Check.bareAll_bareAll entries) h₂
    obtain ⟨both, hboth, hboth'⟩ := Manifest.resolveInPlace_comm h₁ h₂
    have hsum := Manifest.sumsUp_of_resolveInPlace h₁ halone₁
    have hmore : Check.SumsUp _ [alone₂] both := Manifest.sumsUp_of_resolveInPlace hboth (by
      rw [Manifest.bareAll_of_resolveInPlace h₁, halone₂])
    exact ⟨alone₁, alone₂, both, halone₁, halone₂, hboth, hboth', hsum.trans hmore⟩
  idempotent := Manifest.resolveInPlace_idem
  sameOutcome _ _ _ h := Manifest.resolveInPlace_sameOutcome h.symm

/-- The folder with other dependencies: a key is checked only if the folder that it opens passes. -/
def openedEdits : List Edit := folderEdits ++ [
  .addRule ⟨3⟩ "sealed" none [] [],
  .addRule ⟨4⟩ "known" none [] [⟨⟨0⟩, ⟨"owned", "Folder", none⟩⟩],
  .addRule ⟨0⟩ "owned" none [] []]

/-- Resolved by one manifest, the check of the key waits for that of the lock, by the other for that
of the folder; resolved by both, in either order, it waits for both. -/
theorem resolutions_accumulate_locked :
    ∃ t cs rs₁ rs₂ both,
      (Manifest.build "Folder" lockedEdits).materializeTo .skip 6 folder = .ok t ∧
      (Manifest.build "Folder" lockedEdits).checks lockedRules t = .ok cs ∧
      rs₁.map (·.content.dependencies) = [[], [3], [], [2], []] ∧
      rs₂.map (·.content.dependencies) = [[], [], [], [1], []] ∧
      Manifest.Accumulates (Check.stored cs) ∧
      (Manifest.build "Folder" lockedEdits).resolveInPlace t (Check.stored cs) = .ok () rs₁ ∧
      (Manifest.build "Folder" openedEdits).resolveInPlace t (Check.stored cs) = .ok () rs₂ ∧
      (Manifest.build "Folder" openedEdits).resolveInPlace t rs₁ = .ok () both ∧
      (Manifest.build "Folder" lockedEdits).resolveInPlace t rs₂ = .ok () both := by
  have hsome : ((Manifest.build "Folder" lockedEdits).materializeTo .skip 6 folder).toOption.bind
      (fun t => ((Manifest.build "Folder" lockedEdits).checks lockedRules t).toOption.bind fun cs =>
        ((Manifest.build "Folder" lockedEdits).resolve t cs).toOption.bind fun rs₁ =>
          ((Manifest.build "Folder" openedEdits).resolve t cs).toOption.map fun rs₂ =>
            (rs₁.map (·.dependencies), rs₂.map (·.dependencies))) =
      some ([[], [3], [], [2], []], [[], [], [], [1], []]) := by decide +kernel
  obtain ⟨t, ht, hsome⟩ := Option.bind_eq_some_iff.mp hsome
  obtain ⟨cs, hcs, hsome⟩ := Option.bind_eq_some_iff.mp hsome
  obtain ⟨rs₁, hrs₁, hsome⟩ := Option.bind_eq_some_iff.mp hsome
  obtain ⟨rs₂, hrs₂, hdeps⟩ := Option.map_eq_some_iff.mp hsome
  obtain ⟨hdeps₁, hdeps₂⟩ := Prod.mk.inj hdeps
  have htree := Fallible.eq_ok_of_toOption ht
  have hchecks := Fallible.eq_ok_of_toOption hcs
  have hsums := resolutions_accumulate (.made htree hchecks)
  obtain ⟨cs', hstored, hends⟩ := hsums.inPlace
  obtain rfl : cs = cs' := by
    rw [← Check.contents_stored cs, hstored, Check.contents_stored]
  have h₁ := (hends (Manifest.build "Folder" lockedEdits) t).ok_iff.mpr
    ⟨rs₁, Fallible.eq_ok_of_toOption hrs₁, rfl⟩
  have h₂ := (hends (Manifest.build "Folder" openedEdits) t).ok_iff.mpr
    ⟨rs₂, Fallible.eq_ok_of_toOption hrs₂, rfl⟩
  obtain ⟨-, -, both, -, -, hboth, hboth', -⟩ := hsums.commute h₁ h₂
  refine ⟨t, cs, _, _, both, htree, hchecks, ?_, ?_, hsums, h₁, h₂, hboth, hboth'⟩
  · rw [← hdeps₁, ← Function.comp_def, ← List.map_map, Check.contents_stored]
  · rw [← hdeps₂, ← Function.comp_def, ← List.map_map, Check.contents_stored]

end Vetting
