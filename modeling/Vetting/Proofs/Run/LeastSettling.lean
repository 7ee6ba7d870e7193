import Mathlib.Data.Set.Card
import Mathlib.Order.Bounds.Basic
import Vetting.Proofs.Run.Settling
import Vetting.Run.InPlace

/-!
# Settling settles the least set in one call

Failures spread to a set of pending checks without a result (`Plan.Spreads`) if it has all that are
unsatisfiable, and all that have only dependencies with a result or in the set, one of them not
passed or in the set. One call settles the least such set (`Plan.settle_isLeast`). It has no more,
as every check that is settled is in every such set (`Plan.mem_of_settled`), and no less, as nothing
blocked is left when a pass changes nothing (`Plan.spreads_gained`).

The passes over the pending checks are not bounded in advance. They come to an end as each pass but
the last one settles a check (`Pass.exists_endsWith`), even if dependencies go round in a ring.
-/

namespace Vetting

/-- The checks that have a result in `l'` but not in `l`. -/
def Ledger.gained (l l' : Ledger) : Set Nat := {i | l.contains i = false ∧ l'.contains i = true}

namespace Plan

variable {p : Plan} {pending : List Nat} {l l' : Ledger} {i : Nat} {S : Set Nat}

/-- Failures spread to a set of pending checks without a result. -/
structure Spreads (p : Plan) (pending : List Nat) (l : Ledger) (S : Set Nat) : Prop where
  isOpen {i : Nat} (h : i ∈ S) : i ∈ pending ∧ l.contains i = false
  unsatisfiable {i : Nat} {check : Check} (hi : i ∈ pending) (hopen : l.contains i = false)
    (hc : p.check? i = some check) (h : check.unsatisfiable = true) : i ∈ S
  failed {i : Nat} {check : Check} (hi : i ∈ pending) (hopen : l.contains i = false)
    (hc : p.check? i = some check)
    (hall : ∀ j ∈ check.dependencies, l.contains j = true ∨ j ∈ S)
    (hany : ∃ j ∈ check.dependencies,
      (∃ outcome, l.outcome? j = some outcome ∧ outcome ≠ .passed) ∨ j ∈ S) : i ∈ S

/-! ## No more than the least set -/

/-- As long as only checks of the set were settled, what is blocked is in the set: what blocks it is
either recorded from the start or in the set. -/
theorem Spreads.mem_of_fails (hS : p.Spreads pending l S) (hbelow : l.Below l')
    (hin : ∀ i, l'.contains i = true → l.contains i = true ∨ i ∈ S)
    (hfails : p.Fails pending l' i) : i ∈ S := by
  have hopen : l.contains i = false := hbelow.contains_eq_false hfails.isOpen
  obtain ⟨check, hc, hunsat | ⟨hall, j, hj, hout⟩⟩ := isBlocked_iff.mp hfails.isBlocked
  · exact hS.unsatisfiable hfails.mem hopen hc hunsat
  · refine hS.failed hfails.mem hopen hc (fun k hk => hin k (hall k hk)) ⟨j, hj, ?_⟩
    refine (hin j (hall j hj)).imp_left fun hrecorded => ?_
    obtain ⟨outcome, houtcome⟩ := Ledger.contains_iff_outcome?.mp hrecorded
    refine ⟨outcome, houtcome, fun hpassed => hout ?_⟩
    rw [hbelow.outcome? houtcome, hpassed]

/-- What is settled is in every set that failures spread to. -/
theorem mem_of_settled (hS : p.Spreads pending l S) (hopen : l.contains i = false)
    (hi : (p.settle pending l).contains i = true) : i ∈ S := by
  suffices l.Below (p.settle pending l) ∧
      ∀ i, (p.settle pending l).contains i = true → l.contains i = true ∨ i ∈ S from
    (this.2 i hi).resolve_left (by simp [hopen])
  refine settle_keeps
    (P := fun l' => l.Below l' ∧ ∀ i, l'.contains i = true → l.contains i = true ∨ i ∈ S)
    (fun l' i ⟨hbelow, hin⟩ hfails => ?_) ⟨.refl l, fun _ => .inl⟩
  refine ⟨hbelow.trans (Ledger.below_record l' i _), fun j hj => ?_⟩
  rw [Ledger.contains_record hfails.isOpen, Bool.or_eq_true, decide_eq_true_eq] at hj
  rcases hj with rfl | hj
  · exact .inr (hS.mem_of_fails hbelow hin hfails)
  · exact hin j hj

/-! ## No less -/

/-- What a call to settle adds to a ledger are failed dependencies. -/
theorem entry?_of_gained (hi : i ∈ l.gained (p.settle pending l)) :
    Ledger.entry? (p.settle pending l) i = some { result := .dependencyFailed } := by
  obtain ⟨e, he⟩ := Ledger.contains_iff.mp hi.2
  rcases entry?_settle he with hold | ⟨-, rfl⟩
  · rw [Ledger.contains_eq_false.mp hi.1] at hold
    cases hold
  · exact he

/-- Failures spread to the set of what is settled: whatever else they would spread to is blocked
when all is settled. -/
theorem spreads_gained (p : Plan) (pending : List Nat) (l : Ledger) :
    p.Spreads pending l (l.gained (p.settle pending l)) := by
  have hsettles := settle_settles p pending l
  have hmem : ∀ {i}, i ∈ pending → l.contains i = false →
      p.isBlocked (p.settle pending l) i = true → i ∈ l.gained (p.settle pending l) := by
    intro i hi hopen hblocked
    refine ⟨hopen, Bool.not_eq_false _ ▸ fun hout => ?_⟩
    rw [not_isBlocked_settle hi hout] at hblocked
    cases hblocked
  refine ⟨fun h => ⟨hsettles.of_pending h.1 h.2, h.1⟩, fun hi hopen hc h => ?_,
    fun hi hopen hc hall hany => ?_⟩
  · exact hmem hi hopen (isBlocked_iff.mpr ⟨_, hc, .inl h⟩)
  · refine hmem hi hopen (isBlocked_iff.mpr ⟨_, hc, .inr ⟨fun j hj => ?_, ?_⟩⟩)
    · exact (hall j hj).elim hsettles.below.contains And.right
    · obtain ⟨j, hj, ⟨outcome, hout, hne⟩ | hgained⟩ := hany
      · refine ⟨j, hj, ?_⟩
        rw [hsettles.below.outcome? hout]
        exact fun h => hne (Option.some.inj h)
      · refine ⟨j, hj, ?_⟩
        rw [Ledger.outcome?, entry?_of_gained hgained]
        simp [Result.outcome]

theorem gained_isLeast (p : Plan) (pending : List Nat) (l : Ledger) :
    IsLeast {S | p.Spreads pending l S} (l.gained (p.settle pending l)) :=
  ⟨spreads_gained p pending l, fun _ hS _ hi => mem_of_settled hS hi.1 hi.2⟩

/-! ## The number of checks that are settled -/

/-- What settling enters is entered at the end, once for each check that had no result. -/
theorem keys_settle (p : Plan) (pending : List Nat) (l : Ledger) :
    ∃ is, (p.settle pending l).keys = l.keys ++ is ∧ is.Nodup ∧ ∀ i ∈ is, i ∉ l.keys := by
  refine settle_keeps
    (P := fun l' => ∃ is, l'.keys = l.keys ++ is ∧ is.Nodup ∧ ∀ i ∈ is, i ∉ l.keys)
    (fun l' i ⟨is, hkeys, hnodup, hold⟩ hfails => ?_) ⟨[], by simp, List.nodup_nil, nofun⟩
  have hnew : i ∉ l.keys ∧ i ∉ is := by
    rw [← not_or, ← List.mem_append, ← hkeys, Ledger.mem_keys, hfails.isOpen]
    exact Bool.false_ne_true
  refine ⟨is ++ [i], ?_, (List.perm_append_singleton i is).nodup_iff.mpr (hnodup.cons hnew.2), ?_⟩
  · rw [Ledger.keys_record hfails.isOpen, hkeys, List.append_assoc]
  · exact List.forall_mem_append.mpr ⟨hold, List.forall_mem_singleton.mpr hnew.1⟩

/-- The ledger grows by one entry for each check that is settled. -/
theorem encard_gained (p : Plan) (pending : List Nat) (l : Ledger) :
    (l.gained (p.settle pending l)).encard + l.size = (p.settle pending l).size := by
  obtain ⟨is, hkeys, hnodup, hnew⟩ := keys_settle p pending l
  have hgained : l.gained (p.settle pending l) = is.toFinset := by
    ext i
    have hopen : l.contains i = false ↔ i ∉ l.keys := by rw [Ledger.mem_keys, Bool.not_eq_true]
    have hmem : (p.settle pending l).contains i = true ↔ i ∈ l.keys ∨ i ∈ is := by
      rw [← Ledger.mem_keys, hkeys, List.mem_append]
    rw [List.coe_toFinset]
    show l.contains i = false ∧ _ ↔ i ∈ is
    rw [hopen, hmem]
    exact ⟨fun ⟨hold, hi⟩ => hi.resolve_left hold, fun hi => ⟨hnew i hi, .inr hi⟩⟩
  rw [hgained, Set.encard_coe_eq_coe_finsetCard, List.toFinset_card_of_nodup hnodup,
    ← Ledger.length_keys, ← Ledger.length_keys, hkeys, List.length_append, Nat.add_comm]
  rfl

end Plan

/-! ## The loop -/

namespace Pass

/-- From `s` to `t`, as many checks are settled as the ledger gets entries, and something changes if
it gets any. -/
structure Counts (s t : Pass) : Prop where
  size_le : s.ledger.size ≤ t.ledger.size
  settled : t.settled + s.ledger.size = s.settled + t.ledger.size
  changed : t.changed = true ↔ s.changed = true ∨ s.ledger.size < t.ledger.size

theorem Counts.refl (s : Pass) : Counts s s := ⟨Nat.le_refl _, rfl, by simp⟩

theorem Counts.trans {s t u : Pass} (h : Counts s t) (h' : Counts t u) : Counts s u := by
  obtain ⟨hle, hsettled, hchanged⟩ := h
  obtain ⟨hle', hsettled', hchanged'⟩ := h'
  refine ⟨Nat.le_trans hle hle', by omega, ?_⟩
  rw [hchanged', hchanged, or_assoc]
  exact or_congr_right (by omega)

theorem visit_ledger (p : Plan) (s : Pass) (i : Nat) :
    (s.visit p i).ledger = p.settleCheck s.ledger i := by
  unfold visit Plan.settleCheck
  cases s.ledger.contains i <;> cases p.isBlocked s.ledger i <;> rfl

theorem visit_counts (p : Plan) (s : Pass) (i : Nat) : Counts s (s.visit p i) := by
  unfold visit
  split
  · exact .refl s
  · rename_i hopen
    have hsize := Ledger.size_record (Bool.not_eq_true _ ▸ hopen) { result := .dependencyFailed }
    split
    · exact ⟨by simp only [hsize]; omega, by simp only [hsize]; omega, by simp [hsize]⟩
    · exact .refl s

theorem next_ledger (p : Plan) (pending : List Nat) (s : Pass) :
    (s.next p pending).ledger = p.settleOnce pending s.ledger :=
  (List.foldl_hom ledger fun s i => (visit_ledger p s i).symm).symm

theorem next_counts (p : Plan) (pending : List Nat) (s : Pass) :
    Counts { s with changed := false } (s.next p pending) :=
  List.foldlRecOn pending _ (Counts.refl _) fun t ht i _ => ht.trans (visit_counts p t i)

/-- Passes come to an end at most once. -/
theorem EndsWith.unique {p : Plan} {pending : List Nat} {s t t' : Pass}
    (h : EndsWith p pending s t) (h' : EndsWith p pending s t') : t' = t := by
  induction h with
  | last hlast =>
      cases h' with
      | last => rfl
      | again hagain _ =>
          rw [hlast] at hagain
          cases hagain
  | again hagain _ ih =>
      cases h' with
      | last hlast =>
          rw [hlast] at hagain
          cases hagain
      | again _ rest => exact ih rest

/-- Passes come to an end. By then they are those of `settleRounds`, if these are more than there
are pending checks without a result, and what is settled has been counted. -/
theorem exists_endsWith {p : Plan} {pending : List Nat} {rounds : Nat} (s : Pass)
    (hrounds : (pending.filter (!s.ledger.contains ·)).length < rounds) :
    ∃ n, EndsWith p pending s { ledger := p.settleRounds pending rounds s.ledger, settled := n } ∧
      n + s.ledger.size = s.settled + (p.settleRounds pending rounds s.ledger).size := by
  induction rounds generalizing s with
  | zero => omega
  | succ rounds ih =>
      have hledger := next_ledger p pending s
      obtain ⟨-, hsettled, hchanged⟩ := next_counts p pending s
      have honce := Plan.settleOnce_settles p pending s.ledger
      rw [← hledger] at honce
      dsimp only at hsettled hchanged
      rw [Plan.settleRounds, ← hledger]
      by_cases hsize : (s.next p pending).ledger.size = s.ledger.size
      · -- The pass has settled nothing, and is the last one.
        have hlast : (s.next p pending).changed = false := by
          simp [Bool.eq_false_iff, hchanged, hsize]
        refine ⟨(s.next p pending).settled, ?_, ?_⟩
        · rw [if_pos hsize, ← honce.eq_of_size hsize, ← hlast]
          exact .last hlast
        · rw [if_pos hsize, hsettled, hsize]
      · -- It has settled some check, so that fewer pending checks have no result.
        have hagain : (s.next p pending).changed = true :=
          hchanged.mpr (.inr (by have := honce.size_le; omega))
        have hfewer := Plan.length_open_lt honce hsize
        obtain ⟨n, hends, hn⟩ := ih (s.next p pending) (by omega)
        rw [if_neg hsize]
        exact ⟨n, .again hagain hends, by omega⟩

end Pass

namespace Plan

variable {p : Plan} {pending : List Nat} {l l' : Ledger}

/-- A call to settle comes to an end, and what it answers is by how much the ledger has grown. -/
theorem exists_endsWith_settle (p : Plan) (pending : List Nat) (l : Ledger) :
    ∃ n, Pass.EndsWith p pending { ledger := l } { ledger := p.settle pending l, settled := n } ∧
      n + l.size = (p.settle pending l).size := by
  have hrounds : (pending.filter (!l.contains ·)).length < pending.length + 1 :=
    Nat.lt_succ_of_le (List.length_filter_le _ _)
  obtain ⟨n, hends, hn⟩ := Pass.exists_endsWith (p := p) { ledger := l } hrounds
  exact ⟨n, hends, hn.trans (Nat.zero_add _)⟩

/-! ## One call -/

/-- From `l` to `l'`, the checks of the least set that failures spread to are settled, and nothing
else is done. -/
structure SettlesLeast (p : Plan) (pending : List Nat) (l l' : Ledger) (settled : Nat) : Prop where
  isLeast : IsLeast {S | p.Spreads pending l S} (l.gained l')
  card : (l.gained l').encard = settled
  failed : ∀ i ∈ l.gained l', l'.entry? i = some { result := .dependencyFailed }
  kept : ∀ i, i ∉ l.gained l' → l'.entry? i = l.entry? i

theorem Spreads.congr {pending' : List Nat} {S : Set Nat}
    (hpending : ∀ i, i ∈ pending' ↔ i ∈ pending) (h : p.Spreads pending l S) :
    p.Spreads pending' l S where
  isOpen hi := (h.isOpen hi).imp_left (hpending _).mpr
  unsatisfiable hi := h.unsatisfiable ((hpending _).mp hi)
  failed hi := h.failed ((hpending _).mp hi)

/-- Where the same checks are pending, the same ones are settled. -/
theorem SettlesLeast.unique {pending' : List Nat} {l'' : Ledger} {n n' : Nat}
    (hpending : ∀ i, i ∈ pending' ↔ i ∈ pending) (h : p.SettlesLeast pending l l' n)
    (h' : p.SettlesLeast pending' l l'' n') : n' = n ∧ ∀ i, l''.entry? i = l'.entry? i := by
  have hspreads : {S | p.Spreads pending' l S} = {S | p.Spreads pending l S} :=
    Set.ext fun S => ⟨.congr fun i => (hpending i).symm, .congr hpending⟩
  have hsame : l.gained l'' = l.gained l' := (hspreads ▸ h'.isLeast).unique h.isLeast
  refine ⟨?_, fun i => ?_⟩
  · have := h'.card.symm.trans ((congrArg Set.encard hsame).trans h.card)
    exact_mod_cast this
  · by_cases hi : i ∈ l.gained l'
    · rw [h.failed i hi, h'.failed i (hsame ▸ hi)]
    · rw [h.kept i hi, h'.kept i (hsame ▸ hi)]

theorem settle_settlesLeast (p : Plan) (pending : List Nat) (l : Ledger) {n : Nat}
    (hn : n + l.size = (p.settle pending l).size) :
    p.SettlesLeast pending l (p.settle pending l) n := by
  refine ⟨gained_isLeast p pending l, ?_, fun i => entry?_of_gained, fun i hi => ?_⟩
  · have hcard := encard_gained p pending l
    rw [← hn] at hcard
    push_cast at hcard
    exact (ENat.add_left_injective_of_ne_top (ENat.natCast_ne_top _)) hcard
  · cases hc : l.contains i with
    | true =>
        obtain ⟨e, he⟩ := Ledger.contains_iff.mp hc
        rw [he, (settle_settles p pending l).below i e he]
    | false =>
        rw [Ledger.contains_eq_false.mp hc, ← Ledger.contains_eq_false]
        exact Bool.not_eq_true _ ▸ fun h => hi ⟨hc, h⟩

/-- One call settles, for any plan, any results there are and any pending checks, the least set of
pending checks without a result that failures spread to.

- The call comes to an end, even if checks depend on each other in a ring, with the ledger that runs
  go on with.
- The checks that newly have a result are those of the least set, and their number is the answer.
  All of them get the result that a dependency failed; every other result is as it was.
- It does not matter in which order the pending checks are. -/
theorem settle_isLeast (p : Plan) (pending : List Nat) (l : Ledger) :
    ∃ n, (∀ t, Pass.EndsWith p pending { ledger := l } t ↔
        t = { ledger := p.settle pending l, settled := n }) ∧
      p.SettlesLeast pending l (p.settle pending l) n ∧
      ∀ pending', (∀ i, i ∈ pending' ↔ i ∈ pending) →
        ∃ l', Pass.EndsWith p pending' { ledger := l } { ledger := l', settled := n } ∧
          ∀ i, l'.entry? i = Ledger.entry? (p.settle pending l) i := by
  obtain ⟨n, hends, hn⟩ := exists_endsWith_settle p pending l
  have hleast := settle_settlesLeast p pending l hn
  refine ⟨n, fun t => ⟨hends.unique, fun ht => ht ▸ hends⟩, hleast, fun pending' hpending => ?_⟩
  obtain ⟨n', hends', hn'⟩ := exists_endsWith_settle p pending' l
  obtain ⟨rfl, hsame⟩ := hleast.unique hpending (settle_settlesLeast p pending' l hn')
  exact ⟨_, hends', hsame⟩

/-- Checks that wait for each other stay as they are. A failure is passed on to a check that comes
before the failing one. -/
example (tree : ValueTree) (check : Check) :
    let waiting (on : Nat) : Check := { check with dependencies := [on], unsatisfiable := false }
    let failing : Check := { check with dependencies := [], unsatisfiable := true }
    let p : Plan := ⟨tree, [waiting 1, waiting 0, waiting 3, failing]⟩
    (p.settle [0, 1, 2, 3] {}).keys = [3, 2] := by
  cbv

end Plan

end Vetting
