import Vetting.Proofs.Run.Reference
import Vetting.Run.Settling

/-!
# Settling enters reference results, and all of them

A check that is settled has the reference result that a dependency failed
(`Plan.settle_agrees`), and once settling is done no pending check without a result is blocked
(`Plan.not_isBlocked_settle`): each round that leaves one settles another, and there are more
rounds than pending checks.
-/

namespace Vetting

/-! ## Ledgers -/

namespace Ledger

variable {l l' : Ledger} {i j : Nat} {e : Entry}

theorem contains_iff : l.contains i = true ↔ ∃ e, l.entry? i = some e :=
  Option.isSome_iff_exists

theorem contains_eq_false : l.contains i = false ↔ l.entry? i = none := by
  unfold contains
  cases l.entry? i <;> simp

theorem entry?_record (hopen : l.contains i = false) (e : Entry) (j : Nat) :
    Ledger.entry? (l.record i e) j = if j = i then some e else l.entry? j := by
  rw [record, hopen, if_neg Bool.false_ne_true]
  show (l.entries ++ [(i, e)]).lookup j = _
  rw [List.lookup_append]
  have hnone : l.entries.lookup i = none := contains_eq_false.mp hopen
  by_cases hj : j = i
  · subst hj
    simp [hnone]
  · have hne : (j == i) = false := beq_false_of_ne hj
    simp [hj, hne, List.lookup_cons, entry?]

theorem contains_record (hopen : l.contains i = false) (e : Entry) (j : Nat) :
    (l.record i e).contains j = (decide (j = i) || l.contains j) := by
  rw [contains, entry?_record hopen]
  by_cases hj : j = i <;> simp [hj, contains]

theorem size_record (hopen : l.contains i = false) (e : Entry) :
    (l.record i e).size = l.size + 1 := by
  rw [record, hopen, if_neg Bool.false_ne_true]
  exact List.length_append

/-- The checks that have results, in the order in which these came in. -/
def keys (l : Ledger) : List Nat := l.entries.map (·.1)

theorem length_keys (l : Ledger) : l.keys.length = l.size := List.length_map ..

theorem mem_keys : i ∈ l.keys ↔ l.contains i = true := by
  rw [contains, entry?, List.lookup_isSome_iff, keys, List.mem_map]
  exact exists_congr fun _ => and_congr_right fun _ => eq_comm.trans beq_iff_eq.symm

theorem keys_record (hopen : l.contains i = false) (e : Entry) :
    (l.record i e).keys = l.keys ++ [i] := by
  rw [record, hopen, if_neg Bool.false_ne_true]
  exact List.map_append

theorem nodup_keys_record (h : l.keys.Nodup) (i : Nat) (e : Entry) :
    (l.record i e).keys.Nodup := by
  cases hopen : l.contains i with
  | true => rwa [record, hopen, if_pos rfl]
  | false =>
      rw [keys_record hopen]
      have hnew : i ∉ l.keys := fun hi => by
        rw [mem_keys, hopen] at hi
        cases hi
      exact List.nodup_append.mpr ⟨h, List.nodup_singleton i, fun j hj k hk heq =>
        hnew (List.mem_singleton.mp hk ▸ heq ▸ hj)⟩

/-- The size of a ledger is the number of checks that have results. -/
theorem size_eq_countP {n : Nat} (hnodup : l.keys.Nodup) (hlt : ∀ i, l.contains i = true → i < n) :
    l.size = (List.range n).countP l.contains := by
  have hperm : l.keys.Perm ((List.range n).filter l.contains) := by
    refine (List.perm_ext_iff_of_nodup hnodup (List.nodup_range.filter _)).mpr fun i => ?_
    rw [mem_keys, List.mem_filter, List.mem_range]
    exact ⟨fun hi => ⟨hlt i hi, hi⟩, And.right⟩
  rw [← length_keys, hperm.length_eq, List.countP_eq_length_filter]

/-- `l'` has all entries of `l`. -/
def Below (l l' : Ledger) : Prop := ∀ i e, l.entry? i = some e → l'.entry? i = some e

theorem Below.refl (l : Ledger) : l.Below l := fun _ _ => id

theorem Below.trans {l'' : Ledger} (h : l.Below l') (h' : l'.Below l'') : l.Below l'' :=
  fun i e he => h' i e (h i e he)

theorem Below.contains (h : l.Below l') (hi : l.contains i = true) : l'.contains i = true := by
  obtain ⟨e, he⟩ := contains_iff.mp hi
  exact contains_iff.mpr ⟨e, h i e he⟩

theorem contains_iff_outcome? : l.contains i = true ↔ ∃ outcome, l.outcome? i = some outcome := by
  rw [contains, outcome?, ← Option.isSome_iff_exists, Option.isSome_map]

theorem Below.outcome? {outcome : Outcome} (h : l.Below l') (hi : l.outcome? i = some outcome) :
    l'.outcome? i = some outcome := by
  obtain ⟨e, he, houtcome⟩ := Option.map_eq_some_iff.mp hi
  exact Option.map_eq_some_iff.mpr ⟨e, h i e he, houtcome⟩

theorem Below.contains_eq_false (h : l.Below l') (hi : l'.contains i = false) :
    l.contains i = false := by
  cases hc : l.contains i with
  | false => rfl
  | true => rw [h.contains hc] at hi; cases hi

theorem below_record (l : Ledger) (i : Nat) (e : Entry) : l.Below (l.record i e) := by
  intro j e' he
  cases hopen : l.contains i with
  | true => rwa [record, hopen, if_pos rfl]
  | false =>
      rw [entry?_record hopen]
      by_cases hj : j = i
      · subst hj
        rw [Ledger.contains_eq_false.mp hopen] at he
        cases he
      · rw [if_neg hj, he]

theorem contains_record_self (l : Ledger) (i : Nat) (e : Entry) :
    (l.record i e).contains i = true := by
  cases hopen : l.contains i with
  | true => rwa [record, hopen, if_pos rfl]
  | false => simp [contains_record hopen]

/-- All results of a ledger are those that `result` gives. -/
def Agrees (l : Ledger) (result : Nat → Result) : Prop :=
  ∀ i e, l.entry? i = some e → e.result = result i

theorem Agrees.record {result : Nat → Result} (h : l.Agrees result)
    (hopen : l.contains i = false) (he : e.result = result i) :
    (l.record i e).Agrees result := by
  intro j e' hj
  rw [entry?_record hopen] at hj
  split at hj
  · obtain rfl := Option.some.inj hj
    rw [he, ‹j = i›]
  · exact h j e' hj

theorem Agrees.outcome? {result : Nat → Result} (h : l.Agrees result)
    (hi : l.contains i = true) : l.outcome? i = some (result i).outcome := by
  obtain ⟨e, he⟩ := contains_iff.mp hi
  rw [Ledger.outcome?, he, Option.map_some, h i e he]

end Ledger

namespace Plan

variable {p : Plan} {hp : p.Orderly} {l : Ledger} {i : Nat}

/-! ## Blocked and ready checks -/

theorem isBlocked_iff : p.isBlocked l i = true ↔ ∃ check, p.check? i = some check ∧
    (check.unsatisfiable = true ∨ (∀ j ∈ check.dependencies, l.contains j = true) ∧
      ∃ j ∈ check.dependencies, l.outcome? j ≠ some .passed) := by
  simp [isBlocked, Option.any_eq_true]

/-- What is blocked has a failed dependency as its reference result. -/
theorem eval_of_isBlocked (hl : l.Agrees (p.eval hp)) (h : p.isBlocked l i = true) :
    p.eval hp i = .dependencyFailed := by
  obtain ⟨check, hc, hunsat | ⟨hall, j, hj, hout⟩⟩ := isBlocked_iff.mp h
  · exact eval_of_unsatisfiable hp hc hunsat
  · refine eval_of_not_passed hp hc hj ?_
    rw [hl.outcome? (hall j hj)] at hout
    simpa [Result.isPassed] using hout

/-- Check `i` is satisfiable, and all that it depends on passed. -/
def Cleared (p : Plan) (l : Ledger) (i : Nat) : Prop :=
  ∃ check, p.check? i = some check ∧ check.unsatisfiable = false ∧
    ∀ j ∈ check.dependencies, l.outcome? j = some .passed

/-- What is ready and not blocked can be made. -/
theorem cleared_of_isReady (hready : p.isReady l i = true) (hfree : p.isBlocked l i = false) :
    p.Cleared l i := by
  obtain ⟨check, hc, hall⟩ := (Option.any_eq_true _ _).mp hready
  rw [isBlocked, hc, Option.any_some, hall, Bool.true_and, Bool.or_eq_false_iff] at hfree
  refine ⟨check, hc, hfree.1, fun j hj => ?_⟩
  simpa using List.any_eq_false.mp hfree.2 j hj

theorem Cleared.mono {l' : Ledger} (h : p.Cleared l i) (hle : l.Below l') : p.Cleared l' i := by
  obtain ⟨check, hc, hsat, hpassed⟩ := h
  exact ⟨check, hc, hsat, fun j hj => hle.outcome? (hpassed j hj)⟩

/-- What can be made has the answer of its rule as its reference result. -/
theorem eval_of_cleared (hl : l.Agrees (p.eval hp)) (h : p.Cleared l i) :
    ∃ check, p.check? i = some check ∧ p.eval hp i = .ofAnswer (p.answerOf check) := by
  obtain ⟨check, hc, hsat, hpassed⟩ := h
  refine ⟨check, hc, eval_of_passed hp hc hsat fun j hj => ?_⟩
  obtain ⟨e, he, houtcome⟩ := Option.map_eq_some_iff.mp (hpassed j hj)
  rw [Result.isPassed, ← hl j e he, houtcome]
  rfl

/-! ## One pass -/

theorem settleCheck_cases (p : Plan) (l : Ledger) (i : Nat) :
    (p.settleCheck l i = l ∧ (l.contains i = true ∨ p.isBlocked l i = false)) ∨
      (l.contains i = false ∧ p.isBlocked l i = true ∧
        p.settleCheck l i = l.record i { result := .dependencyFailed }) := by
  unfold settleCheck
  cases hc : l.contains i <;> cases hb : p.isBlocked l i <;> simp

/-- What a pass over some checks does to a ledger: it adds failed dependencies of these checks. -/
structure Settles (p : Plan) (pending : List Nat) (l l' : Ledger) : Prop where
  below : l.Below l'
  nodup (h : l.keys.Nodup) : l'.keys.Nodup
  agrees {result : Nat → Result} (h : l.Agrees result)
    (hblocked : ∀ l i, l.Agrees result → p.isBlocked l i = true → result i = .dependencyFailed) :
    l'.Agrees result
  of_pending {i : Nat} (hopen : l.contains i = false) (h : l'.contains i = true) : i ∈ pending
  size_le : l.size ≤ l'.size
  eq_of_size (h : l'.size = l.size) : l' = l
  exists_new (h : l'.size ≠ l.size) : ∃ i, l.contains i = false ∧ l'.contains i = true

theorem Settles.refl (p : Plan) (pending : List Nat) (l : Ledger) : p.Settles pending l l :=
  ⟨.refl l, id, fun h _ => h, fun hopen h => absurd (hopen.symm.trans h) Bool.false_ne_true,
    Nat.le_refl _, fun _ => rfl, fun h => absurd rfl h⟩

theorem Settles.trans {pending : List Nat} {l' l'' : Ledger} (h : p.Settles pending l l')
    (h' : p.Settles pending l' l'') : p.Settles pending l l'' := by
  refine ⟨h.below.trans h'.below, fun hl => h'.nodup (h.nodup hl),
    fun hl hblocked => h'.agrees (h.agrees hl hblocked) hblocked, fun {i} hopen hi => ?_,
    Nat.le_trans h.size_le h'.size_le, fun hsize => ?_, fun hsize => ?_⟩
  · cases hmid : l'.contains i with
    | true => exact h.of_pending hopen hmid
    | false => exact h'.of_pending hmid hi
  · have h₁ := h.size_le
    have h₂ := h'.size_le
    rw [h'.eq_of_size (by omega), h.eq_of_size (by omega)]
  · by_cases hfirst : l'.size = l.size
    · rw [h.eq_of_size hfirst] at h'
      exact h'.exists_new hsize
    · obtain ⟨i, hopen, hi⟩ := h.exists_new hfirst
      exact ⟨i, hopen, h'.below.contains hi⟩

theorem settleCheck_settles {pending : List Nat} (hi : i ∈ pending) (l : Ledger) :
    p.Settles pending l (p.settleCheck l i) := by
  rcases p.settleCheck_cases l i with ⟨heq, -⟩ | ⟨hopen, hblocked, heq⟩
  · rw [heq]
    exact .refl p pending l
  · rw [heq]
    refine ⟨Ledger.below_record l i _, fun hl => Ledger.nodup_keys_record hl _ _,
      fun hl hall => ?_, fun {j} hj hj' => ?_, ?_, fun hsize => ?_,
      fun _ => ⟨i, hopen, Ledger.contains_record_self l i _⟩⟩
    · exact hl.record hopen (hall l i hl hblocked).symm
    · rw [Ledger.contains_record hopen, hj, Bool.or_false, decide_eq_true_eq] at hj'
      exact hj' ▸ hi
    · rw [Ledger.size_record hopen]
      omega
    · rw [Ledger.size_record hopen] at hsize
      omega

theorem foldl_settleCheck_settles {pending : List Nat} {is : List Nat}
    (his : ∀ i ∈ is, i ∈ pending) (l : Ledger) :
    p.Settles pending l (is.foldl p.settleCheck l) := by
  induction is generalizing l with
  | nil => exact .refl p pending l
  | cons i is ih =>
      obtain ⟨hi, his⟩ := List.forall_mem_cons.mp his
      exact (settleCheck_settles hi l).trans (ih his _)

theorem settleOnce_settles (p : Plan) (pending : List Nat) (l : Ledger) :
    p.Settles pending l (p.settleOnce pending l) :=
  foldl_settleCheck_settles (fun _ => id) l

/-- A pass that settles nothing leaves nothing to settle. -/
theorem not_isBlocked_of_size {is : List Nat} (h : (is.foldl p.settleCheck l).size = l.size) :
    ∀ i ∈ is, l.contains i = false → p.isBlocked l i = false := by
  induction is with
  | nil => exact nofun
  | cons i is ih =>
      rw [List.foldl_cons] at h
      have hfirst : p.Settles [i] l (p.settleCheck l i) :=
        settleCheck_settles (List.mem_singleton_self i) l
      have hrest : p.Settles is (p.settleCheck l i) (is.foldl p.settleCheck (p.settleCheck l i)) :=
        foldl_settleCheck_settles (fun _ => id) _
      have heq := hfirst.eq_of_size (by have := hfirst.size_le; have := hrest.size_le; omega)
      rw [heq] at h
      refine List.forall_mem_cons.mpr ⟨fun hopen => ?_, ih h⟩
      rcases p.settleCheck_cases l i with ⟨-, hcontains | hfree⟩ | ⟨-, -, hrecord⟩
      · rw [hopen] at hcontains
        cases hcontains
      · exact hfree
      · have := congrArg Ledger.size (hrecord.symm.trans heq)
        rw [Ledger.size_record hopen] at this
        omega

/-! ## All passes -/

theorem settleRounds_settles (p : Plan) (pending : List Nat) (rounds : Nat) (l : Ledger) :
    p.Settles pending l (p.settleRounds pending rounds l) := by
  induction rounds generalizing l with
  | zero => exact .refl p pending l
  | succ rounds ih =>
      rw [settleRounds]
      split
      · exact .refl p pending l
      · exact (settleOnce_settles p pending l).trans (ih _)

theorem settle_settles (p : Plan) (pending : List Nat) (l : Ledger) :
    p.Settles pending l (p.settle pending l) :=
  settleRounds_settles p pending _ l

theorem settle_agrees (hp : p.Orderly) (pending : List Nat) (hl : l.Agrees (p.eval hp)) :
    (p.settle pending l).Agrees (p.eval hp) :=
  (settle_settles p pending l).agrees hl fun _ _ => eval_of_isBlocked

/-- A pass that settles some check leaves fewer pending checks without a result. -/
theorem length_open_lt {pending : List Nat} {l' : Ledger} (h : p.Settles pending l l')
    (hne : l'.size ≠ l.size) :
    (pending.filter (!l'.contains ·)).length < (pending.filter (!l.contains ·)).length := by
  obtain ⟨i, hopen, hi⟩ := h.exists_new hne
  have hsub : pending.filter (!l'.contains ·) =
      (pending.filter (!l.contains ·)).filter (!l'.contains ·) := by
    rw [List.filter_filter]
    refine List.filter_congr fun j _ => ?_
    cases hj : l'.contains j with
    | true => rfl
    | false => simp [h.below.contains_eq_false hj]
  rw [hsub, List.length_filter_lt_length_iff_exists]
  exact ⟨i, List.mem_filter.mpr ⟨h.of_pending hopen hi, by simp [hopen]⟩, by simp [hi]⟩

/-- As long as there are more rounds than pending checks without a result, nothing blocked is left
in the end. -/
theorem not_isBlocked_settleRounds {pending : List Nat} {rounds : Nat}
    (hrounds : (pending.filter (!l.contains ·)).length < rounds) (hi : i ∈ pending)
    (hopen : (p.settleRounds pending rounds l).contains i = false) :
    p.isBlocked (p.settleRounds pending rounds l) i = false := by
  induction rounds generalizing l with
  | zero => omega
  | succ rounds ih =>
      rw [settleRounds] at hopen ⊢
      split at hopen
      · rename_i hsize
        rw [if_pos hsize]
        exact not_isBlocked_of_size hsize i hi hopen
      · rename_i hsize
        rw [if_neg hsize]
        have := length_open_lt (settleOnce_settles p pending l) hsize
        exact ih (by omega) hopen

theorem not_isBlocked_settle {pending : List Nat} (hi : i ∈ pending)
    (hopen : (p.settle pending l).contains i = false) :
    p.isBlocked (p.settle pending l) i = false :=
  not_isBlocked_settleRounds (Nat.lt_succ_of_le (List.length_filter_le _ _)) hi hopen

/-! ## Settling enters failures only -/

/-- A failed dependency is entered for a pending check that has no result and is blocked. -/
structure Fails (p : Plan) (pending : List Nat) (l : Ledger) (i : Nat) : Prop where
  mem : i ∈ pending
  isOpen : l.contains i = false
  isBlocked : p.isBlocked l i = true

/-- What holds of a ledger, and still holds whenever a failed dependency is entered, holds when all
is settled. -/
theorem settle_keeps {P : Ledger → Prop} {pending : List Nat}
    (hfails : ∀ l i, P l → p.Fails pending l i → P (l.record i { result := .dependencyFailed }))
    (hl : P l) : P (p.settle pending l) := by
  have hpass : ∀ l, P l → P (p.settleOnce pending l) := fun l hl =>
    List.foldlRecOn pending _ hl fun l hl i hi => by
      rcases p.settleCheck_cases l i with ⟨heq, -⟩ | ⟨hopen, hblocked, heq⟩
      · rwa [heq]
      · rw [heq]
        exact hfails l i hl ⟨hi, hopen, hblocked⟩
  suffices ∀ rounds l, P l → P (p.settleRounds pending rounds l) from this _ l hl
  intro rounds
  induction rounds with
  | zero => exact fun _ => id
  | succ rounds ih =>
      intro l hl
      rw [settleRounds]
      split
      · exact hl
      · exact ih _ (hpass l hl)

theorem entry?_settle {pending : List Nat} {e : Entry}
    (h : Ledger.entry? (p.settle pending l) i = some e) :
    l.entry? i = some e ∨ l.contains i = false ∧ e = { result := .dependencyFailed } := by
  refine (settle_keeps (P := fun l' => l.Below l' ∧ ∀ i e, l'.entry? i = some e →
    l.entry? i = some e ∨ l.contains i = false ∧ e = { result := .dependencyFailed })
    (fun l' j hl' hfails => ?_) ⟨.refl l, fun i e => .inl⟩).2 i e h
  refine ⟨hl'.1.trans (Ledger.below_record l' j _), fun i e he => ?_⟩
  rw [Ledger.entry?_record hfails.isOpen] at he
  split at he
  · rename_i hij
    exact .inr ⟨hl'.1.contains_eq_false (hij ▸ hfails.isOpen), (Option.some.inj he).symm⟩
  · exact hl'.2 i e he

end Plan

end Vetting
