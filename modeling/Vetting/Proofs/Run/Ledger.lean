import Mathlib.Data.Finset.Card
import Mathlib.Data.List.Forall2
import Vetting.Proofs.Run.Settling
import Vetting.Run.InPlace
import Vetting.Run.Validation

/-!
# First results stand

A ledger may have any number of writers, and at any time it may be any writer's turn (`Desk.step`).
After any turns the ledger has the first result that was entered for each check, each writer knows
which of its results these are, and a report pairs each of them with the label and the value of its
own check, even if others are missing (`Desk.first_results_stand`). There are turns for every order
in which the writers can enter their results (`Desk.slips_run`).

A report takes its entries out of the ledger. What is taken out for one line does not belong to a
later one (`Ledger.lines_takeLines`), so that the lines are those of `Run.report`
(`Ledger.finish_report`).
-/

namespace Vetting

/-! ## Ledgers in place -/

namespace Ledger

theorem run_enter (l : Ledger) (index : Nat) (entry : Entry) :
    (enter index entry).run l = (!l.contains index, l.record index entry) := by
  unfold enter record contains
  simp only [StateT.run_bind]
  cases h : l.entry? index <;> simp [h] <;> rfl

theorem entry?_record_or (l : Ledger) (i : Nat) (e : Entry) (j : Nat) :
    Ledger.entry? (l.record i e) j = (l.entry? j).or (if i = j then some e else none) := by
  cases hopen : l.contains i with
  | false =>
      rw [entry?_record hopen]
      by_cases hij : i = j
      · subst hij
        simp [contains_eq_false.mp hopen]
      · simp [hij, Ne.symm hij]
  | true =>
      rw [record, hopen, if_pos rfl]
      by_cases hij : i = j
      · subst hij
        obtain ⟨e', he'⟩ := contains_iff.mp hopen
        simp [he']
      · simp [hij]

theorem recordAll_concat (l : Ledger) (writes : List (Nat × Entry)) (index : Nat) (entry : Entry) :
    l.recordAll (writes ++ [(index, entry)]) = (l.recordAll writes).record index entry := by
  rw [recordAll, List.foldl_append]
  rfl

theorem entry?_take (l : Ledger) (i j : Nat) :
    Ledger.entry? ((take i).run l).2 j = if j = i then none else l.entry? j := by
  show (l.entries.filter (·.1 != i)).lookup j = if j = i then none else l.entries.lookup j
  induction l.entries with
  | nil => simp
  | cons head entries ih =>
      obtain ⟨k, e⟩ := head
      by_cases hk : k = i
      · subst hk
        rw [List.filter_cons_of_neg (by simp), ih]
        by_cases hj : j = k
        · rw [if_pos hj, if_pos hj]
        · rw [if_neg hj, if_neg hj, List.lookup_cons, beq_false_of_ne hj]
      · rw [List.filter_cons_of_pos (by simpa using hk), List.lookup_cons, List.lookup_cons, ih]
        by_cases hj : j = k
        · subst hj
          simp [hk]
        · rw [beq_false_of_ne hj]

end Ledger

/-! ## Reports -/

/-- The line of a numbered check, if the check has an entry. -/
def lineOf (found? : Nat → Option Entry) : (RuleLabel × ValueId) × Nat → Option Line
  | ((label, value), index) => (found? index).map fun entry => { label, value, entry }

namespace Ledger

theorem run_takeLine (l : Ledger) (check : RuleLabel × ValueId) (index : Nat) :
    (takeLine (check, index)).run l = (lineOf l.entry? (check, index), ((take index).run l).2) :=
  rfl

/-- The lines of checks that are numbered from `start` on are made one after the other. -/
theorem run_takeLines_cons (l : Ledger) (check : RuleLabel × ValueId)
    (checks : List (RuleLabel × ValueId)) (start : Nat) :
    (((check :: checks).zipIdx start).filterMapM takeLine).run l =
      let rest := ((checks.zipIdx (start + 1)).filterMapM takeLine).run ((take start).run l).2
      ((lineOf l.entry? (check, start)).toList ++ rest.1, rest.2) := by
  rw [List.zipIdx_cons, List.filterMapM_cons, StateT.run_bind, run_takeLine]
  cases hline : lineOf l.entry? (check, start) <;> rfl

/-- The lines have the entries of the ledger before anything was taken out. -/
theorem lines_takeLines {checks : List (RuleLabel × ValueId)} {start : Nat} {l : Ledger}
    {found? : Nat → Option Entry} (hl : ∀ i, start ≤ i → l.entry? i = found? i) :
    (((checks.zipIdx start).filterMapM takeLine).run l).1 =
      (checks.zipIdx start).filterMap (lineOf found?) := by
  induction checks generalizing start l with
  | nil => rfl
  | cons check checks ih =>
      have hline : lineOf l.entry? (check, start) = lineOf found? (check, start) :=
        congrArg (Option.map _) (hl start (Nat.le_refl start))
      have hrest : ∀ i, start + 1 ≤ i → Ledger.entry? ((take start).run l).2 i = found? i := by
        intro i hi
        rw [entry?_take, if_neg (by omega), hl i (by omega)]
      rw [run_takeLines_cons, hline, List.zipIdx_cons, List.filterMap_cons]
      dsimp only
      rw [ih hrest]
      cases lineOf found? (check, start) <;> rfl

theorem entry?_takeLines (checks : List (RuleLabel × ValueId)) (start : Nat) (l : Ledger)
    (i : Nat) :
    Ledger.entry? (((checks.zipIdx start).filterMapM takeLine).run l).2 i =
      if start ≤ i ∧ i < start + checks.length then none else l.entry? i := by
  induction checks generalizing start l with
  | nil => rw [if_neg (by rw [List.length_nil]; omega)]; rfl
  | cons check checks ih =>
      rw [run_takeLines_cons, ih, entry?_take, List.length_cons]
      split <;> split <;> (try split) <;> first | rfl | omega

theorem lines_finish (l : Ledger) (checks : List (RuleLabel × ValueId)) :
    ((finish checks).run l).1 = checks.zipIdx.filterMap (lineOf l.entry?) :=
  lines_takeLines fun _ _ => rfl

/-- The results of the checks are taken out, and no others. -/
theorem entry?_finish (l : Ledger) (checks : List (RuleLabel × ValueId)) (i : Nat) :
    Ledger.entry? ((finish checks).run l).2 i = if i < checks.length then none else l.entry? i := by
  rw [finish, entry?_takeLines]
  simp

/-- The lines that are taken out of a ledger are those of the report on a run. -/
theorem finish_report (p : Plan) (r : Run) :
    ((finish (p.checks.map fun check => (check.label, check.value))).run r.ledger).1 =
      (r.report p).lines := by
  rw [lines_finish, Run.report, collect, List.zipIdx_map, List.filterMap_map, List.map_filterMap]
  refine List.filterMap_congr fun ⟨check, index⟩ _ => ?_
  simp [lineOf, Option.map_map, Function.comp_def]

end Ledger

/-- The lines are, in the order of the checks, those of all checks that have an entry, each with the
label, the value and the entry of its own check. -/
def Lists (checks : List (RuleLabel × ValueId)) (found? : Nat → Option Entry)
    (lines : List Line) : Prop :=
  ∃ is : List Nat, is.Pairwise (· < ·) ∧
    (∀ i, i ∈ is ↔ i < checks.length ∧ (found? i).isSome = true) ∧
    List.Forall₂ (fun i line => checks[i]? = some (line.label, line.value) ∧
      found? i = some line.entry) is lines

/-- Each line belongs to the check whose number it is made from. -/
theorem forall₂_lineOf {checks : List (RuleLabel × ValueId)} {found? : Nat → Option Entry}
    {numbered : List ((RuleLabel × ValueId) × Nat)} (h : ∀ c ∈ numbered, checks[c.2]? = some c.1) :
    List.Forall₂ (fun i line => checks[i]? = some (line.label, line.value) ∧
        found? i = some line.entry)
      ((numbered.filter fun c => (found? c.2).isSome).map (·.2))
      (numbered.filterMap (lineOf found?)) := by
  induction numbered with
  | nil => exact .nil
  | cons c numbered ih =>
      obtain ⟨hc, hrest⟩ := List.forall_mem_cons.mp h
      cases hentry : found? c.2 with
      | none =>
          rw [List.filter_cons_of_neg (by simp [hentry]),
            List.filterMap_cons_none (by simp [lineOf, hentry])]
          exact ih hrest
      | some entry =>
          have hline : lineOf found? c = some { label := c.1.1, value := c.1.2, entry } := by
            simp [lineOf, hentry]
          rw [List.filter_cons_of_pos (by simp [hentry]), List.filterMap_cons_some hline]
          exact .cons ⟨hc, hentry⟩ (ih hrest)

theorem lists_filterMap (checks : List (RuleLabel × ValueId)) (found? : Nat → Option Entry) :
    Lists checks found? (checks.zipIdx.filterMap (lineOf found?)) := by
  refine ⟨(checks.zipIdx.filter fun c => (found? c.2).isSome).map (·.2), ?_, fun i => ?_,
    forall₂_lineOf fun c hc => List.mem_zipIdx_iff_getElem?.mp hc⟩
  · have hrange : (checks.zipIdx.map (·.2)).Pairwise (· < ·) := by
      rw [List.zipIdx_map_snd]
      exact List.pairwise_lt_range'
    exact hrange.sublist (List.filter_sublist.map _)
  · have hnumber : i < checks.length ↔ ∃ c, (c, i) ∈ checks.zipIdx := by
      simp [List.mem_zipIdx_iff_getElem?, ← Option.isSome_iff_exists]
    rw [hnumber, List.mem_map]
    constructor
    · rintro ⟨⟨c, _⟩, hc, rfl⟩
      obtain ⟨hmem, hentry⟩ := List.mem_filter.mp hc
      exact ⟨⟨c, hmem⟩, hentry⟩
    · rintro ⟨⟨c, hmem⟩, hentry⟩
      exact ⟨(c, i), List.mem_filter.mpr ⟨hmem, hentry⟩, rfl⟩

/-! ## Writers -/

namespace Desk

variable {d : Desk} {calls : Nat → List (Nat × Entry)}

/-- A turn of a writer that has nothing left changes nothing. Any other turn enters the next result
of the writer, which is told whether the check had none. -/
theorem step_cases (d : Desk) (writer : Nat) :
    (d.left writer = [] ∧ d.step writer = d) ∨
      ∃ index entry rest, d.left writer = (index, entry) :: rest ∧ d.step writer =
        { ledger := d.ledger.record index entry
          left := fun other => if other = writer then rest else d.left other
          slips := d.slips ++ [{ writer, index, entry, first := !d.ledger.contains index }] } := by
  rw [step]
  cases hleft : d.left writer with
  | nil => exact .inl ⟨rfl, rfl⟩
  | cons call rest =>
      refine .inr ⟨call.1, call.2, rest, rfl, ?_⟩
      dsimp only
      rw [Ledger.run_enter]

/-- The first result that was entered for a check. -/
def first? (d : Desk) (index : Nat) : Option Entry :=
  (d.slips.find? (·.index == index)).map (·.entry)

/-- What each writer has entered and what it still has to enter are its results in their order. -/
def Merges (d : Desk) (calls : Nat → List (Nat × Entry)) : Prop :=
  ∀ writer, (d.slips.filter (·.writer == writer)).map (fun s => (s.index, s.entry)) ++
    d.left writer = calls writer

/-- A writer was told that its result is the first one of a check exactly if none had been entered
for the check before. -/
def AnswersFirst (d : Desk) : Prop :=
  ∀ k slip, d.slips[k]? = some slip →
    (slip.first = true ↔ ∀ earlier ∈ d.slips.take k, earlier.index ≠ slip.index)

/-- The ledger has the first result of each check, and each of them once. -/
structure HasFirst (d : Desk) : Prop where
  ledger : d.ledger = Ledger.recordAll {} (d.slips.map fun s => (s.index, s.entry))
  entry? (index : Nat) : d.ledger.entry? index = d.first? index
  nodup : d.ledger.keys.Nodup

theorem Merges.step (h : d.Merges calls) (writer : Nat) : (d.step writer).Merges calls := by
  rcases d.step_cases writer with ⟨-, heq⟩ | ⟨index, entry, rest, hleft, heq⟩
  · rwa [heq]
  · rw [heq]
    intro other
    have hother := h other
    by_cases hw : other = writer
    · subst hw
      rw [hleft] at hother
      simpa using hother
    · simpa [hw, Ne.symm hw] using hother

theorem HasFirst.contains_iff (h : d.HasFirst) (index : Nat) :
    d.ledger.contains index = true ↔ ∃ slip ∈ d.slips, slip.index = index := by
  rw [Ledger.contains, h.entry?, first?, Option.isSome_map, List.find?_isSome]
  simp

theorem HasFirst.step (h : d.HasFirst) (writer : Nat) : (d.step writer).HasFirst := by
  rcases d.step_cases writer with ⟨-, heq⟩ | ⟨index, entry, rest, hleft, heq⟩
  · rwa [heq]
  · rw [heq]
    refine ⟨?_, fun i => ?_, Ledger.nodup_keys_record h.nodup index entry⟩
    · rw [List.map_append, List.map_singleton, Ledger.recordAll_concat, ← h.ledger]
    · rw [Ledger.entry?_record_or, h.entry?, first?, first?, List.find?_append, Option.map_or]
      by_cases hi : index = i <;> simp [hi]

theorem AnswersFirst.step (h : d.AnswersFirst) (hfirst : d.HasFirst) (writer : Nat) :
    (d.step writer).AnswersFirst := by
  rcases d.step_cases writer with ⟨-, heq⟩ | ⟨index, entry, rest, hleft, heq⟩
  · rwa [heq]
  · rw [heq]
    intro k slip hk
    dsimp only at hk ⊢
    rcases Nat.lt_trichotomy k d.slips.length with hlt | rfl | hgt
    · rw [List.getElem?_append_left hlt] at hk
      rw [List.take_append_of_le_length (Nat.le_of_lt hlt)]
      exact h k slip hk
    · rw [List.getElem?_concat_length, Option.some.injEq] at hk
      subst hk
      rw [List.take_left, Bool.not_eq_true', ← Bool.not_eq_true, hfirst.contains_iff]
      simp
    · rw [List.getElem?_eq_none (by rw [List.length_append]; exact hgt)] at hk
      cases hk

/-- A ledger with its writers after any turns. -/
structure Sound (d : Desk) (calls : Nat → List (Nat × Entry)) : Prop where
  merges : d.Merges calls
  answersFirst : d.AnswersFirst
  hasFirst : d.HasFirst

theorem Sound.step (h : d.Sound calls) (writer : Nat) : (d.step writer).Sound calls where
  merges := h.merges.step writer
  answersFirst := h.answersFirst.step h.hasFirst writer
  hasFirst := h.hasFirst.step writer

theorem Sound.run (h : d.Sound calls) (turns : List Nat) : (d.run turns).Sound calls := by
  induction turns generalizing d with
  | nil => exact h
  | cons writer turns ih => exact ih (h.step writer)

theorem sound_start (calls : Nat → List (Nat × Entry)) : Sound { left := calls } calls where
  merges _ := rfl
  answersFirst := nofun
  hasFirst := ⟨rfl, fun _ => rfl, List.nodup_nil⟩

/-- Every sequence of results of several writers is entered by turns that these take. -/
theorem slips_run (d : Desk) (sequence : List (Nat × Nat × Entry))
    (hleft : ∀ writer, d.left writer = (sequence.filter (·.1 == writer)).map (·.2)) :
    (d.run (sequence.map (·.1))).slips.map (fun s => (s.writer, s.index, s.entry)) =
      d.slips.map (fun s => (s.writer, s.index, s.entry)) ++ sequence := by
  induction sequence generalizing d with
  | nil => simp [run]
  | cons call sequence ih =>
      obtain ⟨writer, index, entry⟩ := call
      have hnext := hleft writer
      rw [List.filter_cons_of_pos (by simp), List.map_cons] at hnext
      rcases d.step_cases writer with ⟨hnone, -⟩ | ⟨_, _, rest, hsome, heq⟩
      · rw [hnone] at hnext
        cases hnext
      · rw [hsome] at hnext
        cases hnext
        show ((d.step writer).run _).slips.map _ = _
        rw [ih, heq]
        · simp
        · intro other
          rw [heq]
          dsimp only
          split
          · rename_i hsame
            rw [hsame]
          · rename_i hother
            rw [hleft other, List.filter_cons_of_neg (by simpa using Ne.symm hother)]

/-! ## Reading -/

/-- The ledger is what runs get when they record these results. What is read in it are the first
results and the number of checks that have one. -/
structure ReadsFirst (d : Desk) : Prop where
  ledger : d.ledger = Ledger.recordAll {} (d.slips.map fun s => (s.index, s.entry))
  outcome? (index : Nat) :
    d.ledger.outcome? index = (d.first? index).map (·.result.outcome)
  contains (index : Nat) :
    d.ledger.contains index = true ↔ ∃ slip ∈ d.slips, slip.index = index
  size : d.ledger.size = (d.slips.map (·.index)).toFinset.card

theorem HasFirst.readsFirst (h : d.HasFirst) : d.ReadsFirst := by
  refine ⟨h.ledger, fun index => by rw [Ledger.outcome?, h.entry?], h.contains_iff, ?_⟩
  have hkeys : d.ledger.keys.toFinset = (d.slips.map (·.index)).toFinset := by
    ext index
    rw [List.mem_toFinset, List.mem_toFinset, Ledger.mem_keys, h.contains_iff, List.mem_map]
  rw [← hkeys, List.toFinset_card_of_nodup h.nodup, Ledger.length_keys]

/-- The first results stand, whatever results the writers of an empty ledger have to enter and in
whatever order they take their turns. At any time:

- Every writer has entered its results in their order, and has the others left to enter.
- It was told that a result is the first one of a check exactly if it was.
- The outcome of a check, whether it has a result, and the number of results are those of the first
  results.
- A report on any list of checks has one line for each check that has a result, in ascending order,
  with the label and the value of this check and the first result for it. The entries of the checks
  are taken out of the ledger, and no others. -/
theorem first_results_stand (calls : Nat → List (Nat × Entry)) (turns : List Nat)
    (checks : List (RuleLabel × ValueId)) :
    let d := Desk.run { left := calls } turns
    d.Merges calls ∧ d.AnswersFirst ∧ d.ReadsFirst ∧
      Lists checks d.first? ((Ledger.finish checks).run d.ledger).1 ∧
      ∀ i, Ledger.entry? ((Ledger.finish checks).run d.ledger).2 i =
        if i < checks.length then none else d.first? i := by
  intro d
  have hd : d.Sound calls := (sound_start calls).run turns
  have hentry : d.ledger.entry? = d.first? := funext hd.hasFirst.entry?
  refine ⟨hd.merges, hd.answersFirst, hd.hasFirst.readsFirst, ?_, fun i => ?_⟩
  · rw [Ledger.lines_finish, hentry]
    exact lists_filterMap checks d.first?
  · rw [Ledger.entry?_finish, hentry]

end Desk

end Vetting
