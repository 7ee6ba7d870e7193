import Vetting.Proofs.Run.Clock
import Vetting.Run.Validation

/-!
# A completed run has the reference results

Whatever the settings, and whatever the order in which concurrent rules start and end, a run of a
prepared plan that is not cancelled comes to an end, and its report has one line for each check, in
order, with the result that `Plan.eval` gives (`run_reference`). So neither concurrency nor time
has any say in the results. The number of permits has if there are more than there can be: then the
run breaks off before it makes any check (`Run.broken_off`).
-/

namespace Vetting

/-- Label, value and reference result of every check. -/
def Plan.reference (p : Plan) (hp : p.Orderly) : List (RuleLabel × ValueId × Result) :=
  p.checks.zipIdx.map fun (check, i) => (check.label, check.value, p.eval hp i)

/-- Label, value and result of every line. -/
def Report.results (report : Report) : List (RuleLabel × ValueId × Result) :=
  report.lines.map fun line => (line.label, line.value, line.entry.result)

/-- A run has come to its end, with a report of the reference results. -/
structure Run.Completes (r : Run) (p : Plan) (hp : p.Orderly) (settings : Settings) : Prop where
  finished : r.ending? = some .finished
  answer : r.answer p settings = .ok (r.report p) ∨
    r.answer p settings = .error (.rejected (r.report p))
  results : (r.report p).results = p.reference hp

/-- A ledger that has a result for every check of a list is collected into one entry a check. -/
theorem Ledger.collect_eq {l : Ledger} {result : Nat → Result} (h : l.Agrees result)
    {checks : List Check} (hall : ∀ i < checks.length, l.contains i = true) :
    (l.collect checks).map (fun (check, entry) => (check.label, check.value, entry.result)) =
      checks.zipIdx.map fun (check, i) => (check.label, check.value, result i) := by
  rw [collect, List.map_filterMap]
  refine List.filterMap_eq_map_iff_forall_eq_some.mpr fun (check, i) hmem => ?_
  have hlt := (List.getElem?_eq_some_iff.mp (List.mem_zipIdx_iff_getElem?.mp hmem)).1
  obtain ⟨e, he⟩ := contains_iff.mp (hall i hlt)
  simp [he, h i e he]

/-- A run that is over and was not cancelled has finished. -/
theorem Run.Sound.finished {p : Plan} {hp : p.Orderly} {r : Run} (h : r.Sound p hp)
    (hover : r.ending? ≠ none) :
    r.ending? = some .finished ∧ ∀ i < p.size, r.ledger.contains i = true := by
  have hstage := h.stage
  cases hs : r.stage with
  | between | within => simp [ending?, hs] at hover
  | ended ending =>
      rw [hs] at hstage
      exact ⟨by rw [ending?, hs, hstage.1], hstage.2⟩

theorem Run.answer_of_finished {p : Plan} {r : Run} (settings : Settings)
    (h : r.ending? = some .finished) :
    r.answer p settings = .ok (r.report p) ∨
      r.answer p settings = .error (.rejected (r.report p)) := by
  rw [answer, h]
  dsimp only
  split
  · exact .inr rfl
  · exact .inl rfl

theorem Run.Sound.completes {p : Plan} {hp : p.Orderly} {r : Run} (h : r.Sound p hp)
    (settings : Settings) (hover : r.ending? ≠ none) : r.Completes p hp settings := by
  obtain ⟨hfinished, hall⟩ := h.finished hover
  refine ⟨hfinished, answer_of_finished settings hfinished, ?_⟩
  rw [Report.results, report, List.map_map, Plan.reference]
  exact Ledger.collect_eq h.agrees hall

/-- With more permits than there can be, a run breaks off before it begins, cancelled or not. -/
theorem Run.broken_off {p : Plan} {settings : Settings} {cancelled : Bool} {es : List Event}
    {r : Run} (hpermits : Settings.permitLimit < settings.permits)
    (hrun : (Run.start p settings cancelled).stepAll? p settings es = some r) :
    r.cancelled = cancelled ∧ r.ending? = some .crashed ∧ r.answer p settings = .error .crashed ∧
      r.calls = [] ∧ r.ledger.size = 0 := by
  obtain rfl := Run.eq_start_of_permits hpermits hrun
  have hending : (Run.start p settings cancelled).ending? = some .crashed :=
    Run.ending?_start hpermits
  exact ⟨rfl, hending, by rw [answer, hending], rfl, rfl⟩

/-- **A completed run computes the reference result of every check.** Take a prepared plan in which
no rule crashes when it is asked for its time limit, any settings with no more permits than there
can be, any order of events, and a run that is never cancelled. Such a run brings about a bounded
number of events, it can go on until it is over, and then its report has the reference result of
every check. The run against the clock is one that is over. -/
theorem run_reference {m : Manifest} {registry : RuleRegistry} {policy : FailurePolicy}
    {depth : Nat} {document : Json} {p : Plan}
    (hprepare : Plan.prepareTo m registry policy depth document = .ok p)
    (hlimits : ∀ check ∈ p.checks, check.logic.limit ≠ .faulty) :
    ∃ hp : p.Orderly, ∀ settings : Settings, settings.permits ≤ Settings.permitLimit →
      (∀ es r, (Run.start p settings false).stepAll? p settings es = some r → r.cancelled = false →
        es.countP Event.advances ≤ p.stepBound ∧
          (r.ending? = none → ∃ e r', e.advances = true ∧ r.step? p settings e = some r') ∧
          (r.ending? ≠ none → r.Completes p hp settings)) ∧
        ((Run.complete p settings false none).cancelled = false →
          (Run.complete p settings false none).Completes p hp settings) := by
  have hp := Plan.orderly_of_prepareTo hprepare
  refine ⟨hp, fun settings hpermits => ?_⟩
  have hstart := Run.start_sound hp hpermits false
  refine ⟨fun es r hrun hcancelled => ?_, fun hcancelled => ?_⟩
  · have hregular := (Run.start_regular p settings false).stepAll hrun
    have hsound := hstart.stepAll hlimits hrun hcancelled
    exact ⟨Run.countP_advances_le hp hlimits hpermits hrun, hregular.exists_advance,
      hsound.completes settings⟩
  · obtain ⟨es, hrun⟩ := Run.exists_events_complete p settings false none
    exact (hstart.stepAll hlimits hrun hcancelled).completes settings
      (Run.over_complete hp hlimits hpermits false none)

/-- Rules for the locked folder, one of which says no to every key. -/
def doubtfulRules : RuleRegistry :=
  lockedRules.register "known" (StockRule.factory {} (.fixed (.ok { passed := false })))

/-- One check fails, so the check that depends on it is not made, nor are those without anything to
depend on. -/
theorem run_reference_locked :
    ∃ p, ∃ hp : p.Orderly,
      Plan.prepareTo (Manifest.build "Folder" lockedEdits) doubtfulRules .skip 6 folder = .ok p ∧
      (∀ check ∈ p.checks, check.logic.limit ≠ .faulty) ∧
      Settings.permits {} ≤ Settings.permitLimit ∧
      (Run.complete p {} false none).cancelled = false ∧
      (Run.complete p {} false none).Completes p hp {} ∧ p.Precedes 3 1 ∧
      (p.reference hp).map (·.2.2.outcome) =
        [.dependencyFailed, .dependencyFailed, .passed, .failed, .dependencyFailed] := by
  have hsome : ((Plan.prepareTo (Manifest.build "Folder" lockedEdits) doubtfulRules .skip 6
      folder).toOption.any fun p => p.checks.all (·.logic.limit != .faulty) &&
        !(Run.complete p {} false none).cancelled &&
        (p.check? 1).any (·.dependencies.contains 3) &&
        ((Run.complete p {} false none).report p).results.map (·.2.2.outcome) ==
          [.dependencyFailed, .dependencyFailed, .passed, .failed, .dependencyFailed]) = true := by
    decide +kernel
  obtain ⟨p, hp, htest⟩ := (Option.any_eq_true _ _).mp hsome
  simp only [Bool.and_eq_true, List.all_eq_true, bne_iff_ne, Bool.not_eq_true', beq_iff_eq,
    Option.any_eq_true, List.contains_iff_mem] at htest
  obtain ⟨⟨⟨hlimits, hcancelled⟩, hprecedes⟩, houtcomes⟩ := htest
  have hprepare := Fallible.eq_ok_of_toOption hp
  have hpermits : Settings.permits {} ≤ Settings.permitLimit := by decide
  obtain ⟨horderly, hruns⟩ := run_reference hprepare hlimits
  have hcompletes := (hruns {} hpermits).2 hcancelled
  exact ⟨p, horderly, hprepare, hlimits, hpermits, hcancelled, hcompletes, hprecedes,
    hcompletes.results ▸ houtcomes⟩

/-- As many permits as a word can count, which are more than there can be. -/
def overfull : Settings := { maxParallelism := 18446744073709551615 }

/-- Two rules, one of which depends on the other. -/
def pairEdits : List Edit := [
  .addRule ⟨0⟩ "sealed" none [] [],
  .addRule ⟨0⟩ "known" none [] [⟨⟨0⟩, ⟨"sealed", "Folder", none⟩⟩]]

theorem exists_pair :
    ∃ p, Plan.prepare (Manifest.build "Folder" pairEdits) lockedRules .propagate (.object []) =
        .ok p ∧
      p.size = 2 ∧ (∀ check ∈ p.checks, ∀ j ∈ check.dependencies, j < p.size) ∧
      Check.acyclic p.checks = .ok () ∧ ∀ check ∈ p.checks, check.logic.limit ≠ .faulty := by
  have hsome : ((Plan.prepare (Manifest.build "Folder" pairEdits) lockedRules .propagate
      (.object [])).toOption.any fun p => p.size == 2 &&
        p.checks.all (fun check => check.dependencies.all fun j => decide (j < p.size)) &&
        (Check.acyclic p.checks).toOption.isSome && p.checks.all (·.logic.limit != .faulty)) =
      true := by decide +kernel
  obtain ⟨p, hp, htest⟩ := (Option.any_eq_true _ _).mp hsome
  simp only [Bool.and_eq_true, List.all_eq_true, bne_iff_ne, beq_iff_eq, decide_eq_true_eq]
    at htest
  obtain ⟨⟨⟨hsize, hdeps⟩, hacyclic⟩, hlimits⟩ := htest
  obtain ⟨⟨⟩, hok⟩ := Option.isSome_iff_exists.mp hacyclic
  exact ⟨p, Fallible.eq_ok_of_toOption hp, hsize, hdeps, Fallible.eq_ok_of_toOption hok, hlimits⟩

/-- With too many permits a run is over without reference results, though nothing cancels it and its
rules would follow each other one by one. -/
theorem not_all_runs_complete :
    ∃ p, ∃ hp : p.Orderly,
      let settings := { overfull with concurrent := false }
      let r := Run.complete p settings false none
      Plan.prepare (Manifest.build "Folder" pairEdits) lockedRules .propagate (.object []) =
        .ok p ∧
      (∀ check ∈ p.checks, check.logic.limit ≠ .faulty) ∧ r.cancelled = false ∧
      r.ending? = some .crashed ∧ ¬ r.Completes p hp settings := by
  obtain ⟨p, hprepare, -, -, -, hlimits⟩ := exists_pair
  obtain ⟨es, hrun⟩ :=
    Run.exists_events_complete p { overfull with concurrent := false } false none
  obtain ⟨hr, hending, -⟩ := Run.broken_off (by decide) hrun
  refine ⟨p, Plan.orderly_of_prepareTo hprepare, hprepare, hlimits, hr, hending, fun h => ?_⟩
  have hfinished := h.finished
  rw [hending] at hfinished
  cases hfinished

end Vetting
