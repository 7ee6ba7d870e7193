import Vetting.Proofs.Run.Discipline
import Vetting.Proofs.Run.Outcome

/-!
# What a cancellation comes to

Once a run is cancelled it starts no rule. It still ends, and then it either gives the results of
all checks (`Run.Delivers`) or says that it was cancelled and how many checks have results, fewer
than there are (`Run.GivesUp`); never a report that lacks some (`whole_or_cancelled`). The
cancellation may come from outside at any moment, or from a rule.
-/

namespace Vetting

/-! ## Collecting results -/

namespace Ledger

variable {l : Ledger}

/-- A ledger that has a result for every check of a list is collected into the entries, one for each
check in the order of the list. -/
theorem map_collect {checks : List Check} (hall : ∀ i < checks.length, l.contains i = true) :
    (l.collect checks).map (fun (check, entry) => (check.label, check.value, some entry)) =
      checks.zipIdx.map fun (check, i) => (check.label, check.value, l.entry? i) := by
  rw [collect, List.map_filterMap]
  refine List.filterMap_eq_map_iff_forall_eq_some.mpr ?_
  rintro ⟨check, i⟩ hmem
  have hlt := (List.getElem?_eq_some_iff.mp (List.mem_zipIdx_iff_getElem?.mp hmem)).1
  obtain ⟨e, he⟩ := contains_iff.mp (hall i hlt)
  simp [he]

end Ledger

namespace Run

variable {p : Plan} {hp : p.Orderly} {settings : Settings} {r r' : Run}

/-! ## After a cancellation nothing starts -/

theorem calls_of_cancelled {es : List Event} (h : r.stepAll? p settings es = some r')
    (hr : r.cancelled = true) : r'.calls = r.calls := by
  refine (preserved_stepAll (P := fun r₁ => r₁.cancelled = true ∧ r₁.calls = r.calls) ?_
    ⟨hr, rfl⟩ h).2
  rintro r₁ e r₂ ⟨hr₁, hcalls⟩ hstep
  refine ⟨hstep.cancelled hr₁, ?_⟩
  rcases hstep.calls with hsame | ⟨g, i, -, -, -, hopen, -⟩
  · exact hsame.trans hcalls
  · rw [hr₁] at hopen
    cases hopen

/-! ## The end of a run -/

/-- A run that is over with a result for every check, and a report that has them all. -/
structure Delivers (r : Run) (p : Plan) (settings : Settings) : Prop where
  whole : ∀ i < p.size, r.ledger.contains i = true
  answer : r.answer p settings = .ok (r.report p) ∨
    r.answer p settings = .error (.rejected (r.report p))
  lines : (r.report p).lines.map (fun line => (line.label, line.value, some line.entry)) =
    p.checks.zipIdx.map fun (check, i) => (check.label, check.value, r.ledger.entry? i)

/-- A run that is over because it was cancelled, when some check had no result. -/
structure GivesUp (r : Run) (p : Plan) (settings : Settings) : Prop where
  cancelled : r.cancelled = true
  answer : r.answer p settings = .error (.cancelled ((List.range p.size).countP r.ledger.contains))
  lacking : (List.range p.size).countP r.ledger.contains < p.size

theorem delivers_of_finished (hover : r.ending? = some .finished)
    (hall : ∀ i < p.size, r.ledger.contains i = true) (settings : Settings) :
    r.Delivers p settings := by
  refine ⟨hall, answer_of_finished settings hover, ?_⟩
  rw [report, List.map_map]
  exact Ledger.map_collect hall

theorem Books.givesUp (h : r.Books p) (hcancelled : r.cancelled = true)
    (hover : r.ending? = some (.cancelled r.ledger.size))
    (hopen : ∃ i < p.size, r.ledger.contains i = false) (settings : Settings) :
    r.GivesUp p settings := by
  refine ⟨hcancelled, by rw [answer, hover, h.size_eq], ?_⟩
  obtain ⟨i, hi, hfree⟩ := hopen
  refine Nat.lt_of_le_of_ne (h.size_eq ▸ h.size_le) fun heq => ?_
  have hall := List.countP_eq_length.mp (heq.trans List.length_range.symm)
  rw [hall i (List.mem_range.mpr hi)] at hfree
  cases hfree

/-- A run that is over gives all or gives up. -/
theorem Regular.delivers_or_givesUp (h : r.Regular p settings) (hp : p.Orderly)
    (hlimits : ∀ check ∈ p.checks, check.logic.limit ≠ .faulty)
    (hpermits : settings.permits ≤ Settings.permitLimit) (hover : r.ending? ≠ none) :
    r.Delivers p settings ∨ r.GivesUp p settings := by
  have hstage := h.stage
  cases hs : r.stage with
  | between | within => simp [ending?, hs] at hover
  | ended ending =>
      rw [hs] at hstage
      have hending : r.ending? = some ending := by rw [ending?, hs]
      cases ending with
      | finished => exact .inl (delivers_of_finished hending hstage settings)
      | stalled => exact absurd hp hstage
      | cancelled completed =>
          obtain ⟨hcancelled, rfl, hopen⟩ := hstage
          exact .inr (h.givesUp hcancelled hending hopen settings)
      | taskFailed =>
          obtain ⟨check, hcheck, hfaulty⟩ := hstage
          exact absurd hfaulty (hlimits check hcheck)
      | crashed =>
          obtain ⟨check, hcheck, hfaulty⟩ := hstage.resolve_right (Nat.not_lt.mpr hpermits)
          exact absurd hfaulty (hlimits check hcheck)

end Run

/-- **A run gives all results or says that it was cancelled.** Take a prepared plan in which no rule
crashes when it is asked for its time limit, any settings with no more permits than there can be,
any order of events, and a cancellation at any moment, from outside or by a rule. Once the run is
cancelled it starts nothing. It brings about a bounded number of events and can go on until it is
over, and then it delivers or gives up. The run against the clock, which a validation answers with,
is one that is over. -/
theorem whole_or_cancelled {m : Manifest} {registry : RuleRegistry} {policy : FailurePolicy}
    {depth : Nat} {document : Json} {p : Plan}
    (hprepare : Plan.prepareTo m registry policy depth document = .ok p)
    (hlimits : ∀ check ∈ p.checks, check.logic.limit ≠ .faulty) {settings : Settings}
    (hpermits : settings.permits ≤ Settings.permitLimit) :
    (∀ cancelled es r, (Run.start p settings cancelled).stepAll? p settings es = some r →
      (r.cancelled = true → ∀ es' r', r.stepAll? p settings es' = some r' → r'.calls = r.calls) ∧
        es.countP Event.advances ≤ p.stepBound ∧
        (r.ending? = none → ∃ e r', e.advances = true ∧ r.step? p settings e = some r') ∧
        (r.ending? ≠ none → r.Delivers p settings ∨ r.GivesUp p settings)) ∧
      ∀ cancellation : Cancellation,
        let r := Run.complete p settings cancellation.before cancellation.millis
        (r.Delivers p settings ∨ r.GivesUp p settings) ∧
          (Plan.prepare m registry settings.onFailure document = .ok p →
            (validate m registry settings cancellation document).answer = r.answer p settings) := by
  have hp := Plan.orderly_of_prepareTo hprepare
  refine ⟨fun cancelled es r hrun => ?_, fun cancellation => ⟨?_, fun hplan => ?_⟩⟩
  · have hregular := (Run.start_regular p settings cancelled).stepAll hrun
    exact ⟨fun hr es' r' hrest => Run.calls_of_cancelled hrest hr,
      Run.countP_advances_le hp hlimits hpermits hrun, hregular.exists_advance,
      hregular.delivers_or_givesUp hp hlimits hpermits⟩
  · obtain ⟨es, hrun⟩ :=
      Run.exists_events_complete p settings cancellation.before cancellation.millis
    exact ((Run.start_regular p settings _).stepAll hrun).delivers_or_givesUp hp hlimits hpermits
      (Run.over_complete hp hlimits hpermits _ _)
  · rw [validate, hplan]

theorem whole_or_cancelled_staggered :
    ∃ p, Plan.prepare (Manifest.build "Folder" lockedEdits) staggeredRules .skip folder = .ok p ∧
      (∀ check ∈ p.checks, check.logic.limit ≠ .faulty) ∧
      Settings.permits { onFailure := .skip } ≤ Settings.permitLimit ∧
      (Run.complete p { onFailure := .skip } false none).cancelled = true ∧
      (Run.complete p { onFailure := .skip } false none).Delivers p { onFailure := .skip } ∧
      (Run.complete p { onFailure := .skip } false (some 3)).GivesUp p { onFailure := .skip } ∧
      (validate (Manifest.build "Folder" lockedEdits) staggeredRules { onFailure := .skip }
          { millis := some 3 } folder).answer =
        (Run.complete p { onFailure := .skip } false (some 3)).answer p { onFailure := .skip } := by
  have hsome : ((Plan.prepare (Manifest.build "Folder" lockedEdits) staggeredRules .skip
      folder).toOption.any fun p => p.checks.all (·.logic.limit != .faulty) &&
        (Run.complete p { onFailure := .skip } false none).cancelled &&
        ((Run.complete p { onFailure := .skip } false none).answer p
          { onFailure := .skip }).toOption.isSome &&
        !(List.range p.size).all
          (Run.complete p { onFailure := .skip } false (some 3)).ledger.contains) = true := by
    decide +kernel
  obtain ⟨p, hp, htest⟩ := (Option.any_eq_true _ _).mp hsome
  simp only [Bool.and_eq_true, List.all_eq_true, bne_iff_ne, Bool.not_eq_true', List.all_eq_false,
    List.mem_range] at htest
  obtain ⟨⟨⟨hlimits, hcancelled⟩, hanswer⟩, i, hi, hopen⟩ := htest
  have hprepare := Fallible.eq_ok_of_toOption hp
  have hpermits : Settings.permits { onFailure := .skip } ≤ Settings.permitLimit := by decide
  obtain ⟨-, hruns⟩ := whole_or_cancelled hprepare hlimits hpermits
  refine ⟨p, hprepare, hlimits, hpermits, hcancelled, ?_, ?_,
    (hruns { millis := some 3 }).2 hprepare⟩
  · refine (hruns {}).1.resolve_right fun hgivesUp => ?_
    rw [hgivesUp.answer] at hanswer
    cases hanswer
  · exact (hruns { millis := some 3 }).1.resolve_left fun hdelivers => hopen (hdelivers.whole i hi)

/-- With too many permits a run that is cancelled before it begins neither delivers nor gives up. -/
theorem not_all_runs_deliver_or_give_up :
    ∃ p, let r := Run.complete p overfull true none
      Plan.prepare (Manifest.build "Folder" pairEdits) lockedRules .propagate (.object []) =
        .ok p ∧
      (∀ check ∈ p.checks, check.logic.limit ≠ .faulty) ∧
      ¬ r.Delivers p overfull ∧ ¬ r.GivesUp p overfull ∧
      (validate (Manifest.build "Folder" pairEdits) lockedRules overfull { before := true }
        (.object [])).answer = .error .crashed := by
  obtain ⟨p, hprepare, -, -, -, hlimits⟩ := exists_pair
  obtain ⟨es, hrun⟩ := Run.exists_events_complete p overfull true none
  obtain ⟨-, -, hanswer, -⟩ := Run.broken_off (by decide) hrun
  refine ⟨p, hprepare, hlimits, fun hdelivers => ?_, fun hgivesUp => ?_, ?_⟩
  · rcases hdelivers.answer with hsame | hsame <;> rw [hanswer] at hsame <;> cases hsame
  · have hsame := hgivesUp.answer
    rw [hanswer] at hsame
    cases hsame
  · rw [validate, show overfull.onFailure = .propagate from rfl, hprepare]
    exact hanswer

end Vetting
