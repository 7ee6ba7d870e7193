import Vetting.Proofs.Plan.Setup
import Vetting.Proofs.Run.Cancellation

/-!
# What a report says is what was done

Results are entered where checks are settled, where a rule ends, and where the time limit of a rule
is reached. All three keep to one invariant (`Run.Noted`): an entry either notes a failed dependency
of a check whose rule was never started, or the answer of a rule that was, measured if the settings
ask for it and marked with the group that the rule belongs to. So every line of a report can be held
against what was done (`Run.Reports`), whether or not the run was cancelled on the way.

The policy that rejects reports is asked once the run is over, and by nothing before: runs that
differ only in it are the same run (`Run.step?_rejection`). The headline is `reports_consistent`.
-/

namespace Vetting

/-- The report that an answer carries, accepted or not. -/
def reportOf? : Except RunError Report → Option Report
  | .ok report | .error (.rejected report) => some report
  | .error _ => none

/-- What a policy objects to in a report. -/
def RejectionPolicy.Objects (policy : RejectionPolicy) (report : Report) : Prop :=
  (policy = .onError ∧ ∃ line ∈ report.lines, line.outcome = .errored) ∨
    (policy = .onAnyFailure ∧ ∃ line ∈ report.lines, line.outcome ≠ .passed)

/-! ## Reports -/

namespace Report

theorem count_add_count (report : Report) :
    report.count .passed + report.count .failed + report.count .dependencyFailed +
      report.count .errored = report.size := by
  unfold count size
  induction report.lines with
  | nil => rfl
  | cons line lines ih =>
      simp only [List.countP_cons, List.length_cons, ← ih]
      cases line.outcome <;> simp <;> omega

theorem passed_iff (report : Report) : report.passed = true ↔ report.failures = [] := by
  simp [passed, failures, List.filter_eq_nil_iff]

end Report

theorem RejectionPolicy.rejects_iff (policy : RejectionPolicy) (report : Report) :
    policy.rejects report = true ↔ policy.Objects report := by
  cases policy with
  | never => exact iff_of_false nofun fun h => by rcases h with ⟨h, -⟩ | ⟨h, -⟩ <;> cases h
  | onError => simp [rejects, Objects, Report.count, List.countP_pos_iff]
  | onAnyFailure => simp [rejects, Objects, Report.passed, Line.isPassed, Line.outcome,
      Result.isPassed]

namespace Run

/-! ## Entries and calls -/

/-- How the entry of check `i` comes about, and what is noted with it. -/
inductive Notes (p : Plan) (settings : Settings) (calls : List Call) (i : Nat) : Entry → Prop
  | settled (hnone : ∀ c ∈ calls, c.index ≠ i) :
      Notes p settings calls i { result := .dependencyFailed }
  | answered (hcalled : ∃ c ∈ calls, c.index = i) (answer : Answer) (elapsed : Duration) :
      Notes p settings calls i
        { result := .ofAnswer answer
          measurement :=
            if settings.measure then some ⟨elapsed, p.isConcurrent settings i⟩ else none }

/-- What holds of the entries of a run, and of the rules that have none yet but were started. -/
structure Noted (r : Run) (p : Plan) (settings : Settings) : Prop where
  entry {i : Nat} {e : Entry} (he : r.ledger.entry? i = some e) : Notes p settings r.calls i e
  asleep {g : Group} (hwithin : r.stage = .within g) {s : Sleeper} (hs : s ∈ g.asleep) :
    (∃ c ∈ r.calls, c.index = s.index) ∧ p.phaseOf settings s.index = g.phase

variable {p : Plan} {settings : Settings} {r r' : Run} {e : Event} {g : Group} {i : Nat}

theorem phaseOf_beq (p : Plan) (settings : Settings) (i : Nat) :
    (p.phaseOf settings i == .concurrent) = p.isConcurrent settings i := by
  unfold Plan.phaseOf
  cases p.isConcurrent settings i <;> rfl

theorem start_noted (p : Plan) (settings : Settings) (cancelled : Bool) :
    (start p settings cancelled).Noted p settings :=
  ⟨nofun, fun hwithin => absurd hwithin (start_stage_ne p settings cancelled _)⟩

/-- A call of another check changes nothing about an entry. -/
theorem Notes.call {calls : List Call} {e : Entry} {c : Call} (h : Notes p settings calls i e)
    (hne : c.index ≠ i) : Notes p settings (calls ++ [c]) i e := by
  cases h with
  | settled hnone =>
      refine .settled fun c' hc' => ?_
      rcases List.mem_append.mp hc' with hc' | hc'
      · exact hnone c' hc'
      · exact List.mem_singleton.mp hc' ▸ hne
  | answered hcalled answer elapsed =>
      obtain ⟨c', hc', hi⟩ := hcalled
      exact .answered ⟨c', List.mem_append_left _ hc', hi⟩ answer elapsed

/-- A rule that was started is carried on: it ends with an entry, or it sleeps. -/
theorem Carried.noted {a : Application} {sleeps : Nat} (h : Carried settings r g a sleeps r')
    (hentry : ∀ {i e}, r.ledger.entry? i = some e → Notes p settings r.calls i e)
    (hasleep : ∀ s ∈ g.asleep,
      (∃ c ∈ r.calls, c.index = s.index) ∧ p.phaseOf settings s.index = g.phase)
    (hcalled : ∃ c ∈ r.calls, c.index = a.index) (hphase : p.phaseOf settings a.index = g.phase)
    (hopen : r.ledger.contains a.index = false) : r'.Noted p settings := by
  cases h with
  | ended cancelled _ answer =>
      refine ⟨fun {i e} he => ?_, fun {g'} hwithin {s} hs => ?_⟩
      · rcases ite_eq_iff.mp ((Ledger.entry?_record hopen _ i).symm.trans he) with
          ⟨rfl, hnew⟩ | ⟨-, hold⟩
        · obtain rfl := Option.some.inj hnew
          rw [← hphase, phaseOf_beq]
          exact .answered hcalled answer _
        · exact hentry hold
      · cases hwithin
        exact hasleep s hs
  | @asleep cancelled _ s ha =>
      subst ha
      refine ⟨hentry, fun {g'} hwithin {s'} hs' => ?_⟩
      cases hwithin
      rcases List.mem_append.mp hs' with hs' | hs'
      · exact hasleep s' hs'
      · rw [List.mem_singleton.mp hs']
        exact ⟨hcalled, hphase⟩

theorem Granted.noted {check : Check} (h : Granted p settings r (g.call i) i check r')
    (hnoted : r.Noted p settings) (hr : r.Regular p settings) (hwithin : r.stage = .within g)
    (hturn : g.mayCall i = true) : r'.Noted p settings := by
  have hasleep := fun s hs => hnoted.asleep hwithin (s := s) hs
  have hwaiting := Group.mem_waiting_of_mayCall hturn
  have hgroup := (hr.tends hwithin).group
  have hopen := (hgroup.admissible (Group.mem_ahead.mpr (.inl hwaiting))).isOpen
  cases h with
  | dropped | broke =>
      refine ⟨hnoted.entry, fun {g'} hg' {s} hs => ?_⟩
      cases hg'
      exact hasleep s hs
  | stopped | crashed => exact ⟨hnoted.entry, nofun⟩
  | launched _ hcarried =>
      have hcalled :=
        List.mem_append_right r.calls (List.mem_singleton_self (r.callOf (g.call i) i))
      refine hcarried.noted (fun {j e} he => (hnoted.entry he).call ?_) (fun s hs => ?_)
        ⟨_, hcalled, rfl⟩ (hgroup.waiting hwaiting) hopen
      · intro hij
        obtain rfl : i = j := hij
        cases (Ledger.contains_eq_false.mp hopen).symm.trans he
      · obtain ⟨⟨c, hc, hi⟩, hphase⟩ := hasleep s hs
        exact ⟨⟨c, List.mem_append_left _ hc, hi⟩, hphase⟩

/-- Settling enters nothing for a rule that was started, since these all have results. -/
theorem Noted.settled (h : r.Noted p settings)
    (hcalls : ∀ c ∈ r.calls, r.ledger.contains c.index = true) {e : Entry}
    (he : (r.settled p).ledger.entry? i = some e) : Notes p settings r.calls i e := by
  rcases Plan.entry?_settle he with he | ⟨hopen, rfl⟩
  · exact h.entry he
  · refine .settled fun c hc hi => ?_
    rw [← hi, hcalls c hc] at hopen
    cases hopen

theorem Noted.step (h : r.Noted p settings) (hr : r.Regular p settings)
    (hstep : Step p settings r e r') : r'.Noted p settings := by
  cases hstep.effect with
  | pass | cancel => exact ⟨h.entry, h.asleep⟩
  | survey hbetween houtlook =>
      have hcalls := (hr.between hbetween).2.2
      cases houtlook with
      | finished | cancelled => exact ⟨h.entry, nofun⟩
      | settled =>
          refine ⟨h.settled hcalls, fun {_} hwithin => ?_⟩
          rw [show (r.settled p).stage = .between from hbetween] at hwithin
          cases hwithin
      | stalled => exact ⟨h.settled hcalls, nofun⟩
      | wave =>
          refine ⟨h.settled hcalls, fun {_} hwithin {_} hs => ?_⟩
          cases hwithin
          cases hs
  | grant hwithin hturn _ _ hgranted => exact hgranted.noted h hr hwithin hturn
  | wake hwithin hs ha _ hcarried =>
      have hopen := (hr.applies_take hwithin hs).admissible.isOpen
      obtain ⟨hasleep, rfl, rfl⟩ := Group.take?_eq_some hs
      obtain ⟨hcalled, hphase⟩ := h.asleep hwithin hasleep
      exact hcarried.noted h.entry (fun s hs => h.asleep hwithin (List.mem_of_mem_filter hs))
        (ha ▸ hcalled) (ha ▸ hphase) (ha ▸ hopen)
  | turn =>
      refine ⟨h.entry, fun {_} hwithin {_} hs => ?_⟩
      cases hwithin
      cases hs
  | done | collapse => exact ⟨h.entry, nofun⟩

theorem Noted.stepAll {es : List Event} (h : r.Noted p settings) (hr : r.Regular p settings)
    (hsteps : r.stepAll? p settings es = some r') : r'.Noted p settings :=
  (preserved_stepAll (P := fun r => r.Regular p settings ∧ r.Noted p settings)
    (fun _ _ _ h hstep => ⟨h.1.step hstep, h.2.step h.1 hstep⟩) ⟨hr, h⟩ hsteps).2

/-! ## Lines -/

/-- The entry of check `i` agrees with itself, with what was started, and with the settings. -/
structure Accounts (r : Run) (settings : Settings) (check : Check) (i : Nat) (e : Entry) :
    Prop where
  error : e.result.error?.isSome = true ↔ e.result.outcome = .errored
  /-- A dependency failed exactly if the rule was never started. -/
  failed : e.result.outcome = .dependencyFailed ↔ ∀ c ∈ r.calls, c.index ≠ i
  bare (h : e.result.outcome = .dependencyFailed) : e.result.data = [] ∧ e.measurement = none
  measured : e.measurement.isSome = true ↔ settings.measure = true ∧ ∃ c ∈ r.calls, c.index = i
  /-- What is noted as run beside others is what may be. -/
  concurrent {measurement : Measurement} (h : e.measurement = some measurement) :
    measurement.concurrent = (settings.concurrent && check.logic.parallelSafe)

theorem Notes.accounts {e : Entry} {check : Check} (h : Notes p settings r.calls i e)
    (hcheck : p.check? i = some check) : r.Accounts settings check i e := by
  cases h with
  | settled hnone =>
      exact
        { error := Result.isSome_error? _
          failed := iff_of_true rfl hnone
          bare := fun _ => ⟨rfl, rfl⟩
          measured := iff_of_false nofun fun ⟨_, c, hc, hi⟩ => hnone c hc hi
          concurrent := nofun }
  | answered hcalled answer elapsed =>
      have hanswered := Result.outcome_ofAnswer_ne answer
      refine
        { error := Result.isSome_error? _
          failed := iff_of_false hanswered fun hnone => ?_
          bare := fun hfailed => absurd hfailed hanswered
          measured := ?_
          concurrent := fun {measurement} hmeasurement => ?_ }
      · obtain ⟨c, hc, hi⟩ := hcalled
        exact hnone c hc hi
      · cases settings.measure with
        | false => exact iff_of_false nofun nofun
        | true => exact iff_of_true rfl ⟨rfl, hcalled⟩
      · obtain ⟨-, hnew⟩ := Option.ite_none_right_eq_some.mp hmeasurement
        obtain rfl := Option.some.inj hnew
        simp only [Plan.isConcurrent, hcheck, Option.any_some]

/-! ## The report of a run -/

/-- A report that says of a run what the run did. -/
structure Reports (r : Run) (p : Plan) (settings : Settings) (report : Report) : Prop where
  size : report.size = p.size
  line {i : Nat} {line : Line} (hline : report.lines[i]? = some line) :
    ∃ check, p.check? i = some check ∧ line.label = check.label ∧ line.value = check.value ∧
      r.ledger.entry? i = some line.entry ∧ r.Accounts settings check i line.entry
  counts : report.count .passed + report.count .failed + report.count .dependencyFailed +
    report.count .errored = report.size
  passed : report.passed = true ↔ report.failures = []
  rejected : r.answer p settings = .error (.rejected report) ↔ settings.rejection.Objects report
  accepted : r.answer p settings = .ok report ↔ ¬ settings.rejection.Objects report

/-- Whether there is a report, and which, has nothing to do with the settings. -/
theorem reportOf?_answer (p : Plan) (settings : Settings) (r : Run) :
    reportOf? (r.answer p settings) =
      if r.ending? = some .finished then some (r.report p) else none := by
  unfold answer
  split
  · rename_i hfinished
    rw [if_pos hfinished]
    dsimp only
    split <;> rfl
  all_goals
    rename_i hending
    rw [if_neg (by rw [hending]; exact nofun)]
    rfl

theorem answer_rejection (p : Plan) {settings : Settings} (rejection : RejectionPolicy) {r : Run}
    (h : reportOf? (r.answer p settings) = none) :
    r.answer p { settings with rejection } = r.answer p settings := by
  unfold answer at h ⊢
  split
  · rename_i hfinished
    rw [hfinished] at h
    dsimp only at h
    split at h <;> cases h
  all_goals rfl

/-- Each line of a report is on the check of its place. -/
theorem Delivers.line (h : r.Delivers p settings) {line : Line}
    (hline : (r.report p).lines[i]? = some line) :
    ∃ check, p.check? i = some check ∧ line.label = check.label ∧ line.value = check.value ∧
      r.ledger.entry? i = some line.entry := by
  have hlines := congrArg (·[i]?) h.lines
  simp only [List.getElem?_map, hline, List.getElem?_zipIdx, Option.map_some, Option.map_map,
    Nat.zero_add] at hlines
  obtain ⟨check, hcheck, heq⟩ := Option.map_eq_some_iff.mp hlines.symm
  simp only [Function.comp, Prod.mk.injEq] at heq
  exact ⟨check, hcheck, heq.1.symm, heq.2.1.symm, heq.2.2⟩

theorem Regular.reports {report : Report} (h : r.Regular p settings) (hnoted : r.Noted p settings)
    (hreport : reportOf? (r.answer p settings) = some report) : r.Reports p settings report := by
  rw [reportOf?_answer] at hreport
  obtain ⟨hfinished, heq⟩ := Option.ite_none_right_eq_some.mp hreport
  obtain rfl := Option.some.inj heq
  have hdelivers := delivers_of_finished hfinished (h.whole hfinished) settings
  have hanswer : r.answer p settings = if settings.rejection.rejects (r.report p) = true then
      .error (.rejected (r.report p)) else .ok (r.report p) := by
    rw [answer, hfinished]
  have hobjects := settings.rejection.rejects_iff (r.report p)
  exact
    { size := by simpa [Report.size, Plan.size] using congrArg List.length hdelivers.lines
      line := fun {i line} hline => by
        obtain ⟨check, hcheck, hlabel, hvalue, he⟩ := hdelivers.line hline
        exact ⟨check, hcheck, hlabel, hvalue, he, (hnoted.entry he).accounts hcheck⟩
      counts := Report.count_add_count _
      passed := Report.passed_iff _
      rejected := by
        rw [hanswer, ← hobjects]
        split <;> simp [*]
      accepted := by
        rw [hanswer, ← hobjects]
        split <;> simp [*] }

/-! ## The policy is asked last -/

theorem step?_rejection (p : Plan) (settings : Settings) (rejection : RejectionPolicy) (r : Run)
    (e : Event) : r.step? p { settings with rejection } e = r.step? p settings e := rfl

theorem stepAll?_rejection (p : Plan) (settings : Settings) (rejection : RejectionPolicy) (r : Run)
    (es : List Event) : r.stepAll? p { settings with rejection } es = r.stepAll? p settings es := by
  induction es generalizing r with
  | nil => rfl
  | cons e es ih =>
      rw [stepAll?, stepAll?, step?_rejection]
      exact congrArg _ (funext ih)

theorem next?_rejection (settings : Settings) (rejection : RejectionPolicy) (cancelAt : Option Nat)
    (r : Run) : r.next? { settings with rejection } cancelAt = r.next? settings cancelAt := rfl

theorem play_rejection (p : Plan) (settings : Settings) (rejection : RejectionPolicy)
    (cancelAt : Option Nat) (steps : Nat) (r : Run) :
    r.play p { settings with rejection } cancelAt steps = r.play p settings cancelAt steps := by
  induction steps generalizing r with
  | zero => rfl
  | succ steps ih =>
      have hstep : r.step? p { settings with rejection } = r.step? p settings :=
        funext (step?_rejection p settings rejection r)
      rw [play, play, next?_rejection, hstep]
      cases (r.next? settings cancelAt).bind (r.step? p settings) with
      | none => rfl
      | some r' => exact ih r'

end Run

/-- Validations that differ at most in whether their report is accepted. -/
structure Validation.Agrees (v w : Validation) : Prop where
  report : reportOf? v.answer = reportOf? w.answer
  answer (h : reportOf? w.answer = none) : v.answer = w.answer
  calls : v.calls = w.calls
  finishedAt : v.finishedAt = w.finishedAt

theorem validate_rejection (m : Manifest) (registry : RuleRegistry) (settings : Settings)
    (rejection : RejectionPolicy) (cancellation : Cancellation) (document : Json) :
    (validate m registry { settings with rejection } cancellation document).Agrees
      (validate m registry settings cancellation document) := by
  have hrun : ∀ p, Run.complete p { settings with rejection } cancellation.before
      cancellation.millis = Run.complete p settings cancellation.before cancellation.millis :=
    fun p => Run.play_rejection p settings rejection _ _ _
  unfold validate
  dsimp only
  cases Plan.prepare m registry settings.onFailure document with
  | error e => exact ⟨rfl, fun _ => rfl, rfl, rfl⟩
  | ok p =>
      dsimp only
      rw [hrun]
      exact ⟨by rw [Run.reportOf?_answer, Run.reportOf?_answer], Run.answer_rejection p rejection,
        rfl, rfl⟩

/-- To make a check is to start its rule on its value. -/
def Plan.Starts (p : Plan) (check : Check) : Prop :=
  ∃ value, p.tree.value? check.value = some value ∧
    p.activityOf check = check.logic.start value
      ((p.tree.logicalParent? check.value).bind p.tree.value?) (p.contextOf check)

theorem Plan.starts_of_prepareTo {m : Manifest} {registry : RuleRegistry} {policy : FailurePolicy}
    {depth : Nat} {document : Json} {p : Plan}
    (h : Plan.prepareTo m registry policy depth document = .ok p) {check : Check}
    (hcheck : check ∈ p.checks) : p.Starts check := by
  obtain ⟨value, hvalue⟩ := Plan.exists_value h hcheck
  exact ⟨value, hvalue, by rw [activityOf, hvalue]⟩

/-- **A report says what was done, and is accepted by its own merits.** Take any settings, any plan,
any order of events and a cancellation at any moment. If the run comes to a report, that accounts
for every check: its error, its data, its measurement and the group it was run in agree with its
outcome, with the rules that were started and with the settings, the outcomes add up, and the report
is rejected exactly if the policy objects to it. Under another policy the same events give the same
run and the same report. So it is for the run against the clock that a validation answers with, in
which each rule that was started was applied to its value. -/
theorem reports_consistent (settings : Settings) :
    (∀ p cancelled es r, (Run.start p settings cancelled).stepAll? p settings es = some r →
      (∀ report, reportOf? (r.answer p settings) = some report → r.Reports p settings report) ∧
        ∀ rejection,
          (Run.start p { settings with rejection } cancelled).stepAll? p
            { settings with rejection } es = some r ∧
          reportOf? (r.answer p { settings with rejection }) =
            reportOf? (r.answer p settings)) ∧
      ∀ m registry cancellation document,
        let v := validate m registry settings cancellation document
        (∀ report, reportOf? v.answer = some report →
          ∃ p es r, Plan.prepare m registry settings.onFailure document = .ok p ∧
            (∀ check ∈ p.checks, p.Starts check) ∧
            (Run.start p settings cancellation.before).stepAll? p settings es = some r ∧
            v.answer = r.answer p settings ∧
            v.calls = r.calls.filterMap (fun c => (p.check? c.index).map (c, ·.label)) ∧
            r.Reports p settings report) ∧
          ∀ rejection,
            (validate m registry { settings with rejection } cancellation document).Agrees v := by
  have hreports : ∀ p cancelled es r,
      (Run.start p settings cancelled).stepAll? p settings es = some r →
        ∀ report, reportOf? (r.answer p settings) = some report → r.Reports p settings report :=
    fun p cancelled es r hrun report hreport =>
      ((Run.start_regular p settings cancelled).stepAll hrun).reports
        ((Run.start_noted p settings cancelled).stepAll (Run.start_regular p settings cancelled)
          hrun) hreport
  refine ⟨fun p cancelled es r hrun => ⟨hreports p cancelled es r hrun, fun rejection => ⟨?_, ?_⟩⟩,
    fun m registry cancellation document => ⟨fun report hreport => ?_, fun rejection =>
      validate_rejection m registry settings rejection cancellation document⟩⟩
  · rw [Run.stepAll?_rejection]
    exact hrun
  · rw [Run.reportOf?_answer, Run.reportOf?_answer]
  · unfold validate at hreport ⊢
    cases hprepare : Plan.prepare m registry settings.onFailure document with
    | error e =>
        rw [hprepare] at hreport
        cases hreport
    | ok p =>
        rw [hprepare] at hreport
        obtain ⟨es, hrun⟩ :=
          Run.exists_events_complete p settings cancellation.before cancellation.millis
        exact ⟨p, es, _, rfl, fun check => Plan.starts_of_prepareTo hprepare, hrun, rfl, rfl,
          hreports p _ es _ hrun report hreport⟩

def thorough : Settings := { measure := true, onFailure := .skip, rejection := .onAnyFailure }

/-- Two checks wait for something that the folder lacks. So its report is rejected, and under a
policy that objects to errors only the same report is accepted. -/
theorem reports_consistent_staggered :
    ∃ p es r report,
      Plan.prepare (Manifest.build "Folder" lockedEdits) staggeredRules .skip folder = .ok p ∧
      (∀ check ∈ p.checks, p.Starts check) ∧
      (Run.start p thorough false).stepAll? p thorough es = some r ∧ r.Reports p thorough report ∧
      (validate (Manifest.build "Folder" lockedEdits) staggeredRules thorough {} folder).answer =
        .error (.rejected report) ∧
      report.count .dependencyFailed = 2 ∧
      (Run.start p { thorough with rejection := .onError } false).stepAll? p
        { thorough with rejection := .onError } es = some r ∧
      r.answer p { thorough with rejection := .onError } = .ok report ∧
      (validate (Manifest.build "Folder" lockedEdits) staggeredRules
        { thorough with rejection := .onError } {} folder).Agrees
          (validate (Manifest.build "Folder" lockedEdits) staggeredRules thorough {} folder) := by
  have hsome : ((reportOf? (validate (Manifest.build "Folder" lockedEdits) staggeredRules thorough
      {} folder).answer).any fun report => RejectionPolicy.onAnyFailure.rejects report &&
        !RejectionPolicy.onError.rejects report && report.count .dependencyFailed == 2) = true := by
    decide +kernel
  obtain ⟨report, hreport, htest⟩ := (Option.any_eq_true _ _).mp hsome
  simp only [Bool.and_eq_true, Bool.not_eq_true', ← Bool.not_eq_true, beq_iff_eq,
    RejectionPolicy.rejects_iff] at htest
  obtain ⟨⟨hobjects, haccepts⟩, hcount⟩ := htest
  obtain ⟨hruns, hvalidations⟩ := reports_consistent thorough
  obtain ⟨hreports, hpolicies⟩ := hvalidations _ _ _ _
  obtain ⟨p, es, r, hprepare, hstarts, hrun, hanswer, -, hr⟩ := hreports report hreport
  obtain ⟨hrun', hreport'⟩ := (hruns p false es r hrun).2 .onError
  have hr' := ((reports_consistent { thorough with rejection := .onError }).1 p false es r hrun').1
    report (hreport'.trans (hanswer ▸ hreport))
  exact ⟨p, es, r, report, hprepare, hstarts, hrun, hr, hanswer.trans (hr.rejected.mpr hobjects),
    hcount, hrun', hr'.accepted.mpr haccepts, hpolicies .onError⟩

end Vetting
