import Mathlib.Logic.Relation
import Vetting.Proofs.Run.Outcome
import Vetting.Proofs.Run.Timing
import Vetting.Proofs.Run.Tokens

/-!
# A time limit concerns its own rule only

If neither the caller nor a rule cancels the run, nothing else does (`Run.Calm`): whatever the
rules come to, and however many of them reach their time limits, crash or fail, the run goes on to
its end. Each rule that was started comes to its own answer if that takes no longer than its time
limit, and else to a timeout (`Activity.conclusion_limited`); and what a check comes to is settled
by the checks that it depends on, however indirectly, and by nothing else (`Plan.eval_congr`).
-/

namespace Vetting

/-! ## Time limits -/

namespace Activity

theorem conclusion_unlimited (activity : Activity) (spent spent' : Nat) :
    activity.conclusion none spent = activity.conclusion none spent' := by
  induction activity generalizing spent spent' with
  | answer | crash => rfl
  | cancelRun next ih => exact ih spent spent'
  | poll next ih => exact ih false spent spent'
  | sleep millis deaf next ih => exact ih false (spent + millis) (spent' + millis)

/-- An activity comes to its own answer if it takes no longer than its time limit. -/
theorem conclusion_limited {limit spent : Nat} (h : spent ≤ limit) (activity : Activity) :
    activity.conclusion (some limit) spent =
      if limit < spent + activity.span then .error (.timeout (.ofMillis limit))
      else activity.conclusion none 0 := by
  induction activity generalizing spent with
  | answer | crash => exact (if_neg (Nat.not_lt.mpr h)).symm
  | cancelRun next ih => exact ih h
  | poll next ih => exact ih false h
  | sleep millis deaf next ih =>
      rw [conclusion, span, ← Nat.add_assoc]
      by_cases hover : limit < spent + millis
      · rw [cut hover, if_pos (by omega)]
      · have hin : ∀ n, some limit = some n → spent + millis ≤ n := fun n hn =>
          Option.some.inj hn ▸ Nat.not_lt.mp hover
        rw [uncut hin, ih false (hin limit rfl)]
        exact if_congr Iff.rfl rfl (conclusion_unlimited _ _ _)

/-- Whether an activity, which has taken `spent` so far, leaves the run alone on the course that it
takes if nothing cancels it, as far as its time limit lets it come. -/
def spares (limit : Option Nat) : Nat → Activity → Bool
  | _, answer _ => true
  | _, crash _ => true
  | _, cancelRun _ => false
  | spent, poll next => (next false).spares limit spent
  | spent, sleep millis _ next =>
    match limit.filter fun n => n < spent + millis with
    | some _ => true
    | none => (next false).spares limit (spent + millis)

theorem spares_burst {limit : Option Nat} {spent : Nat} (hspent : ∀ n, limit = some n → spent ≤ n)
    {activity : Activity} (h : activity.spares limit spent = true) :
    (activity.burst false).1 = false ∧
      (activity.burst false).2.activity.spares limit spent = true := by
  induction activity with
  | answer | crash => exact ⟨rfl, rfl⟩
  | cancelRun => cases h
  | poll next ih => exact ih false h
  | sleep millis deaf next ih =>
      cases millis with
      | succ millis => exact ⟨rfl, h⟩
      | zero =>
          rw [spares, Nat.add_zero, uncut hspent] at h
          exact ih false h

end Activity

/-! ## Runs that nobody cancels -/

/-- Neither the caller nor a rule that gets a permit cancels the run, and no rule that gets one
crashes when it is asked for its time limit. -/
structure Plan.Unprovoked (p : Plan) (es : List Event) : Prop where
  uncalled : .cancel ∉ es
  limit {i : Nat} (hi : .grant i ∈ es) {check : Check} (hc : p.check? i = some check) :
    check.logic.limit ≠ .faulty
  spares {i : Nat} (hi : .grant i ∈ es) {check : Check} (hc : p.check? i = some check) :
    (p.activityOf check).spares check.logic.limit.millis? 0 = true

theorem Plan.unprovoked_of_all {p : Plan} {es : List Event} (hes : .cancel ∉ es)
    (h : ∀ check ∈ p.checks, check.logic.limit ≠ .faulty ∧
      (p.activityOf check).spares check.logic.limit.millis? 0 = true) : p.Unprovoked es :=
  ⟨hes, fun _ _ hc => (h _ (List.mem_of_getElem? hc)).1,
    fun _ _ hc => (h _ (List.mem_of_getElem? hc)).2⟩

/-- An application that leaves the run alone and is within its time limit. -/
structure Application.Spares (a : Application) (activity : Activity) : Prop where
  course : activity.spares a.limit a.spent = true
  in_time {n : Nat} (h : a.limit = some n) : a.spent ≤ n

namespace Run

variable {p : Plan} {hp : p.Orderly} {settings : Settings} {r r' : Run} {e : Event}
  {es : List Event} {g : Group}

/-- A run that is not cancelled, nor will be by the rules that sleep. -/
structure Spared (r : Run) : Prop where
  uncancelled : r.cancelled = false
  asleep {g : Group} (hwithin : r.stage = .within g) {s : Sleeper} (hs : s ∈ g.asleep) :
    s.toApplication.Spares s.activity

theorem proceed_spared {a : Application} {activity : Activity} (ha : a.Spares activity)
    (hr : r.cancelled = false) (hg : ∀ s ∈ g.asleep, s.toApplication.Spares s.activity) :
    (r.proceed settings g a activity).Spared := by
  have hburst := Activity.spares_burst (fun n => ha.in_time (n := n)) ha.course
  unfold proceed
  rw [hr]
  generalize activity.burst false = outcome at hburst ⊢
  obtain ⟨cancelled, pause⟩ := outcome
  obtain ⟨rfl, hpause⟩ := hburst
  cases pause with
  | ended answer =>
      refine ⟨rfl, fun {g'} hwithin {s} hs => ?_⟩
      cases hwithin
      exact hg s hs
  | asleep millis deaf next =>
      refine ⟨rfl, fun {g'} hwithin {s} hs => ?_⟩
      cases hwithin
      rcases List.mem_append.mp hs with hs | hs
      · exact hg s hs
      · obtain rfl := List.mem_singleton.mp hs
        exact ⟨hpause, ha.in_time⟩

theorem resume_spared {s : Sleeper} (hs : s.toApplication.Spares s.activity)
    (hr : r.cancelled = false) (hg : ∀ s ∈ g.asleep, s.toApplication.Spares s.activity) :
    (r.resume settings g s).Spared := by
  rcases resume_cases settings r g s with ⟨n, -, -, heq⟩ | ⟨hin, heq⟩
  · rw [heq]
    refine ⟨hr, fun {g'} hwithin {s} hs => ?_⟩
    cases hwithin
    exact hg s hs
  · have hcourse := hs.course
    rw [Sleeper.activity, Activity.spares, Activity.uncut hin] at hcourse
    rw [heq]
    exact proceed_spared ⟨hcourse, hin _⟩ hr hg

theorem Spared.step (h : r.Spared) (hquiet : p.Unprovoked es) (he : e ∈ es)
    (hstep : Step p settings r e r') : r'.Spared := by
  cases hstep with
  | pass => exact ⟨h.uncancelled, h.asleep⟩
  | cancel => exact absurd he hquiet.uncalled
  | survey hbetween =>
      have houtlook := r.survey_outlook p settings
      generalize r.survey p settings = r' at houtlook ⊢
      cases houtlook with
      | finished | cancelled | stalled => exact ⟨h.uncancelled, nofun⟩
      | settled =>
          refine ⟨h.uncancelled, fun hwithin => ?_⟩
          exact nomatch hbetween.symm.trans hwithin
      | wave =>
          refine ⟨h.uncancelled, fun {g} hwithin {s} hs => ?_⟩
          cases hwithin
          cases hs
  | @grant g i check hwithin hturn hpermit hc =>
      rw [grant_eq _ _ h.uncancelled (hquiet.limit he hc)]
      exact proceed_spared ⟨hquiet.spares he hc, fun _ => Nat.zero_le _⟩ h.uncancelled
        fun s hs => h.asleep hwithin (s := s) hs
  | @resume g g' i s hwithin hs =>
      obtain ⟨hasleep, -, rfl⟩ := Group.take?_eq_some hs
      exact resume_spared (h.asleep hwithin hasleep) h.uncancelled fun s hs =>
        h.asleep hwithin (List.mem_of_mem_filter hs)
  | interrupt _ _ hcancelled => exact absurd h.uncancelled (by simp [hcancelled])
  | @close g =>
      unfold Run.close
      cases g.phase with
      | serial => exact ⟨h.uncancelled, nofun⟩
      | concurrent =>
          refine ⟨h.uncancelled, fun {g} hwithin {s} hs => ?_⟩
          cases hwithin
          cases hs
  | collapse => exact ⟨h.uncancelled, nofun⟩

theorem Spared.stepAll (h : r.Spared) (hquiet : p.Unprovoked es)
    (hsteps : r.stepAll? p settings es = some r') : r'.Spared :=
  preserved_stepAll_of_mem (P := Spared) (fun _ he _ _ hr hstep => hr.step hquiet he hstep) h
    hsteps

theorem start_spared (p : Plan) (settings : Settings) : (start p settings false).Spared :=
  ⟨rfl, fun hwithin => absurd hwithin (start_stage_ne p settings false _)⟩

/-- A run that goes on undisturbed, with reference results. -/
structure Calm (r : Run) (p : Plan) (hp : p.Orderly) : Prop extends r.Sound p hp, r.Spared where
  called {c : Call} (hc : c ∈ r.calls) :
    ∃ check, p.check? c.index = some check ∧ p.eval hp c.index = .ofAnswer (p.answerOf check)

theorem start_calm (hp : p.Orderly) (hpermits : settings.permits ≤ Settings.permitLimit) :
    (start p settings false).Calm p hp :=
  { start_sound hp hpermits false, start_spared p settings with called := nofun }

theorem Calm.step (h : r.Calm p hp) (hquiet : p.Unprovoked es) (he : e ∈ es)
    (hstep : Step p settings r e r') : r'.Calm p hp := by
  have hspared := h.toSpared.step hquiet he hstep
  have hsound : r'.Sound p hp := by
    refine h.toSound.step_of (fun i check hi hc => ?_) hstep hspared.uncancelled
    exact hquiet.limit (hi ▸ he) hc
  refine { hsound, hspared with called := fun {c} hc => ?_ }
  rcases hstep.calls with hcalls | ⟨g, i, hwithin, hturn, -, -, hcalls⟩
  · exact h.called (hcalls ▸ hc)
  · rw [hcalls] at hc
    rcases List.mem_append.mp hc with hc | hc
    · exact h.called hc
    · obtain rfl := List.mem_singleton.mp hc
      have hwaiting := Group.mem_waiting_of_mayCall hturn
      exact ((h.group hwithin).due (Group.mem_ahead.mpr (.inl hwaiting))).2

theorem Calm.stepAll (h : r.Calm p hp) (hquiet : p.Unprovoked es)
    (hsteps : r.stepAll? p settings es = some r') : r'.Calm p hp :=
  preserved_stepAll_of_mem (P := fun r => r.Calm p hp)
    (fun _ he _ _ hr hstep => hr.step hquiet he hstep) h hsteps

theorem Calm.undisturbed (h : r.Calm p hp) : r.Undisturbed := by
  refine ⟨h.uncancelled, h.unbroken, fun hcrashed => ?_⟩
  have hfinished := (h.toSound.finished (by rw [hcrashed]; exact nofun)).1
  rw [hcrashed] at hfinished
  cases hfinished

end Run

/-! ## What the result of a check hangs on -/

namespace Plan

variable {p q : Plan} {i : Nat} {check : Check} {limit : Nat}

/-- In two plans for the same values, check `i` and all that it depends on, however indirectly, are
the same. -/
structure AgreesOn (p q : Plan) (i : Nat) : Prop where
  tree : q.tree = p.tree
  check? {j : Nat} (hj : Relation.ReflTransGen p.Precedes j i) : q.check? j = p.check? j

theorem AgreesOn.of_precedes {j : Nat} (h : p.AgreesOn q i) (hj : p.Precedes j i) :
    p.AgreesOn q j :=
  ⟨h.tree, fun hk => h.check? (hk.tail hj)⟩

theorem answerOf_congr (h : q.tree = p.tree) (check : Check) :
    q.answerOf check = p.answerOf check := by
  rw [answerOf, answerOf, activityOf, activityOf, contextOf, contextOf, h]

/-- The result of a check hangs on nothing but the checks that it depends on, however
indirectly. -/
theorem eval_congr (hp : p.Orderly) (hq : q.Orderly) (h : p.AgreesOn q i) :
    q.eval hq i = p.eval hp i := by
  induction i using hp.wellFounded.induction with
  | _ i ih =>
      have hsame := h.check? .refl
      cases hc : p.check? i with
      | none => rw [eval_of_none hp hc, eval_of_none hq (hsame.trans hc)]
      | some check =>
          have hdeps : check.dependencies.any (fun j => !(q.eval hq j).isPassed) =
              check.dependencies.any fun j => !(p.eval hp j).isPassed := by
            rw [Bool.eq_iff_iff, List.any_eq_true, List.any_eq_true]
            refine exists_congr fun j => and_congr_right fun hj => ?_
            have hprecedes : p.Precedes j i := ⟨check, hc, hj⟩
            rw [ih j hprecedes (h.of_precedes hprecedes)]
          rw [eval_eq hp hc, eval_eq hq (hsame.trans hc), answerOf_congr h.tree, hdeps]

theorem answerOf_limited (hlimit : check.logic.limit = .millis limit) :
    p.answerOf check =
      if limit < (p.activityOf check).span then .error (.timeout (.ofMillis limit))
      else (p.activityOf check).conclusion none 0 := by
  rw [answerOf, hlimit, TimeLimit.millis?, Activity.conclusion_limited (Nat.zero_le _),
    Nat.zero_add]

/-- A rule that overruns takes as long as its time limit. -/
theorem time_of_overrun (hc : p.check? i = some check) (hlimit : check.logic.limit = .millis limit)
    (hover : limit < (p.activityOf check).span) : p.time i = limit := by
  rw [time, hc, Option.map_some, Option.getD_some, TimeLimit.cut, hlimit]
  exact Nat.min_eq_right (Nat.le_of_lt hover)

end Plan

/-- **A time limit concerns its own rule only.** Take a plan, any settings and any order of events,
and a run in which neither the caller nor a rule cancels the run and no rule that gets a permit
crashes when it is asked for its time limit.
- A rule that was started and has a time limit comes to its own answer if it takes no longer than
  that, and else to a timeout, which is recorded as long after its start as the limit says if
  sleepers wake when they are due.
- With a token for each rule the run goes the same, and no token ever reports a cancellation but
  that of a rule whose time limit was reached.
- The run goes on until every check has a result, and the report is the answer, or rejected, if
  there are no more permits than there can be.
- In all runs of this kind, also of other plans for the same values and with other settings, a check
  has the same result as long as the checks that it depends on, however indirectly, are the same:
  what comes of other rules is no concern of it. -/
theorem timeout_local {p : Plan} (hp : p.Orderly) (settings : Settings) {es : List Event} {r : Run}
    (hrun : (Run.start p settings false).stepAll? p settings es = some r)
    (hquiet : p.Unprovoked es) :
    (∀ c ∈ r.calls, ∀ entry, r.ledger.entry? c.index = some entry →
      ∀ check n, p.check? c.index = some check → check.logic.limit = .millis n →
        ((p.activityOf check).span ≤ n →
          entry.result = .ofAnswer ((p.activityOf check).conclusion none 0)) ∧
        (n < (p.activityOf check).span →
          entry.result = .errored (.timeout (.ofMillis n)) ∧
          (Run.Led Run.Exact p settings (Run.start p settings false) es r →
            Run.RecordedAt p settings (Run.start p settings false) es c.index (c.millis + n)))) ∧
    (∃ t, (Tokened.start p settings false).stepAll? p settings es = some t ∧ t.run = r ∧
      ∀ i, t.reports i = true → r.ledger.TimedOut i) ∧
    (r.ending? = none → ∃ e r', e.advances = true ∧ r.step? p settings e = some r') ∧
    (settings.permits ≤ Settings.permitLimit → r.ending? ≠ none →
      r.ending? = some .finished ∧ (∀ i < p.size, r.ledger.contains i = true) ∧
      (r.answer p settings = .ok (r.report p) ∨
        r.answer p settings = .error (.rejected (r.report p)))) ∧
    ∀ {q : Plan}, q.Orderly → ∀ {settings' : Settings} {es' : List Event} {r' : Run},
      (Run.start q settings' false).stepAll? q settings' es' = some r' → q.Unprovoked es' →
      ∀ i, p.AgreesOn q i → ∀ entry entry', r.ledger.entry? i = some entry →
        r'.ledger.entry? i = some entry' → entry'.result = entry.result := by
  have hcalm (hpermits : settings.permits ≤ Settings.permitLimit) : r.Calm p hp :=
    (Run.start_calm hp hpermits).stepAll hquiet hrun
  have hregular := (Run.start_regular p settings false).stepAll hrun
  refine ⟨fun c hc entry he check n hcheck hlimit => ?_, ?_, hregular.exists_advance,
    fun hpermits hover => ?_,
    fun {q} hq {settings' es' r'} hrun' hquiet' i hagrees entry entry' he he' => ?_⟩
  · have hcalm := hcalm (Run.permits_le_of_entry? hrun he)
    obtain ⟨check', hcheck', heval⟩ := hcalm.called hc
    obtain rfl := Option.some.inj (hcheck.symm.trans hcheck')
    have hresult := (hcalm.agrees c.index entry he).trans heval
    rw [Plan.answerOf_limited hlimit] at hresult
    refine ⟨fun hin => ?_, fun hover => ⟨?_, fun hexact => ?_⟩⟩
    · rwa [if_neg (Nat.not_lt.mpr hin)] at hresult
    · rwa [if_pos hover] at hresult
    · have honTime := (hexact.timed hcalm.undisturbed).recorded c hc entry he
      rw [← Plan.time_of_overrun hcheck hlimit hover]
      exact honTime.recorded
  · have hstart := Run.start_regular p settings false
    have howned := Tokened.start_owned p settings false
    have hmap := (Tokened.stepAll?_map_run howned hstart es).trans hrun
    obtain ⟨t, ht, rfl⟩ := Option.map_eq_some_iff.mp hmap
    refine ⟨t, ht, rfl, fun i hi => howned.stepAll hstart ht i ?_⟩
    have hspared := (Run.start_spared p settings).stepAll hquiet hrun
    rw [Tokened.reports, hspared.uncancelled, Bool.false_or] at hi
    exact List.contains_iff_mem.mp hi
  · obtain ⟨hfinished, hall⟩ := (hcalm hpermits).toSound.finished hover
    exact ⟨hfinished, hall, Run.answer_of_finished settings hfinished⟩
  · have hcalm := hcalm (Run.permits_le_of_entry? hrun he)
    have hpermits' := Run.permits_le_of_entry? hrun' he'
    have hcalm' := (Run.start_calm hq hpermits').stepAll hquiet' hrun'
    rw [hcalm.agrees i entry he, hcalm'.agrees i entry' he']
    exact Plan.eval_congr hp hq hagrees

/-- Two rules with the same time limit, one of which takes longer and one just as long, and a rule
after each. -/
def parcelEdits : List Edit := [
  .addRule ⟨0⟩ "delay" (some "weigh")
    [("millis", .int 4), ("parallel", .bool true), ("timeout_millis", .int 3)] [],
  .addRule ⟨0⟩ "delay" (some "stamp")
    [("millis", .int 3), ("parallel", .bool true), ("timeout_millis", .int 3)] [],
  .addRule ⟨0⟩ "delay" (some "bill") [("millis", .int 1)]
    [⟨⟨0⟩, ⟨"delay", "Parcel", some "weigh"⟩⟩],
  .addRule ⟨0⟩ "delay" (some "ship") [("millis", .int 1)]
    [⟨⟨0⟩, ⟨"delay", "Parcel", some "stamp"⟩⟩]]

/-- The first rule is cut off after three milliseconds, the second passes at that moment and never
learns of it. -/
theorem timeout_local_parcel :
    ∃ p es r,
      Plan.prepare (Manifest.build "Parcel" parcelEdits) delayRules .propagate (.object []) =
        .ok p ∧
      p.Orderly ∧ (Run.start p {} false).stepAll? p {} es = some r ∧ p.Unprovoked es ∧
      (∃ entry, r.ledger.entry? 0 = some entry ∧
        entry.result = .errored (.timeout (.ofMillis 3)) ∧
        Run.RecordedAt p {} (Run.start p {} false) es 0 3) ∧
      (∃ entry, r.ledger.entry? 1 = some entry ∧ entry.result.isPassed = true) ∧
      (∃ t, (Tokened.start p {} false).stepAll? p {} es = some t ∧ t.reports 1 = false) ∧
      r.ending? = some .finished ∧ r.answer p {} = .ok (r.report p) := by
  have hsome : ((Plan.prepare (Manifest.build "Parcel" parcelEdits) delayRules .propagate
      (.object [])).toOption.any fun p =>
        let r := Run.complete p {} false none
        p.checks.all (fun check => check.logic.limit != .faulty &&
            (p.activityOf check).spares check.logic.limit.millis? 0) &&
          (p.check? 0).any (fun check => check.logic.limit == .millis 3 &&
            decide (3 < (p.activityOf check).span)) &&
          (p.check? 1).any (fun check => check.logic.limit == .millis 3 &&
            decide ((p.activityOf check).span ≤ 3) &&
            (Result.ofAnswer ((p.activityOf check).conclusion none 0)).isPassed) &&
          r.calls.any (fun c => c.index == 0 && c.millis == 0) &&
          r.calls.any (fun c => c.index == 1) &&
          r.ending? == some .finished && decide (1 < p.size)) = true := by decide +kernel
  obtain ⟨p, hp, htest⟩ := (Option.any_eq_true _ _).mp hsome
  simp only [Bool.and_eq_true, List.all_eq_true, List.any_eq_true, Option.any_eq_true,
    bne_iff_ne, beq_iff_eq, decide_eq_true_eq] at htest
  obtain ⟨⟨⟨⟨⟨⟨hall, weigh, hweigh, hlimit₀, hover⟩, stamp, hstamp, ⟨hlimit₁, hin⟩, hpassed⟩,
    c₀, hc₀, hi₀, hstart⟩, c₁, hc₁, hi₁⟩, hending⟩, hsize⟩ := htest
  have hprepare := Fallible.eq_ok_of_toOption hp
  have horderly := Plan.orderly_of_prepareTo hprepare
  obtain ⟨es, hrun, hes⟩ := Run.exists_clocked_uncalled p {}
  have hquiet := Plan.unprovoked_of_all hes hall
  obtain ⟨hlimits, ⟨t, ht, -, htimedOut⟩, -, hend, -⟩ :=
    timeout_local horderly {} hrun.stepAll? hquiet
  obtain ⟨-, hentries, hanswer⟩ := hend (by decide) (by rw [hending]; exact nofun)
  obtain ⟨e₀, he₀⟩ := Ledger.contains_iff.mp (hentries 0 (Nat.lt_of_succ_lt hsize))
  obtain ⟨e₁, he₁⟩ := Ledger.contains_iff.mp (hentries 1 hsize)
  have hcut := (hlimits c₀ hc₀ e₀ (hi₀ ▸ he₀) weigh 3 (hi₀ ▸ hweigh) hlimit₀).2 hover
  have hown := (hlimits c₁ hc₁ e₁ (hi₁ ▸ he₁) stamp 3 (hi₁ ▸ hstamp) hlimit₁).1 hin
  have hrecorded := hcut.2 hrun.exact
  rw [hi₀, hstart] at hrecorded
  have hquietToken : t.reports 1 = false := by
    refine Bool.eq_false_iff.mpr fun hreports => ?_
    obtain ⟨e, n, he, hresult⟩ := htimedOut 1 hreports
    obtain rfl := Option.some.inj (he₁.symm.trans he)
    rw [← hown, hresult] at hpassed
    cases hpassed
  refine ⟨p, es, _, hprepare, horderly, hrun.stepAll?, hquiet, ⟨e₀, he₀, hcut.1, hrecorded⟩,
    ⟨e₁, he₁, hown ▸ hpassed⟩, ⟨t, ht, hquietToken⟩, hending, ?_⟩
  rw [Run.answer, hending]
  rfl

end Vetting
