import Vetting.Proofs.Run.Discipline
import Vetting.Proofs.Run.Outcome

/-!
# Every round of a run gains a result

A run goes in rounds, each of which begins with a survey and ends where the next survey may come. A
round that leaves no result behind would be repeated for ever; in a plan without cycles there is
none (`waves_progress`), so a run has at most one survey more than the plan has checks, and it
finishes with a result for each.

Surveys are paid for with results (`Run.Paid`): a survey that begins a wave owes one as long as the
wave has checks ahead, and a wave is closed only when it has none.
-/

namespace Vetting

namespace Run

variable {p : Plan} {hp : p.Orderly} {settings : Settings} {r r' : Run} {e : Event} {g : Group}
  {n : Nat}

/-- The results of a run pay for `n` surveys. Within a wave one may still be owed, and so may the
last one of a run that is over. -/
def Paid (r : Run) (n : Nat) : Prop :=
  match r.stage with
  | .between => n ≤ r.ledger.size
  | .within g => n ≤ r.ledger.size ∨ n ≤ r.ledger.size + 1 ∧ g.ahead ≠ []
  | .ended _ => n ≤ r.ledger.size + 1

theorem Paid.le (h : r.Paid n) : n ≤ r.ledger.size + 1 := by
  unfold Paid at h
  split at h <;> omega

theorem paid_zero (r : Run) : r.Paid 0 := by
  unfold Paid
  split
  · exact Nat.zero_le _
  · exact .inl (Nat.zero_le _)
  · exact Nat.zero_le _

theorem paid_within (hwithin : r.stage = .within g)
    (h : n ≤ r.ledger.size ∨ n ≤ r.ledger.size + 1 ∧ g.ahead ≠ []) : r.Paid n := by
  unfold Paid
  rw [hwithin]
  exact h

/-- A rule that is carried on gets a result, which pays, or is still ahead. -/
theorem Proceeds.paid {a : Application} {activity : Activity}
    (h : Proceeds p settings r g a activity r') (hopen : r.ledger.contains a.index = false)
    (hn : n ≤ r.ledger.size + 1) : r'.Paid n := by
  cases h with
  | @ended check hc =>
      refine paid_within rfl (.inl ?_)
      show n ≤ (r.ledger.record a.index _).size
      rw [Ledger.size_record hopen]
      exact hn
  | @asleep s =>
      refine paid_within rfl (.inr ⟨hn, ?_⟩)
      exact List.ne_nil_of_mem (Group.mem_ahead_sleep.mpr (.inl rfl))

theorem Surveys.paid (h : Surveys p r r') (hbetween : r.stage = .between) (hn : n ≤ r.ledger.size) :
    r'.Paid (n + 1) := by
  have hle := (Plan.settle_settles p r.pending r.ledger).size_le
  cases h with
  | finished => exact Nat.succ_le_succ hn
  | settled hsize =>
      unfold Paid
      rw [show (r.settled p).stage = .between from hbetween]
      exact Nat.lt_of_le_of_lt hn hsize
  | wave _ _ hahead hne =>
      refine paid_within rfl (.inr ⟨Nat.succ_le_succ (Nat.le_trans hn hle), fun hnil => hne ?_⟩)
      rw [hnil] at hahead
      exact hahead.symm.eq_nil

theorem close_paid (hg : g.Sound p hp r.ledger) (hwaiting : g.waiting = [])
    (hasleep : g.asleep = []) (h : n ≤ r.ledger.size ∨ n ≤ r.ledger.size + 1 ∧ g.ahead ≠ []) :
    (r.close g).Paid n := by
  unfold close
  cases hphase : g.phase with
  | concurrent =>
      refine paid_within rfl (h.imp_right fun hn => ⟨hn.1, ?_⟩)
      simpa [Group.ahead, hwaiting, hasleep] using hn.2
  | serial =>
      refine h.resolve_right fun hn => hn.2 ?_
      simp [Group.ahead, hwaiting, hasleep, hg.last hphase]

theorem Paid.step (h : r.Paid n) (hr : r.Sound p hp)
    (hlimits : ∀ check ∈ p.checks, check.logic.limit ≠ .faulty)
    (hstep : Step p settings r e r') (hr' : r'.cancelled = false) :
    r'.Paid (n + if e == .survey then 1 else 0) := by
  have hopen := not_cancelled_of_step hstep hr'
  have hn := h.le
  cases hstep with
  | pass => exact h
  | cancel => cases hr'
  | survey hbetween =>
      unfold Paid at h
      rw [hbetween] at h
      exact (survey_surveys hr hbetween hopen).paid hbetween h
  | grant hwithin hturn _ hc =>
      have hlimit := hlimits _ (List.mem_of_getElem? hc)
      obtain ⟨hdue, -, hproceeds⟩ := hr.grant_proceeds hlimit hwithin hturn hc hopen hr'
      exact hproceeds.paid hdue.1 hn
  | resume hwithin hs =>
      obtain ⟨a, activity, rfl, -, hdue, -, -, hproceeds⟩ :=
        hr.resume_proceeds hwithin hs hopen hr'
      exact hproceeds.paid hdue.1 hn
  | interrupt _ _ hcancelled => rw [hopen] at hcancelled; cases hcancelled
  | close hwithin hwaiting hasleep =>
      unfold Paid at h
      rw [hwithin] at h
      exact close_paid (hr.group hwithin) hwaiting hasleep h
  | collapse _ hbroken => rw [hr.unbroken] at hbroken; cases hbroken

theorem Paid.stepAll {es : List Event} (h : r.Paid n) (hr : r.Sound p hp)
    (hlimits : ∀ check ∈ p.checks, check.logic.limit ≠ .faulty)
    (hsteps : r.stepAll? p settings es = some r') (hr' : r'.cancelled = false) :
    r'.Paid (es.count .survey + n) := by
  induction es generalizing r n with
  | nil => exact Option.some.inj hsteps ▸ (Nat.zero_add n).symm ▸ h
  | cons e es ih =>
      obtain ⟨between, hstep, hrest⟩ := Option.bind_eq_some_iff.mp hsteps
      have hbetween := not_cancelled_of_stepAll? hrest hr'
      have hstep := step?_eq_some.mp hstep
      have hpaid := ih (h.step hr hlimits hstep hbetween) (hr.step hlimits hstep hbetween) hrest
      rwa [List.count_cons, Nat.add_assoc, Nat.add_comm _ n]

/-- From one moment between waves to another there are no more surveys than new results. -/
theorem Sound.count_survey_le {es : List Event} (h : r.Sound p hp)
    (hlimits : ∀ check ∈ p.checks, check.logic.limit ≠ .faulty) (hbetween : r.stage = .between)
    (hsteps : r.stepAll? p settings es = some r') (hr' : r'.cancelled = false)
    (hbetween' : r'.stage = .between) : es.count .survey + r.ledger.size ≤ r'.ledger.size := by
  have hpaid : r.Paid r.ledger.size := by
    unfold Paid
    rw [hbetween]
  have hpaid' := hpaid.stepAll h hlimits hsteps hr'
  unfold Paid at hpaid'
  rwa [hbetween'] at hpaid'

end Run

/-- **Every round of a run gains a result.** Take a plan whose dependencies are checks of the plan
and pass the test for cycles, and in which no rule crashes when it is asked for its time limit, any
settings with no more permits than there can be, any order of events, and a run that is not
cancelled. It makes at most one survey more than there are checks, brings about a bounded number of
events, and can go on until it is over; then it has finished with a result for every check. From one
moment between waves to a later one there are at least as many new results as surveys. The run
against the clock finishes. -/
theorem waves_progress (p : Plan)
    (hdeps : ∀ check ∈ p.checks, ∀ j ∈ check.dependencies, j < p.size)
    (hacyclic : Check.acyclic p.checks = .ok ())
    (hlimits : ∀ check ∈ p.checks, check.logic.limit ≠ .faulty) {settings : Settings}
    (hpermits : settings.permits ≤ Settings.permitLimit) :
    (∀ es r, (Run.start p settings false).stepAll? p settings es = some r → r.cancelled = false →
      es.count .survey ≤ p.size + 1 ∧ es.countP Event.advances ≤ p.stepBound ∧
        (r.ending? = none → ∃ e r', e.advances = true ∧ r.step? p settings e = some r') ∧
        (r.ending? ≠ none →
          r.ending? = some .finished ∧ ∀ i < p.size, r.ledger.contains i = true) ∧
        (r.stage = .between → ∀ es' r', r.stepAll? p settings es' = some r' →
          r'.cancelled = false → r'.stage = .between →
            es'.count .survey + r.ledger.size ≤ r'.ledger.size)) ∧
      ((Run.complete p settings false none).cancelled = false →
        (Run.complete p settings false none).ending? = some .finished) := by
  have hp := Plan.orderly_of_acyclic hdeps hacyclic
  have hstart := Run.start_sound hp hpermits false
  refine ⟨fun es r hrun hcancelled => ?_, fun hcancelled => ?_⟩
  · have hregular := (Run.start_regular p settings false).stepAll hrun
    have hsound := hstart.stepAll hlimits hrun hcancelled
    refine ⟨?_, Run.countP_advances_le hp hlimits hpermits hrun, hregular.exists_advance,
      hsound.finished, fun hbetween es' r' hrest hr' hbetween' => ?_⟩
    · have hle := ((Run.paid_zero _).stepAll hstart hlimits hrun hcancelled).le
      have hsize := hregular.size_le
      omega
    · exact hsound.count_survey_le hlimits hbetween hrest hr' hbetween'
  · obtain ⟨es, hrun⟩ := Run.exists_events_complete p settings false none
    exact ((hstart.stepAll hlimits hrun hcancelled).finished
      (Run.over_complete hp hlimits hpermits false none)).1

theorem waves_progress_locked :
    ∃ p r,
      Plan.prepareTo (Manifest.build "Folder" lockedEdits) lockedRules .skip 6 folder = .ok p ∧
      (∀ check ∈ p.checks, ∀ j ∈ check.dependencies, j < p.size) ∧
      Check.acyclic p.checks = .ok () ∧ (∀ check ∈ p.checks, check.logic.limit ≠ .faulty) ∧
      Settings.permits {} ≤ Settings.permitLimit ∧
      (Run.start p {} false).stepAll? p {} [.survey, .grant 2, .close, .close] = some r ∧
      1 ≤ r.ledger.size ∧ (Run.complete p {} false none).cancelled = false ∧
      (Run.complete p {} false none).ending? = some .finished := by
  have hsome : ((Plan.prepareTo (Manifest.build "Folder" lockedEdits) lockedRules .skip 6
      folder).toOption.any fun p =>
        p.checks.all (fun check => check.dependencies.all fun j => decide (j < p.size)) &&
        (Check.acyclic p.checks).toOption.isSome && p.checks.all (·.logic.limit != .faulty) &&
        !(Run.complete p {} false none).cancelled &&
        ((Run.start p {} false).stepAll? p {} [.survey, .grant 2, .close, .close]).any fun r =>
          !r.cancelled && match r.stage with | .between => true | _ => false) = true := by
    decide +kernel
  obtain ⟨p, hp, htest⟩ := (Option.any_eq_true _ _).mp hsome
  simp only [Bool.and_eq_true, List.all_eq_true, bne_iff_ne, Bool.not_eq_true', Option.any_eq_true,
    decide_eq_true_eq] at htest
  obtain ⟨⟨⟨⟨hdeps, hacyclic⟩, hlimits⟩, hcancelled⟩, r, hrun, hr, hbetween⟩ := htest
  obtain ⟨⟨⟩, hok⟩ := Option.isSome_iff_exists.mp hacyclic
  have hacyclic := Fallible.eq_ok_of_toOption hok
  have hstage : r.stage = .between := by
    split at hbetween
    · assumption
    · cases hbetween
  have hpermits : Settings.permits {} ≤ Settings.permitLimit := by decide
  obtain ⟨hruns, hcomplete⟩ := waves_progress p hdeps hacyclic hlimits hpermits
  obtain ⟨-, -, -, -, hrounds⟩ := hruns [] _ rfl rfl
  exact ⟨p, r, Fallible.eq_ok_of_toOption hp, hdeps, hacyclic, hlimits, hpermits, hrun,
    hrounds (Run.start_stage hpermits) _ _ hrun hr hstage, hcancelled, hcomplete hcancelled⟩

/-- With too many permits a run of a plan without cycles ends before its first round, though nothing
cancels it. -/
theorem not_all_acyclic_runs_finish :
    ∃ p, let r := Run.complete p overfull false none
      Plan.prepare (Manifest.build "Folder" pairEdits) lockedRules .propagate (.object []) =
        .ok p ∧
      (∀ check ∈ p.checks, ∀ j ∈ check.dependencies, j < p.size) ∧
      Check.acyclic p.checks = .ok () ∧ (∀ check ∈ p.checks, check.logic.limit ≠ .faulty) ∧
      r.cancelled = false ∧ r.ending? ≠ some .finished ∧ p.size = 2 ∧ r.ledger.size = 0 := by
  obtain ⟨p, hprepare, hsize, hdeps, hacyclic, hlimits⟩ := exists_pair
  obtain ⟨es, hrun⟩ := Run.exists_events_complete p overfull false none
  obtain ⟨hr, hending, -, -, hnone⟩ := Run.broken_off (by decide) hrun
  refine ⟨p, hprepare, hdeps, hacyclic, hlimits, hr, ?_, hsize, hnone⟩
  rw [hending]
  exact nofun

end Vetting
