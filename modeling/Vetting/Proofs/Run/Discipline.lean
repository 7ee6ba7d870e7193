import Vetting.Proofs.Plan.Dependencies
import Vetting.Proofs.Run.Regular

/-!
# The discipline of waves

Rules are started under strict conditions (`Run.Admits`), in every run of every plan, whatever the
order of events, and also when the run is cancelled or rules break down: a check is started once at
most, all that it depends on has passed before, there are never more rules at work than permits,
serial rules work alone and in order, and a wave starts nothing before all earlier waves are done
(`wave_discipline`).

The waves of a run are read off its history: each begins with a survey (`Run.Begins`). That earlier
waves are done is an invariant of the history: a check of a wave that has begun has a result, or the
group in progress still has it ahead (`Run.Attends`), until the run is cancelled.
-/

namespace Vetting

namespace Run

variable {p : Plan} {settings : Settings} {r r₀ r₁ r' : Run} {e : Event} {es es' : List Event}
  {g g' : Group} {n i : Nat} {members : List Nat}

/-! ## The waves of a run -/

/-- In the course of `es`, wave `n` begins with the checks of `members`. -/
def Begins (p : Plan) (settings : Settings) (r₀ : Run) (es : List Event) (n : Nat)
    (members : List Nat) : Prop :=
  ∃ before after r g, es = before ++ .survey :: after ∧
    r₀.stepAll? p settings (before ++ [.survey]) = some r ∧ r.stage = .within g ∧ r.waves = n ∧
    g.ahead = members

theorem Begins.append (h : Begins p settings r₀ es n members) (es' : List Event) :
    Begins p settings r₀ (es ++ es') n members := by
  obtain ⟨before, after, r, g, rfl, hfacts⟩ := h
  exact ⟨before, after ++ es', r, g, by simp, hfacts⟩

/-! ## Every check of a wave is attended to -/

/-- Check `i` of wave `n` has a result, or the wave has not done with it, unless the run is
cancelled or over. -/
def Attends (r : Run) (n i : Nat) : Prop :=
  r.cancelled = true ∨ r.ledger.contains i = true ∨
    match r.stage with
    | .between => False
    | .within g => r.waves = n ∧ (r.broken = true ∨ i ∈ g.ahead)
    | .ended _ => True

theorem attends_within (hwithin : r.stage = .within g) (hwaves : r.waves = n)
    (h : r.broken = true ∨ i ∈ g.ahead) : r.Attends n i := by
  refine .inr (.inr ?_)
  rw [hwithin]
  exact ⟨hwaves, h⟩

theorem attends_over {ending : Ending} (hover : r.stage = .ended ending) : r.Attends n i := by
  refine .inr (.inr ?_)
  rw [hover]
  trivial

theorem Carried.attends {a : Application} {sleeps : Nat} (h : Carried settings r g a sleeps r')
    (hwaves : r.waves = n) (hi : r.broken = true ∨ i = a.index ∨ i ∈ g.ahead) :
    r'.Attends n i := by
  cases h with
  | ended =>
      rcases hi with hbroken | rfl | hi
      · exact attends_within rfl hwaves (.inl hbroken)
      · exact .inr (.inl (Ledger.contains_record_self _ _ _))
      · exact attends_within rfl hwaves (.inr hi)
  | @asleep _ _ s ha =>
      subst ha
      exact attends_within rfl hwaves (hi.imp_right Group.mem_ahead_sleep.mpr)

theorem Granted.attends {check : Check} {j : Nat} (h : Granted p settings r (g.call j) j check r')
    (hwaves : r.waves = n) (hi : r.broken = true ∨ i ∈ g.ahead) : r'.Attends n i := by
  cases h with
  | dropped _ hr => exact .inl hr
  | stopped | crashed => exact attends_over rfl
  | broke => exact attends_within rfl hwaves (.inl rfl)
  | launched _ hcarried =>
      refine hcarried.attends hwaves (hi.imp_right fun hi => ?_)
      by_cases hsame : i = j
      · exact .inl hsame
      · refine .inr (Group.mem_ahead.mpr ((Group.mem_ahead.mp hi).imp_left fun hwaiting => ?_))
        exact (List.mem_erase_of_ne hsame).mpr hwaiting

theorem Attends.step (h : r.Attends n i) (hr : r.Regular p settings)
    (hstep : Step p settings r e r') : r'.Attends n i := by
  rcases h with hcancelled | hdone | hstage
  · exact .inl (hstep.cancelled hcancelled)
  · exact .inr (.inl (hstep.below.contains hdone))
  cases hstep.effect with
  | pass => exact .inr (.inr hstage)
  | cancel => exact .inl rfl
  | survey hbetween =>
      rw [hbetween] at hstage
      cases hstage
  | grant hwithin _ _ _ hgranted =>
      rw [hwithin] at hstage
      exact hgranted.attends hstage.1 hstage.2
  | @wake g g' _ j s a _ _ hwithin hs ha _ hcarried =>
      rw [hwithin] at hstage
      obtain ⟨-, rfl, rfl⟩ := Group.take?_eq_some hs
      refine hcarried.attends hstage.1 (hstage.2.imp_right fun hi => ?_)
      by_cases hsame : i = s.index
      · exact .inl (hsame.trans ha.symm)
      · -- A sleeper of another check stays asleep.
        refine .inr (Group.mem_ahead.mpr ?_)
        rcases Group.mem_ahead.mp hi with hwaiting | ⟨s', hs', rfl⟩ | hserial
        · exact .inl hwaiting
        · exact .inr (.inl ⟨s', List.mem_filter.mpr ⟨hs', by simpa using hsame⟩, rfl⟩)
        · exact .inr (.inr hserial)
  | turn hwithin _ hwaiting hasleep hbroken =>
      rw [hwithin, hbroken] at hstage
      refine attends_within rfl hstage.1 (.inr ?_)
      simpa [Group.mem_ahead, hwaiting, hasleep] using hstage.2
  | done hwithin hphase hwaiting hasleep hbroken =>
      have hlast := (hr.tends hwithin).group.last hphase
      rw [hwithin, hbroken] at hstage
      simp [Group.mem_ahead, hwaiting, hasleep, hlast] at hstage
  | collapse => exact attends_over rfl

theorem Attends.stepAll (h : r.Attends n i) (hr : r.Regular p settings)
    (hsteps : r.stepAll? p settings es = some r') : r'.Attends n i := by
  refine (preserved_stepAll (P := fun r => r.Regular p settings ∧ r.Attends n i) ?_ ⟨hr, h⟩
    hsteps).2
  rintro r e r' ⟨hr, h⟩ hstep
  exact ⟨hr.step hstep, h.step hr hstep⟩

theorem Begins.attends (h : Begins p settings r₀ es n members) (hr₀ : r₀.Regular p settings)
    (hrun : r₀.stepAll? p settings es = some r) (hi : i ∈ members) : r.Attends n i := by
  obtain ⟨before, after, r₁, g, rfl, hbegun, hwithin, hwaves, rfl⟩ := h
  rw [List.append_cons, stepAll?_append_eq_some] at hrun
  obtain ⟨r₂, hbegun', hafter⟩ := hrun
  obtain rfl := Option.some.inj (hbegun.symm.trans hbegun')
  exact (attends_within hwithin hwaves (.inr hi)).stepAll (hr₀.stepAll hbegun) hafter

/-! ## What a wave works on are its members -/

theorem Carried.within {a : Application} {sleeps : Nat} (h : Carried settings r g a sleeps r')
    (hwithin : r'.stage = .within g') :
    r'.waves = r.waves ∧ ∀ i ∈ g'.ahead, i = a.index ∨ i ∈ g.ahead := by
  cases h with
  | ended =>
      cases hwithin
      exact ⟨rfl, fun i hi => .inr hi⟩
  | @asleep _ _ s ha =>
      cases hwithin
      subst ha
      exact ⟨rfl, fun i => Group.mem_ahead_sleep.mp⟩

/-- A wave that goes on takes up nothing new. -/
theorem Step.within (h : Step p settings r e r') (hwithin' : r'.stage = .within g') :
    e = .survey ∨
      ∃ g, r.stage = .within g ∧ r'.waves = r.waves ∧ ∀ i ∈ g'.ahead, i ∈ g.ahead := by
  cases h.effect with
  | pass | cancel => exact .inr ⟨g', hwithin', rfl, fun _ => id⟩
  | survey => exact .inl rfl
  | @grant g j check _ hwithin hturn _ _ hgranted =>
      have hj := Group.mem_ahead.mpr (.inl (Group.mem_waiting_of_mayCall hturn))
      have hsub : ∀ i ∈ (g.call j).ahead, i ∈ g.ahead := fun _ hi =>
        Group.ahead_call_sublist.subset hi
      refine .inr ⟨g, hwithin, ?_⟩
      cases hgranted with
      | dropped | broke => cases hwithin'; exact ⟨rfl, hsub⟩
      | stopped | crashed => cases hwithin'
      | launched _ hcarried =>
          obtain ⟨hwaves, hahead⟩ := hcarried.within hwithin'
          exact ⟨hwaves, fun i hi => (hahead i hi).elim (· ▸ hj) (hsub i)⟩
  | @wake g g₁ _ j s _ _ _ hwithin hs ha _ hcarried =>
      obtain ⟨hasleep, rfl, rfl⟩ := Group.take?_eq_some hs
      obtain ⟨hwaves, hahead⟩ := hcarried.within hwithin'
      refine .inr ⟨g, hwithin, hwaves, fun i hi => ?_⟩
      rcases hahead i hi with rfl | hi
      · exact Group.mem_ahead.mpr (.inr (.inl ⟨s, hasleep, ha.symm⟩))
      · exact Group.ahead_awake_sublist.subset hi
  | @turn g hwithin =>
      cases hwithin'
      refine .inr ⟨g, hwithin, rfl, fun i hi => Group.mem_ahead.mpr (.inr (.inr ?_))⟩
      simpa [Group.ahead] using hi
  | done | collapse => cases hwithin'

/-- The group in progress belongs to a wave that has begun. The induction is on the history from
its end, as that is where the run stands. -/
theorem exists_begins (p : Plan) (settings : Settings) (cancelled : Bool)
    (hrun : (start p settings cancelled).stepAll? p settings es = some r)
    (hwithin : r.stage = .within g) :
    ∃ members, Begins p settings (start p settings cancelled) es r.waves members ∧
      ∀ i ∈ g.ahead, i ∈ members := by
  induction es using List.reverseRecOn generalizing r g with
  | nil =>
      obtain rfl := Option.some.inj hrun
      exact absurd hwithin (start_stage_ne p settings cancelled g)
  | append_singleton es e ih =>
      obtain ⟨r₁, hbefore, hlast⟩ := stepAll?_append_eq_some.mp hrun
      have hstep := step?_eq_some.mp (stepAll?_singleton.symm.trans hlast)
      rcases hstep.within hwithin with rfl | ⟨g₁, hwithin₁, hwaves, hahead⟩
      · exact ⟨g.ahead, ⟨es, [], r, g, rfl, hrun, hwithin, rfl, rfl⟩, fun _ => id⟩
      · obtain ⟨members, hbegins, hmembers⟩ := ih hbefore hwithin₁
        exact ⟨members, hwaves ▸ hbegins.append [e], fun i hi => hmembers i (hahead i hi)⟩

/-! ## What may start, and when -/

/-- The checks whose rules are at work. -/
def inFlight (r : Run) : List Nat :=
  match r.stage with
  | .within g => g.asleep.map (·.index)
  | _ => []

/-- Call `c` is in order in a run that the events `es` have led to. -/
structure Admits (p : Plan) (settings : Settings) (r₀ : Run) (es : List Event) (r : Run)
    (c : Call) : Prop where
  /-- The check is satisfiable, and all that it depends on passed. -/
  cleared : p.Cleared r.ledger c.index
  /-- The rules that run beside others are those that are safe to, if the settings have it so. -/
  phase : c.phase = .concurrent ↔
    settings.concurrent = true ∧
      ∃ check, p.check? c.index = some check ∧ check.logic.parallelSafe = true
  permit : r.inFlight.length < settings.permits
  alone (h : c.phase = .serial) : r.inFlight = []
  ascending (h : c.phase = .serial) {c' : Call} (hc' : c' ∈ r.calls) (hwave : c'.wave = c.wave)
    (hphase : c'.phase = .serial) : c'.index < c.index
  member : ∃ members, Begins p settings r₀ es c.wave members ∧ c.index ∈ members
  /-- Earlier waves are done, and for a serial check the concurrent ones of its wave. -/
  barrier {n : Nat} {members : List Nat} (hbegins : Begins p settings r₀ es n members) {i : Nat}
    (hi : i ∈ members)
    (h : n < c.wave ∨ n = c.wave ∧ c.phase = .serial ∧ settings.concurrent = true ∧
      ∃ check, p.check? i = some check ∧ check.logic.parallelSafe = true) :
    r.ledger.contains i = true

theorem permits_le (settings : Settings) (phase : Phase) :
    Run.permits settings phase ≤ settings.permits := by
  cases phase with
  | concurrent => exact Nat.le_refl _
  | serial => exact Nat.le_max_left _ _

theorem Regular.length_inFlight (h : r.Regular p settings) :
    r.inFlight.length ≤ settings.permits := by
  unfold inFlight
  split
  · rename_i g hwithin
    rw [List.length_map]
    exact Nat.le_trans (h.tends hwithin).group.permits (permits_le settings g.phase)
  · exact Nat.zero_le _

/-- In a run that is not cancelled and about to start a serial check, the concurrent checks of the
wave have results. -/
theorem Attends.contains (h : r.Attends n i) (hr : r.Regular p settings)
    (hwithin : r.stage = .within g) (hcancelled : r.cancelled = false)
    (hbefore : n ≠ r.waves ∨
      g.phase = .serial ∧ g.asleep = [] ∧ p.phaseOf settings i = .concurrent) :
    r.ledger.contains i = true := by
  have ht := hr.tends hwithin
  rcases h with h | hdone | hstage
  · rw [hcancelled] at h
    cases h
  · exact hdone
  rw [hwithin] at hstage
  obtain ⟨hwaves, hahead⟩ := hstage
  rcases hbefore with hne | ⟨hserial, hasleep, hconcurrent⟩
  · exact absurd hwaves.symm hne
  -- What a serial group has ahead waits, and what waits there is serial.
  have hwaiting : i ∈ g.waiting := by
    simpa [ht.unbroken hserial, Group.mem_ahead, hasleep, ht.group.last hserial] using hahead
  have hphase := ht.group.waiting hwaiting
  rw [hconcurrent, hserial] at hphase
  cases hphase

theorem admits_callOf (cancelled : Bool)
    (hrun : (start p settings cancelled).stepAll? p settings es = some r)
    (hwithin : r.stage = .within g)
    (hturn : g.mayCall i = true) (hpermit : g.asleep.length < permits settings g.phase)
    (hr : r.cancelled = false) :
    Admits p settings (start p settings cancelled) es r (r.callOf (g.call i) i) := by
  have hstart := start_regular p settings cancelled
  have hregular := hstart.stepAll hrun
  have ht := hregular.tends hwithin
  have happlies := hregular.applies_grant hwithin hturn hpermit
  have hwaiting := Group.mem_waiting_of_mayCall hturn
  have hinFlight : r.inFlight = g.asleep.map (·.index) := by rw [inFlight, hwithin]
  have hasleep : g.phase = .serial → g.asleep = [] := fun hserial => by
    rw [hserial] at hpermit
    exact List.length_eq_zero_iff.mp (Nat.lt_one_iff.mp hpermit)
  refine ⟨happlies.admissible.cleared, ?_, ?_, fun hserial => ?_,
    fun hserial {c'} hc' hwave hphase => ?_, ?_, fun {_ _} hbegins {j} hj hbefore => ?_⟩
  · show g.phase = .concurrent ↔ _
    rw [← ht.group.waiting hwaiting]
    exact Plan.phaseOf_eq_concurrent
  · rw [hinFlight, List.length_map]
    exact Nat.lt_of_lt_of_le hpermit (permits_le settings g.phase)
  · rw [hinFlight, hasleep hserial]
    rfl
  · exact (ht.behind hc' hwave hphase).2 i hwaiting
  · obtain ⟨members, hbegins, hmembers⟩ := exists_begins p settings cancelled hrun hwithin
    exact ⟨members, hbegins, hmembers i (Group.mem_ahead.mpr (.inl hwaiting))⟩
  · refine (hbegins.attends hstart hrun hj).contains hregular hwithin hr ?_
    rcases hbefore with hlt | ⟨-, hserial, hconcurrent⟩
    · exact .inl (Nat.ne_of_lt hlt)
    · exact .inr ⟨hserial, hasleep hserial, Plan.phaseOf_eq_concurrent.mpr hconcurrent⟩

end Run

/-- **Rules are started wave by wave.** In every run of every plan, cancelled or not, no check is
started twice, no more rules are at work than there are permits, and an event starts at most one
rule, which the run admits. -/
theorem wave_discipline (p : Plan) (settings : Settings) (cancelled : Bool) {es : List Event}
    {r : Run} (hrun : (Run.start p settings cancelled).stepAll? p settings es = some r) :
    (r.calls.map (·.index)).Nodup ∧ r.inFlight.length ≤ settings.permits ∧
      ∀ e r', r.step? p settings e = some r' →
        r'.calls = r.calls ∨
          ∃ c, r'.calls = r.calls ++ [c] ∧
            Run.Admits p settings (Run.start p settings cancelled) es r c := by
  have hregular := (Run.start_regular p settings cancelled).stepAll hrun
  refine ⟨hregular.once, hregular.length_inFlight, fun e r' hstep => ?_⟩
  refine (Run.step?_eq_some.mp hstep).calls.imp_right ?_
  rintro ⟨g, i, hwithin, hturn, hpermit, hr, hcalls⟩
  exact ⟨_, hcalls, Run.admits_callOf cancelled hrun hwithin hturn hpermit hr⟩

/-- Rules for the locked folder: one sleeps and may run beside others, one is serial, and one
cancels the run. -/
def staggeredRules : RuleRegistry :=
  let sleeping : RuleFactory := fun _ =>
    .ok (StockRule.onTerms { parallelSafe := true } fun _ _ _ =>
      StockRule.assessDelay 5 false true)
  ((RuleRegistry.empty.register "sealed" sleeping).register "known"
    (StockRule.factory {} (.fixed (.ok .pass)))).register "owned"
      (StockRule.factory {} (.cancelRun false))

theorem wave_discipline_staggered :
    ∃ p r r' c,
      Plan.prepareTo (Manifest.build "Folder" lockedEdits) staggeredRules .skip 6 folder = .ok p ∧
      (Run.start p {} false).stepAll? p {} [.survey, .grant 2, .pass 5, .resume 2, .close, .close,
        .survey, .close] = some r ∧
      r.step? p {} (.grant 3) = some r' ∧ r'.calls = r.calls ++ [c] ∧
      (r.calls.map (·.index)).Nodup ∧ r.inFlight.length ≤ 16 ∧
      Run.Admits p {} (Run.start p {} false) [.survey, .grant 2, .pass 5, .resume 2, .close, .close,
        .survey, .close] r c := by
  have hsome : ((Plan.prepareTo (Manifest.build "Folder" lockedEdits) staggeredRules .skip 6
      folder).toOption.any fun p => ((Run.start p {} false).stepAll? p {} [.survey, .grant 2,
        .pass 5, .resume 2, .close, .close, .survey, .close]).any fun r =>
          (r.step? p {} (.grant 3)).any
            fun r' => r'.calls.length != r.calls.length) = true := by decide +kernel
  obtain ⟨p, hp, hsome⟩ := (Option.any_eq_true _ _).mp hsome
  obtain ⟨r, hrun, hsome⟩ := (Option.any_eq_true _ _).mp hsome
  obtain ⟨r', hstep, hnew⟩ := (Option.any_eq_true _ _).mp hsome
  obtain ⟨honce, hpermits, hsteps⟩ := wave_discipline p {} false hrun
  rcases hsteps _ _ hstep with hsame | ⟨c, hcalls, hadmits⟩
  · rw [hsame, bne_self_eq_false] at hnew
    cases hnew
  · exact ⟨p, r, r', c, Fallible.eq_ok_of_toOption hp, hrun, hstep, hcalls, honce, hpermits,
      hadmits⟩

end Vetting
