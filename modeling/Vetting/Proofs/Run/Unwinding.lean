import Vetting.Proofs.Run.Progress
import Vetting.Proofs.Run.Regular

/-!
# Cancelled runs come to an end, too

A run that is cancelled begins no other wave, so it ends once it has done with the wave in progress.
What that may take is `Run.unwinding`, which every event but the survey of a run that goes on brings
down (`Run.Regular.unwinding_lt`), whether the run is cancelled yet or not. It is never more than
what the run may take without a cancellation, so `Run.left`, which is the one or the other, bounds
the events of every run (`Run.Steady.countP_advances`). Every run that is not over can go on
(`Run.Regular.exists_advance`).
-/

namespace Vetting

/-! ## What a wave in progress may take -/

/-- The events that a check may still take within the wave. -/
def Group.burden (p : Plan) (g : Group) (i : Nat) : Nat := if i ∈ g.ahead then g.weight p i else 0

namespace Group

variable {g g' : Group} {p : Plan} {i j : Nat} {s : Sleeper}

theorem burden_of_not_mem (h : i ∉ g.ahead) : g.burden p i = 0 := if_neg h

theorem burden_of_mem (h : i ∈ g.ahead) : g.burden p i = g.weight p i := if_pos h

theorem burden_le_of_imp (hsub : j ∈ g'.ahead → j ∈ g.ahead)
    (hweight : g'.weight p j = g.weight p j) : g'.burden p j ≤ g.burden p j := by
  by_cases hj : j ∈ g'.ahead
  · rw [burden_of_mem hj, burden_of_mem (hsub hj), hweight]
  · rw [burden_of_not_mem hj]
    exact Nat.zero_le _

theorem burden_waiting (h : g.ahead.Nodup) (hi : i ∈ g.waiting) :
    g.burden p i = p.sleepsOf i + 1 := by
  rw [burden_of_mem (mem_ahead.mpr (.inl hi))]
  refine weight_of_awake (.inl hi) fun s hs heq => not_mem_ahead_call h hi (mem_ahead.mpr ?_)
  exact .inr (.inl ⟨s, hs, heq⟩)

theorem burden_call_le (h : j ≠ i) : (g.call i).burden p j ≤ g.burden p j :=
  burden_le_of_imp (fun hj => ahead_call_sublist.subset hj) (weight_call h)

theorem burden_awake_le (h : j ≠ i) :
    ({ g with asleep := g.asleep.filter (·.index != i) } : Group).burden p j ≤ g.burden p j :=
  burden_le_of_imp (fun hj => ahead_awake_sublist.subset hj) (weight_awake h)

theorem burden_taken (h : g.take? i = some (s, g')) : g.burden p i = s.activity.sleeps := by
  obtain ⟨hasleep, hi, -⟩ := take?_eq_some h
  rw [burden_of_mem (mem_ahead.mpr (.inr (.inl ⟨s, hasleep, hi⟩))), weight_taken h]

theorem burden_sleep_le (h : j ≠ s.index) :
    ({ g with asleep := g.asleep ++ [s] } : Group).burden p j ≤ g.burden p j := by
  exact burden_le_of_imp (fun hj => (mem_ahead_sleep.mp hj).resolve_left h) (weight_sleep h)

theorem burden_slept (h : s.index ∉ g.ahead) :
    ({ g with asleep := g.asleep ++ [s] } : Group).burden p s.index = s.activity.sleeps := by
  rw [burden_of_mem (mem_ahead_sleep.mpr (.inl rfl)), weight_slept h]

end Group

namespace Run

/-- The events that a check may still take within the wave in progress. -/
def burden (p : Plan) (r : Run) (i : Nat) : Nat :=
  match r.stage with
  | .within g => g.burden p i
  | _ => 0

/-- The events that a run may still take if it begins no other wave. -/
def unwinding (p : Plan) (r : Run) : Nat :=
  ∑ i ∈ Finset.range p.size, r.burden p i + r.stage.steps

variable {p : Plan} {hp : p.Orderly} {settings : Settings} {r r' : Run} {e : Event} {g g' : Group}
  {i : Nat}

theorem burden_within (hwithin : r.stage = .within g) (i : Nat) : r.burden p i = g.burden p i := by
  rw [burden, hwithin]

/-- The end of a run takes away what was left of it. -/
theorem unwinding_lt_of_over {ending : Ending} (hopen : r.ending? = none)
    (hover : r'.stage = .ended ending) : r'.unwinding p < r.unwinding p := by
  refine cost_lt_of_le (fun j => ?_) ?_
  · rw [burden, hover]
    exact Nat.zero_le _
  · rw [hover]
    cases hs : r.stage with
    | between => exact Nat.one_pos
    | within g => cases hphase : g.phase <;> simp [Stage.steps, hphase]
    | ended => simp [ending?, hs] at hopen

/-- Carrying a rule on costs no check more than before, and its own at most the sleeps ahead. -/
theorem Carried.burden {a : Application} {sleeps : Nat} (h : Carried settings r g a sleeps r')
    (hnew : a.index ∉ g.ahead) :
    r'.burden p a.index ≤ sleeps ∧ r'.stage.steps = (Stage.within g).steps ∧
      ∀ j, j ≠ a.index → r'.burden p j ≤ g.burden p j := by
  cases h with
  | ended =>
      refine ⟨?_, rfl, fun j _ => Nat.le_of_eq (burden_within rfl j)⟩
      rw [burden_within rfl, Group.burden_of_not_mem hnew]
      exact Nat.zero_le _
  | @asleep _ _ s ha hsleeps =>
      subst ha
      refine ⟨?_, rfl, fun j hj => ?_⟩
      · rw [burden_within rfl, Group.burden_slept hnew]
        exact hsleeps
      · rw [burden_within rfl]
        exact Group.burden_sleep_le hj

theorem Granted.unwinding_lt {check : Check} (h : Granted p settings r (g.call i) i check r')
    (hg : g.Regular p settings r.ledger) (hwithin : r.stage = .within g)
    (hturn : g.mayCall i = true) (hc : p.check? i = some check) :
    r'.unwinding p < r.unwinding p := by
  have hopen : r.ending? = none := by rw [ending?, hwithin]
  have hwaiting := Group.mem_waiting_of_mayCall hturn
  have hi := Group.mem_ahead.mpr (.inl hwaiting)
  have hnew := Group.not_mem_ahead_call hg.nodup hwaiting
  have hlt : i < p.size := (hg.admissible hi).cleared.lt_size
  have hcost : r.burden p i = p.sleepsOf i + 1 := by
    rw [burden_within hwithin, Group.burden_waiting hg.nodup hwaiting]
  have hrest : ∀ j, j ≠ i → (g.call i).burden p j ≤ r.burden p j := fun j hj => by
    rw [burden_within hwithin]
    exact Group.burden_call_le hj
  cases h with
  | dropped | broke =>
      refine cost_lt_of_lt hlt ?_ (fun j hj => ?_) (by rw [hwithin]; exact Nat.le_refl _)
      · rw [hcost, burden_within rfl, Group.burden_of_not_mem hnew]
        exact Nat.succ_pos _
      · rw [burden_within rfl]
        exact hrest j hj
  | stopped | crashed => exact unwinding_lt_of_over hopen rfl
  | launched _ hcarried =>
      obtain ⟨hself, hsteps, hother⟩ := hcarried.burden (p := p) hnew
      refine cost_lt_of_lt hlt ?_ (fun j hj => Nat.le_trans (hother j hj) (hrest j hj)) ?_
      · rw [hcost, Plan.sleepsOf, hc]
        exact Nat.lt_succ_of_le hself
      · rw [hsteps, hwithin]
        exact Nat.le_refl _

/-- Every event that comes from the run itself, but for the survey of a run that goes on, brings the
wave in progress closer to its end. -/
theorem Regular.unwinding_lt (h : r.Regular p settings) (hstep : Step p settings r e r')
    (hadvances : e.advances = true) (hsurvey : e = .survey → r.cancelled = true) :
    r'.unwinding p < r.unwinding p := by
  cases hstep.effect with
  | pass | cancel => cases hadvances
  | survey hbetween houtlook =>
      have hopen : r.ending? = none := by rw [ending?, hbetween]
      have hcancelled := hsurvey rfl
      cases houtlook with
      | finished | cancelled => exact unwinding_lt_of_over hopen rfl
      | settled hr | stalled _ hr | wave hr => rw [hcancelled] at hr; cases hr
  | grant hwithin hturn _ hc hgranted =>
      exact hgranted.unwinding_lt (h.tends hwithin).group hwithin hturn hc
  | @wake g g' _ i s a sleeps _ hwithin hs ha hsleeps hcarried =>
      have hg := (h.tends hwithin).group
      have htaken := Group.burden_taken (p := p) hs
      obtain ⟨hasleep, hi, rfl⟩ := Group.take?_eq_some hs
      subst ha
      have hmem := Group.mem_ahead.mpr (.inr (.inl ⟨s, hasleep, hi⟩))
      obtain ⟨hself, hsteps, hother⟩ := hcarried.burden (p := p)
        (Group.not_mem_ahead_awake hg.nodup hasleep hi)
      refine cost_lt_of_lt (hg.admissible hmem).cleared.lt_size ?_ (fun j hj => ?_) ?_
      · rw [burden_within hwithin, htaken]
        exact Nat.lt_of_le_of_lt hself hsleeps
      · rw [burden_within hwithin]
        exact Nat.le_trans (hother j hj) (Group.burden_awake_le hj)
      · rw [hsteps, hwithin]
        exact Nat.le_refl _
  | turn hwithin hphase hwaiting hasleep =>
      refine cost_lt_of_le (fun j => ?_) (by rw [hwithin]; simp [Stage.steps, hphase])
      rw [burden_within rfl, burden_within hwithin]
      refine Group.burden_le_of_imp (fun hj => ?_) ?_
      · simpa [Group.ahead, hwaiting, hasleep] using hj
      · simp [Group.weight, hwaiting, hasleep]
  | done hwithin hphase =>
      exact cost_lt_of_le (fun j => Nat.zero_le _) (by rw [hwithin]; simp [Stage.steps, hphase])
  | collapse hwithin =>
      exact unwinding_lt_of_over (by rw [ending?, hwithin]) rfl

/-- A cancellation never leaves more to do. -/
theorem Sound.unwinding_le_remaining (h : r.Sound p hp) : r.unwinding p ≤ r.remaining p := by
  refine Nat.add_le_add_right (Finset.sum_le_sum fun i _ => ?_) _
  cases hs : r.stage with
  | between | ended => rw [burden, hs]; exact Nat.zero_le _
  | within g =>
      rw [burden_within hs]
      by_cases hi : i ∈ g.ahead
      · rw [Group.burden_of_mem hi, weight_within hs ((h.group hs).due hi).1]
      · rw [Group.burden_of_not_mem hi]
        exact Nat.zero_le _

/-! ## What a run may take, cancelled or not -/

/-- What holds of a run of a plan in which no time limit is faulty. -/
structure Steady (r : Run) (p : Plan) (hp : p.Orderly) (settings : Settings) : Prop
    extends r.Regular p settings where
  sound (h : r.cancelled = false) : r.Sound p hp

theorem start_steady (hp : p.Orderly) (hpermits : settings.permits ≤ Settings.permitLimit)
    (cancelled : Bool) : (start p settings cancelled).Steady p hp settings :=
  ⟨start_regular p settings cancelled, fun _ => start_sound hp hpermits cancelled⟩

theorem Steady.step (h : r.Steady p hp settings)
    (hlimits : ∀ check ∈ p.checks, check.logic.limit ≠ .faulty)
    (hstep : Step p settings r e r') : r'.Steady p hp settings :=
  ⟨h.toRegular.step hstep, fun hr' =>
    (h.sound (not_cancelled_of_step hstep hr')).step hlimits hstep hr'⟩

theorem Steady.stepAll {es : List Event} (h : r.Steady p hp settings)
    (hlimits : ∀ check ∈ p.checks, check.logic.limit ≠ .faulty)
    (hsteps : r.stepAll? p settings es = some r') : r'.Steady p hp settings :=
  ⟨h.toRegular.stepAll hsteps, fun hr' =>
    (h.sound (not_cancelled_of_stepAll? hsteps hr')).stepAll hlimits hsteps hr'⟩

/-- The events that a run may still take. -/
def left (p : Plan) (r : Run) : Nat := if r.cancelled = true then r.unwinding p else r.remaining p

theorem left_of_cancelled (h : r.cancelled = true) : r.left p = r.unwinding p := if_pos h

theorem left_of_not_cancelled (h : r.cancelled = false) : r.left p = r.remaining p :=
  if_neg (by rw [h]; exact Bool.false_ne_true)

theorem Steady.unwinding_le_left (h : r.Steady p hp settings) : r.unwinding p ≤ r.left p := by
  cases hr : r.cancelled with
  | true => rw [left_of_cancelled hr]
  | false =>
      rw [left_of_not_cancelled hr]
      exact (h.sound hr).unwinding_le_remaining

theorem left_start_le (hp : p.Orderly) (hpermits : settings.permits ≤ Settings.permitLimit)
    (cancelled : Bool) : (start p settings cancelled).left p ≤ p.stepBound := by
  rw [← remaining_start p hpermits cancelled]
  cases cancelled with
  | false => exact Nat.le_of_eq (left_of_not_cancelled rfl)
  | true =>
      rw [left_of_cancelled rfl]
      exact (start_sound hp hpermits true).unwinding_le_remaining

/-- Every event that comes from the run itself brings it closer to its end. -/
theorem Steady.left_lt (h : r.Steady p hp settings)
    (hlimits : ∀ check ∈ p.checks, check.logic.limit ≠ .faulty)
    (hstep : Step p settings r e r') (hadvances : e.advances = true) :
    r'.left p < r.left p := by
  cases hr' : r'.cancelled with
  | false =>
      have hr := not_cancelled_of_step hstep hr'
      rw [left_of_not_cancelled hr, left_of_not_cancelled hr']
      exact (h.sound hr).remaining_lt hlimits hstep hr' hadvances
  | true =>
      -- What cancels the run is a rule, which a survey does not carry on.
      have hsurvey : e = .survey → r.cancelled = true := by
        rintro rfl
        cases hstep.effect with
        | survey _ houtlook => cases houtlook <;> exact hr'
        | wake _ _ _ _ _ he => rcases he with he | he <;> cases he
      rw [left_of_cancelled hr']
      exact Nat.lt_of_lt_of_le (h.unwinding_lt hstep hadvances hsurvey) h.unwinding_le_left

/-- No other event takes it farther from its end. -/
theorem Steady.left_add_le (h : r.Steady p hp settings)
    (hlimits : ∀ check ∈ p.checks, check.logic.limit ≠ .faulty)
    (hstep : Step p settings r e r') :
    r'.left p + (if e.advances then 1 else 0) ≤ r.left p := by
  cases hadvances : e.advances with
  | true => exact h.left_lt hlimits hstep hadvances
  | false =>
      cases hstep with
      | pass => exact Nat.le_refl _
      | cancel =>
          rw [left_of_cancelled rfl]
          exact h.unwinding_le_left
      | _ => cases hadvances

theorem Steady.countP_advances {es : List Event} (h : r.Steady p hp settings)
    (hlimits : ∀ check ∈ p.checks, check.logic.limit ≠ .faulty)
    (hsteps : r.stepAll? p settings es = some r') :
    es.countP Event.advances + r'.left p ≤ r.left p := by
  induction es generalizing r with
  | nil => rw [Option.some.inj hsteps, List.countP_nil, Nat.zero_add]
  | cons e es ih =>
      obtain ⟨between, hstep, hrest⟩ := Option.bind_eq_some_iff.mp hsteps
      have hstep := step?_eq_some.mp hstep
      have hfirst := h.left_add_le hlimits hstep
      have hlater := ih (h.step hlimits hstep) hrest
      rw [List.countP_cons]
      omega

/-- A run of a plan brings about a bounded number of events. -/
theorem countP_advances_le (hp : p.Orderly)
    (hlimits : ∀ check ∈ p.checks, check.logic.limit ≠ .faulty)
    (hpermits : settings.permits ≤ Settings.permitLimit) {cancelled : Bool} {es : List Event}
    (hrun : (start p settings cancelled).stepAll? p settings es = some r) :
    es.countP Event.advances ≤ p.stepBound := by
  have hcount := (start_steady hp hpermits cancelled).countP_advances hlimits hrun
  have hleft := left_start_le hp hpermits cancelled
  omega

theorem Regular.listed (h : r.Regular p settings) : r.Listed p := by
  intro g hwithin i hi
  obtain ⟨check, hc, -⟩ :=
    ((h.tends hwithin).group.admissible (Group.mem_ahead.mpr (.inl hi))).cleared
  exact ⟨check, hc⟩

/-- A run that is not over can go on. -/
theorem Regular.exists_advance (h : r.Regular p settings) (hopen : r.ending? = none) :
    ∃ e r', e.advances = true ∧ r.step? p settings e = some r' := by
  obtain ⟨e, r', hadvances, hstep⟩ := h.listed.exists_advance settings hopen
  exact ⟨e, r', hadvances, step?_eq_some.mpr hstep⟩

end Run

end Vetting
