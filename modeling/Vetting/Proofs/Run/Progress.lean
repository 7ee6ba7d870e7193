import Mathlib.Algebra.Order.BigOperators.Group.Finset
import Vetting.Proofs.Run.Waves
import Vetting.Run.Clock

/-!
# Runs come to an end

A run that is not over can always be advanced (`Run.Listed.exists_advance`), and each event other
than the passing of time brings it closer to its end (`Run.Sound.remaining_lt`). What is left to do
is counted check by check (`Run.weight`): a check that no wave has taken up yet may still cost the
survey and the ends of the two groups of its wave, besides its permit and its sleeps.
-/

namespace Vetting

/-- Whether an event comes from the run itself. -/
def Event.advances : Event → Bool
  | .pass _ | .cancel => false
  | _ => true

namespace Run

variable {p : Plan} {hp : p.Orderly} {settings : Settings} {r r' : Run} {e : Event}

/-! ## Some event is possible -/

theorem permits_pos (settings : Settings) (phase : Phase) : 0 < permits settings phase := by
  cases phase
  · exact Nat.lt_of_lt_of_le Nat.one_pos (Nat.le_max_left _ _)
  · exact Nat.one_pos

/-- Every check that waits is one of the plan. -/
def Listed (r : Run) (p : Plan) : Prop :=
  ∀ g, r.stage = .within g → ∀ i ∈ g.waiting, ∃ check, p.check? i = some check

theorem Listed.exists_advance (h : r.Listed p) (settings : Settings) (hopen : r.ending? = none) :
    ∃ e r', e.advances = true ∧ Step p settings r e r' := by
  cases hs : r.stage with
  | ended ending =>
      rw [ending?, hs] at hopen
      cases hopen
  | between => exact ⟨.survey, _, rfl, .survey hs⟩
  | within g =>
      cases hasleep : g.asleep with
      | cons s rest =>
          have htake : g.take? s.index = some (s, { g with
              asleep := g.asleep.filter (·.index != s.index) }) := by
            simp [Group.take?, hasleep]
          exact ⟨.resume s.index, _, rfl, .resume hs htake⟩
      | nil =>
          cases hwaiting : g.waiting with
          | cons i rest =>
              have hturn := Group.mayCall_of_head? (g := g) (i := i) (by rw [hwaiting]; rfl)
              obtain ⟨check, hc⟩ := h g hs i (Group.mem_waiting_of_mayCall hturn)
              have hpermit : g.asleep.length < permits settings g.phase := by
                rw [hasleep]
                exact permits_pos settings g.phase
              exact ⟨.grant i, _, rfl, .grant hs hturn hpermit hc⟩
          | nil =>
              cases hbroken : r.broken with
              | true => exact ⟨.collapse, _, rfl, .collapse hs hbroken⟩
              | false => exact ⟨.close, _, rfl, .close hs hwaiting hasleep hbroken⟩

end Run

/-! ## What is left to do -/

/-- The greatest number of sleeps of a check. -/
def Plan.sleepsOf (p : Plan) (i : Nat) : Nat :=
  ((p.check? i).map fun check => (p.activityOf check).sleeps).getD 0

/-- The events that a check may still take, of a wave that has begun. -/
def Group.weight (p : Plan) (g : Group) (i : Nat) : Nat :=
  match g.asleep.find? (·.index == i) with
  | some s => s.activity.sleeps
  | none => p.sleepsOf i + if i ∈ g.waiting ∨ i ∈ g.serial then 1 else 4

/-- The events until the next wave, besides those of its checks. -/
def Stage.steps : Stage → Nat
  | .between => 1
  | .within g => match g.phase with
    | .concurrent => 3
    | .serial => 2
  | .ended _ => 0

namespace Run

/-- The events that a check may still take. -/
def weight (p : Plan) (r : Run) (i : Nat) : Nat :=
  if r.ledger.contains i then 0
  else match r.stage with
    | .within g => g.weight p i
    | _ => p.sleepsOf i + 4

/-- The events that a run may still take. -/
def remaining (p : Plan) (r : Run) : Nat :=
  ∑ i ∈ Finset.range p.size, r.weight p i + r.stage.steps

end Run

namespace Group

variable {p : Plan} {g : Group} {i j : Nat} {s : Sleeper}

theorem weight_call (h : j ≠ i) : (g.call i).weight p j = g.weight p j := by
  unfold weight call
  simp only [List.mem_erase_of_ne h]

theorem weight_awake (h : j ≠ i) :
    ({ g with asleep := g.asleep.filter (·.index != i) } : Group).weight p j = g.weight p j := by
  unfold weight
  rw [List.find?_filter]
  have htest : (fun s : Sleeper => decide ((s.index != i) = true ∧ (s.index == j) = true)) =
      (·.index == j) := by
    funext s
    by_cases hs : s.index = j
    · simp [hs, h]
    · simp [hs]
  rw [htest]

theorem weight_sleep (h : j ≠ s.index) :
    ({ g with asleep := g.asleep ++ [s] } : Group).weight p j = g.weight p j := by
  have htest : [s].find? (·.index == j) = none := by
    simp [h.symm]
  unfold weight
  rw [List.find?_append, htest, Option.or_none]

theorem weight_slept (h : s.index ∉ g.ahead) :
    ({ g with asleep := g.asleep ++ [s] } : Group).weight p s.index = s.activity.sleeps := by
  have hnone : g.asleep.find? (·.index == s.index) = none := by
    refine List.find?_eq_none.mpr fun s' hs' heq => h ?_
    exact mem_ahead.mpr (.inr (.inl ⟨s', hs', by simpa using heq⟩))
  unfold weight
  simp [List.find?_append, hnone]

theorem weight_taken {g' : Group} (h : g.take? i = some (s, g')) :
    g.weight p i = s.activity.sleeps := by
  obtain ⟨s', hs, heq⟩ := Option.map_eq_some_iff.mp h
  obtain ⟨rfl, -⟩ := Prod.mk.inj heq
  unfold weight
  rw [hs]

/-- A check of a group that does not sleep costs its permit and its sleeps. -/
theorem weight_of_awake (hi : i ∈ g.waiting ∨ i ∈ g.serial) (h : ∀ s ∈ g.asleep, s.index ≠ i) :
    g.weight p i = p.sleepsOf i + 1 := by
  have hnone : g.asleep.find? (·.index == i) = none :=
    List.find?_eq_none.mpr fun s hs heq => h s hs (by simpa using heq)
  unfold weight
  rw [hnone]
  exact congrArg _ (if_pos hi)

end Group

namespace Run

variable {p : Plan} {hp : p.Orderly} {settings : Settings} {r r' : Run} {e : Event} {g : Group}
  {i j : Nat}

theorem weight_of_contains (h : r.ledger.contains i = true) : r.weight p i = 0 := if_pos h

theorem weight_within (hs : r.stage = .within g) (h : r.ledger.contains i = false) :
    r.weight p i = g.weight p i := by
  unfold weight
  rw [hs, h]
  exact if_neg Bool.false_ne_true

theorem weight_between (hs : r.stage = .between) (h : r.ledger.contains i = false) :
    r.weight p i = p.sleepsOf i + 4 := by
  unfold weight
  rw [hs, h]
  exact if_neg Bool.false_ne_true

/-- A sum of costs gets smaller when one check costs less, and nothing costs more. -/
theorem cost_lt_of_lt {n a b : Nat} {f f' : Nat → Nat} (hi : i < n) (hlt : f' i < f i)
    (hle : ∀ j, j ≠ i → f' j ≤ f j) (hab : a ≤ b) :
    ∑ j ∈ Finset.range n, f' j + a < ∑ j ∈ Finset.range n, f j + b := by
  refine Nat.add_lt_add_of_lt_of_le (Finset.sum_lt_sum (fun j _ => ?_) ?_) hab
  · by_cases hj : j = i
    · exact hj ▸ Nat.le_of_lt hlt
    · exact hle j hj
  · exact ⟨i, Finset.mem_range.mpr hi, hlt⟩

/-- So it does when no check costs more, and what comes besides gets less. -/
theorem cost_lt_of_le {n a b : Nat} {f f' : Nat → Nat} (hle : ∀ j, f' j ≤ f j) (hab : a < b) :
    ∑ j ∈ Finset.range n, f' j + a < ∑ j ∈ Finset.range n, f j + b :=
  Nat.add_lt_add_of_le_of_lt (Finset.sum_le_sum fun j _ => hle j) hab

/-- Carrying a rule on changes the cost of its own check only, to at most the sleeps of what was
left of it. -/
theorem Proceeds.weight {a : Application} {activity : Activity}
    (h : Proceeds p settings r g a activity r') (hnew : a.index ∉ g.ahead)
    (hopen : r.ledger.contains a.index = false) :
    r'.weight p a.index ≤ activity.sleeps ∧ r'.stage.steps = (Stage.within g).steps ∧
      ∀ j, j ≠ a.index → r'.weight p j = ({ r with stage := .within g } : Run).weight p j := by
  cases h with
  | @ended check hc =>
      refine ⟨?_, rfl, fun j hj => ?_⟩
      · rw [weight_of_contains]
        · exact Nat.zero_le _
        · exact (Ledger.contains_record hopen _ _).trans (by simp)
      · have hsame : (r.finish settings g.phase a (p.answerOf check)).ledger.contains j =
            r.ledger.contains j := by
          refine (Ledger.contains_record hopen _ _).trans ?_
          rw [decide_eq_false hj, Bool.false_or]
        simp only [Run.weight, hsame]
  | @asleep s ha hs hsleeps =>
      subst ha
      refine ⟨?_, rfl, fun j hj => ?_⟩
      · have hweight := weight_within (p := p)
          (r := { r with stage := .within { g with asleep := g.asleep ++ [s] } }) rfl hopen
        rw [hweight, Group.weight_slept hnew]
        exact hsleeps
      · have hweight := Group.weight_sleep (p := p) (g := g) hj
        simp only [Run.weight, hweight]

theorem lt_size_of_due {l : Ledger} (h : p.Due hp l i) : i < p.size := by
  obtain ⟨check, hc, -⟩ := h.2
  exact (List.getElem?_eq_some_iff.mp hc).1

/-- The weight of a check of a wave that has just begun, and before. -/
theorem weight_wave_le (hstage : r.stage = .between) (hsettles : r.ledger.Below r'.ledger)
    (hs : r'.stage = .within g) (hasleep : g.asleep = []) :
    r'.weight p i ≤ r.weight p i ∧ (i ∈ g.ahead → r'.ledger.contains i = false →
      r'.weight p i + 3 = r.weight p i) := by
  cases hc : r'.ledger.contains i with
  | true => exact ⟨by rw [weight_of_contains hc]; exact Nat.zero_le _, fun _ h => by cases h⟩
  | false =>
      rw [weight_within hs hc, weight_between hstage (hsettles.contains_eq_false hc)]
      have hnone : g.asleep.find? (·.index == i) = none := by simp [hasleep]
      refine ⟨?_, fun hi _ => ?_⟩
      · unfold Group.weight
        rw [hnone]
        dsimp only
        split <;> omega
      · have hi' : i ∈ g.waiting ∨ i ∈ g.serial := by
          simpa [hasleep] using Group.mem_ahead.mp hi
        rw [Group.weight_of_awake hi' (by simp [hasleep])]

theorem Surveys.remaining_lt (h : Surveys p r r') (hr : r.Sound p hp)
    (hstage : r.stage = .between) : r'.remaining p < r.remaining p := by
  have hsettles := Plan.settle_settles p r.pending r.ledger
  have hsteps : r.stage.steps = 1 := by rw [hstage]; rfl
  cases h with
  | finished =>
      refine cost_lt_of_le (fun j => ?_) (by rw [hsteps]; exact Nat.one_pos)
      unfold weight
      rw [hstage]
  | settled hsize =>
      obtain ⟨i, hopen, hi⟩ := hsettles.exists_new (Nat.ne_of_gt hsize)
      have hlt := hr.lt_size (hsettles.of_pending hopen hi)
      refine cost_lt_of_lt hlt ?_ (fun j _ => ?_) (Nat.le_refl _)
      · rw [weight_of_contains (r := r.settled p) hi, weight_between hstage hopen]
        omega
      · cases hj : (r.settled p).ledger.contains j with
        | true => rw [weight_of_contains hj]; exact Nat.zero_le _
        | false =>
            rw [weight_between (r := r.settled p) hstage hj,
              weight_between hstage (hsettles.below.contains_eq_false hj)]
  | @wave g hphase hasleep hahead hne =>
      obtain ⟨i, hi⟩ := List.exists_mem_of_ne_nil _ hne
      have hpending := List.mem_of_mem_filter hi
      have hopen := open_of_settled hpending
      have hlt := (settled_kept hr.toKept).lt_size hpending
      let begun : Run := { r.settled p with waves := r.waves + 1, stage := .within g }
      have hweight : ∀ j, begun.weight p j ≤ r.weight p j ∧ (j ∈ g.ahead →
          begun.ledger.contains j = false → begun.weight p j + 3 = r.weight p j) :=
        fun j => weight_wave_le hstage hsettles.below rfl hasleep
      have hself := (hweight i).2 (hahead.mem_iff.mpr hi) hopen
      have hsum := Finset.add_sum_erase (Finset.range p.size) (fun j => begun.weight p j)
        (Finset.mem_range.mpr hlt)
      have hsum' := Finset.add_sum_erase (Finset.range p.size) (fun j => r.weight p j)
        (Finset.mem_range.mpr hlt)
      have hrest := Finset.sum_le_sum (s := (Finset.range p.size).erase i)
        fun j _ => (hweight j).1
      have hsteps' : (Stage.within g).steps = 3 := by simp [Stage.steps, hphase]
      show begun.remaining p < r.remaining p
      unfold remaining
      rw [← hsum, ← hsum', hsteps, show begun.stage.steps = 3 from hsteps']
      omega

theorem close_remaining_lt (hwithin : r.stage = .within g) (hg : g.Sound p hp r.ledger)
    (hwaiting : g.waiting = []) (hasleep : g.asleep = []) :
    (r.close g).remaining p < r.remaining p := by
  have hweight : ∀ j, g.weight p j = p.sleepsOf j + if j ∈ g.serial then 1 else 4 := by
    intro j
    unfold Group.weight
    simp [hwaiting, hasleep]
  unfold close
  cases hphase : g.phase with
  | concurrent =>
      refine cost_lt_of_le (fun j => ?_) (by rw [hwithin]; simp [Stage.steps, hphase])
      cases hc : r.ledger.contains j with
      | true =>
          rw [weight_of_contains hc]
          exact Nat.le_of_eq (if_pos hc)
      | false =>
          rw [weight_within hwithin hc, hweight]
          have hserial := weight_within (p := p) (i := j)
            (r := { r with stage := .within { phase := .serial, waiting := g.serial } }) rfl hc
          refine Nat.le_of_eq (hserial.trans ?_)
          simp [Group.weight]
  | serial =>
      refine cost_lt_of_le (fun j => ?_) (by rw [hwithin]; simp [Stage.steps, hphase])
      cases hc : r.ledger.contains j with
      | true =>
          rw [weight_of_contains hc]
          exact Nat.le_of_eq (if_pos hc)
      | false =>
          rw [weight_within hwithin hc, hweight, hg.last hphase]
          exact Nat.le_of_eq (weight_between rfl hc)

/-- Every event that comes from the run itself brings it closer to its end. -/
theorem Sound.remaining_lt (h : r.Sound p hp)
    (hlimits : ∀ check ∈ p.checks, check.logic.limit ≠ .faulty)
    (hstep : Step p settings r e r') (hr' : r'.cancelled = false) (hadvances : e.advances = true) :
    r'.remaining p < r.remaining p := by
  have hr := not_cancelled_of_step hstep hr'
  cases hstep with
  | pass | cancel => cases hadvances
  | survey hbetween => exact (survey_surveys h hbetween hr).remaining_lt h hbetween
  | @grant g i check hwithin hturn hpermit hc =>
      have hwaiting := Group.mem_waiting_of_mayCall hturn
      have hlimit := hlimits check (List.mem_of_getElem? hc)
      obtain ⟨hdue, hnew, hproceeds⟩ := h.grant_proceeds hlimit hwithin hturn hc hr hr'
      obtain ⟨hself, hsteps, hother⟩ := hproceeds.weight hnew hdue.1
      refine cost_lt_of_lt (lt_size_of_due hdue) ?_ (fun j hj => ?_) ?_
      · have hasleep : ∀ s ∈ g.asleep, s.index ≠ i := fun s hs heq =>
          hnew (Group.mem_ahead.mpr (.inr (.inl ⟨s, hs, heq⟩)))
        rw [weight_within hwithin hdue.1, Group.weight_of_awake (.inl hwaiting) hasleep,
          Plan.sleepsOf, hc]
        exact Nat.lt_succ_of_le hself
      · rw [hother j hj]
        unfold Run.weight
        simp only [hwithin, Group.weight_call hj, Nat.le_refl]
      · rw [hsteps, hwithin]
        exact Nat.le_refl _
  | @resume g g' i s hwithin hs =>
      have htaken := Group.weight_taken (p := p) hs
      obtain ⟨a, activity, rfl, hsleeps, hdue, hnew, -, hproceeds⟩ :=
        h.resume_proceeds hwithin hs hr hr'
      obtain ⟨-, -, rfl⟩ := Group.take?_eq_some hs
      obtain ⟨hself, hsteps, hother⟩ := hproceeds.weight hnew hdue.1
      refine cost_lt_of_lt (lt_size_of_due hdue) ?_ (fun j hj => ?_) ?_
      · rw [weight_within hwithin hdue.1, htaken]
        exact Nat.lt_of_le_of_lt hself hsleeps
      · rw [hother j hj]
        unfold Run.weight
        simp only [hwithin, Group.weight_awake hj, Nat.le_refl]
      · rw [hsteps, hwithin]
        exact Nat.le_refl _
  | interrupt _ _ hcancelled => rw [hr] at hcancelled; cases hcancelled
  | close hwithin hwaiting hasleep =>
      exact close_remaining_lt hwithin (h.group hwithin) hwaiting hasleep
  | collapse _ hbroken => rw [h.unbroken] at hbroken; cases hbroken

end Run

theorem sum_sleepsOf (p : Plan) :
    ∑ i ∈ Finset.range p.size, p.sleepsOf i = Activity.sleepsAll (p.checks.map p.activityOf) := by
  have hlist : ∀ checks : List Check, ∑ i ∈ Finset.range checks.length,
      ((checks[i]?.map fun check => (p.activityOf check).sleeps).getD 0) =
        Activity.sleepsAll (checks.map p.activityOf) := by
    intro checks
    induction checks with
    | nil => rfl
    | cons check checks ih =>
        rw [List.length_cons, Finset.sum_range_succ', List.map_cons, Activity.sleepsAll, ← ih,
          Nat.add_comm]
        rfl
  exact hlist p.checks

/-- A bound on the events that a run brings about, the passing of time not counted. -/
def Plan.stepBound (p : Plan) : Nat :=
  Activity.sleepsAll (p.checks.map p.activityOf) + 4 * p.size + 1

theorem Run.remaining_start (p : Plan) {settings : Settings}
    (hpermits : settings.permits ≤ Settings.permitLimit) (cancelled : Bool) :
    (Run.start p settings cancelled).remaining p = p.stepBound := by
  have hstage : (Run.start p settings cancelled).stage = .between := Run.start_stage hpermits
  have hweight : ∀ i, (Run.start p settings cancelled).weight p i = p.sleepsOf i + 4 := fun i =>
    Run.weight_between hstage rfl
  have hfour : ∑ _i ∈ Finset.range p.size, 4 = p.size * 4 := by
    rw [Finset.sum_const_nat fun _ _ => rfl, Finset.card_range]
  simp only [Run.remaining, hweight, Finset.sum_add_distrib, sum_sleepsOf, hfour, Plan.stepBound,
    hstage]
  rw [Nat.mul_comm]
  rfl

end Vetting
