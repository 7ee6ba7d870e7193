import Vetting.Proofs.Run.Schedule
import Vetting.Proofs.Run.Timing
import Vetting.Run.Validation

/-!
# How long a run takes

A run against a clock that nothing disturbs takes the time of its waves, one after the other. In a
wave the concurrent rules take as long as permits need that take them in order, each as soon as a
permit is free, and then the serial rules follow one by one (`run_time`).

The invariant says when the run will be done with the wave in progress (`Run.foreseen`): that is
settled as soon as the wave begins, and no event but the next survey changes it. A permit that goes
to a rule is the one that the list schedule gives to it, because the rules that sleep are not done
before now, and time passes only when all permits are taken or no rule waits.
-/

namespace Vetting

/-- The checks of a phase that a group has not started. -/
def Group.still (g : Group) (phase : Phase) : List Nat :=
  if phase = g.phase then g.waiting else if phase = .serial then g.serial else []

/-- When the rules that sleep are done. -/
def Group.ends (g : Group) (p : Plan) : List Nat := g.asleep.map fun s => s.since + p.time s.index

/-- A sleeper that leaves a group is taken out once. -/
theorem Group.take?_perm {g g' : Group} {i : Nat} {s : Sleeper} (hnodup : g.ahead.Nodup)
    (hs : g.take? i = some (s, g')) : g.asleep.Perm (s :: g'.asleep) := by
  obtain ⟨hasleep, rfl, rfl⟩ := Group.take?_eq_some hs
  have hmap : (g.asleep.map (·.index)).Nodup :=
    (List.nodup_append.mp (List.nodup_append.mp hnodup).1).2.1
  have hself : g.asleep.filter (·.index == s.index) = [s] := by
    have hnodup := (List.Nodup.of_map _ hmap).filter (·.index == s.index)
    refine List.perm_singleton.mp ((List.perm_ext_iff_of_nodup hnodup (List.nodup_singleton s)).mpr
      fun s' => ?_)
    rw [List.mem_filter, List.mem_singleton, beq_iff_eq]
    constructor
    · exact fun ⟨hs', heq⟩ => List.inj_on_of_nodup_map hmap hs' hasleep heq
    · rintro rfl
      exact ⟨hasleep, rfl⟩
  have hperm := List.filter_append_perm (·.index == s.index) g.asleep
  rw [hself] at hperm
  exact hperm.symm

namespace Run

variable {p : Plan} {settings : Settings} {r r₀ r' : Run} {e : Event} {es : List Event}
  {g g' : Group} {a : Application} {n i : Nat} {phase : Phase}

/-! ## Rosters -/

/-- The checks of a group of a wave that were started, in the order of the starts. -/
def started (r : Run) (wave : Nat) (phase : Phase) : List Nat :=
  (r.calls.filter fun c => c.wave == wave && c.phase == phase).map (·.index)

/-- The checks of a group of a wave, those that were started and those that are still to be. -/
def roster (r : Run) (wave : Nat) (phase : Phase) : List Nat :=
  r.started wave phase ++
    match r.stage with
    | .within g => if wave = r.waves then g.still phase else []
    | _ => []

/-- The time that a wave takes. -/
def waveTime (r : Run) (p : Plan) (settings : Settings) (wave : Nat) : Nat :=
  Schedule.finishing settings.permits ((r.roster wave .concurrent).map p.time) +
    ((r.roster wave .serial).map p.time).sum

theorem roster_within (hwithin : r.stage = .within g) :
    r.roster n phase = r.started n phase ++ if n = r.waves then g.still phase else [] := by
  rw [roster, hwithin]

/-- A run between two waves, or over. -/
def Idle (r : Run) : Prop := ∀ g, r.stage ≠ .within g

theorem idle_of_between (hbetween : r.stage = .between) : r.Idle := fun _ hwithin =>
  nomatch hbetween.symm.trans hwithin

theorem idle_of_over (hover : r.ending? ≠ none) : r.Idle := fun _ hwithin =>
  hover (by rw [ending?, hwithin])

theorem Idle.roster (h : r.Idle) : r.roster n phase = r.started n phase := by
  rw [Run.roster]
  split
  · exact absurd ‹_› (h _)
  · exact List.append_nil _

theorem Advances.roster (h : Advances p settings r g a r') :
    r'.roster n phase = r.started n phase ++ if n = r.waves then g.still phase else [] := by
  cases h <;> rw [roster_within rfl] <;> rfl

/-- A rule that is started moves from those that wait to those that were started. -/
theorem Advances.roster_start (h : Advances p settings
      { r with calls := r.calls ++ [r.callOf (g.call i) i] } (g.call i) a r')
    (hwithin : r.stage = .within g) (hhead : g.waiting.head? = some i) :
    r'.roster n phase = r.roster n phase := by
  obtain ⟨rest, hrest⟩ := List.head?_eq_some_iff.mp hhead
  rw [h.roster, roster_within hwithin]
  simp only [started, List.filter_append, List.map_append, Group.still, Group.call, hrest,
    List.erase_cons_head, List.append_assoc]
  by_cases hn : n = r.waves
  · by_cases hp : phase = g.phase
    · simp [callOf, hn, hp]
    · simp [callOf, hn, hp, Ne.symm hp]
  · simp [callOf, hn, Ne.symm hn]

/-! ## When a wave is done -/

/-- When permits are free, given when the rules that sleep are done. -/
def free (settings : Settings) (phase : Phase) (ends : List Nat) (now : Nat) : List Nat :=
  ends ++ List.replicate (permits settings phase - ends.length) now

/-- When the wave in progress will be done. -/
def foreseen (r : Run) (p : Plan) (settings : Settings) : Nat :=
  match r.stage with
  | .within g =>
    Schedule.latest (Schedule.assign (free settings g.phase (g.ends p) r.now)
      (g.waiting.map p.time)) + (g.serial.map p.time).sum
  | _ => r.now

theorem foreseen_within (hwithin : r.stage = .within g) :
    r.foreseen p settings =
      Schedule.latest (Schedule.assign (free settings g.phase (g.ends p) r.now)
        (g.waiting.map p.time)) + (g.serial.map p.time).sum := by
  rw [foreseen, hwithin]

theorem Idle.foreseen (h : r.Idle) : r.foreseen p settings = r.now := by
  rw [Run.foreseen]
  split
  · exact absurd ‹_› (h _)
  · rfl

theorem free_perm_of_perm {ends ends' : List Nat} (h : ends.Perm ends') (now : Nat) :
    (free settings phase ends now).Perm (free settings phase ends' now) := by
  rw [free, free, h.length_eq]
  exact h.append_right _

/-- A permit that is free is free now. -/
theorem free_perm {ends : List Nat} (h : ends.length < permits settings phase) (now : Nat) :
    (free settings phase ends now).Perm
      (now :: (ends ++ List.replicate (permits settings phase - ends.length - 1) now)) := by
  obtain ⟨k, hk⟩ := Nat.exists_eq_add_of_lt h
  rw [free, hk, show ends.length + k + 1 - ends.length = k + 1 by omega, Nat.add_sub_cancel,
    List.replicate_succ]
  exact List.perm_middle

/-- A permit that is taken will be free when its rule is done. -/
theorem free_cons_perm {ends : List Nat} (t now : Nat) :
    (free settings phase (t :: ends) now).Perm
      (t :: (ends ++ List.replicate (permits settings phase - ends.length - 1) now)) := by
  rw [free, List.length_cons, Nat.sub_add_eq]
  exact List.Perm.refl _

theorem latest_free {ends : List Nat} {now : Nat} (hne : ends ≠ []) (hle : ∀ t ∈ ends, now ≤ t) :
    Schedule.latest (free settings phase ends now) = Schedule.latest ends := by
  obtain ⟨t, ht⟩ := List.exists_mem_of_ne_nil _ hne
  rw [free, Schedule.latest_append, Nat.max_eq_left]
  refine Schedule.latest_le_iff.mpr fun u hu => ?_
  obtain rfl := List.eq_of_mem_replicate hu
  exact Nat.le_trans (hle t ht) (Schedule.latest_le_iff.mp (Nat.le_refl _) t ht)

theorem Awaits.now_le {s : Sleeper} (h : r.Awaits p phase s) :
    r.now ≤ s.since + p.time s.index := by
  refine Nat.le_trans h.due (Nat.add_le_add_left ?_ _)
  rw [h.tracks.time_eq]
  have hspan : s.spent + s.millis ≤ s.spent + s.activity.span :=
    Nat.add_le_add_left (Nat.le_add_right _ _) _
  cases s.limit with
  | none => simpa using hspan
  | some n => exact Nat.le_min.mpr ⟨Nat.le_trans (Nat.min_le_left _ _) hspan, Nat.min_le_right _ _⟩

/-- What is foreseen when a rule is carried on: its permit will be free when the rule is done. -/
theorem Advances.foreseen (h : Advances p settings r g a r') (hnow : r.now = a.since + a.spent)
    (hpermit : g.asleep.length < permits settings g.phase) :
    r'.foreseen p settings =
      Schedule.latest (Schedule.assign ((a.since + p.time a.index) ::
        (g.ends p ++ List.replicate (permits settings g.phase - (g.ends p).length - 1) r.now))
          (g.waiting.map p.time)) + (g.serial.map p.time).sum := by
  have hlength : (g.ends p).length < permits settings g.phase := by
    rwa [Group.ends, List.length_map]
  cases h with
  | ended answer hspent =>
      rw [foreseen_within rfl, ← hspent, ← hnow]
      exact congrArg (· + _) (Schedule.latest_assign_perm (free_perm hlength r.now) _)
  | @asleep s ha =>
      subst ha
      rw [foreseen_within rfl]
      have hends : (g.asleep ++ [s]).map (fun s => s.since + p.time s.index) =
          g.ends p ++ [s.since + p.time s.index] := List.map_append
      refine congrArg (· + _) (Schedule.latest_assign_perm ?_ _)
      rw [Group.ends, hends]
      exact (free_perm_of_perm (List.perm_append_singleton _ _) _).trans (free_cons_perm _ _)

/-- A permit that goes to the first rule that waits goes to it as foreseen. -/
theorem Advances.foreseen_start {limit : Option Nat} (hwithin : r.stage = .within g)
    (hhead : g.waiting.head? = some i) (hpermit : g.asleep.length < permits settings g.phase)
    (hawaits : ∀ s ∈ g.asleep, r.Awaits p g.phase s)
    (h : Advances p settings { r with calls := r.calls ++ [r.callOf (g.call i) i] } (g.call i)
      ⟨i, r.now, 0, limit⟩ r') : r'.foreseen p settings = r.foreseen p settings := by
  obtain ⟨rest, hrest⟩ := List.head?_eq_some_iff.mp hhead
  have hcall : (g.call i).waiting = rest := by rw [Group.call, hrest, List.erase_cons_head]
  have hlength : (g.ends p).length < permits settings g.phase := by
    rwa [Group.ends, List.length_map]
  have hends : ∀ t ∈ g.ends p ++
      List.replicate (permits settings g.phase - (g.ends p).length - 1) r.now, r.now ≤ t := by
    intro t ht
    rcases List.mem_append.mp ht with ht | ht
    · obtain ⟨s, hs, rfl⟩ := List.mem_map.mp ht
      exact (hawaits s hs).now_le
    · exact Nat.le_of_eq (List.eq_of_mem_replicate ht).symm
  rw [h.foreseen rfl hpermit, foreseen_within hwithin, hcall, hrest, List.map_cons,
    Schedule.latest_assign_cons (free_perm hlength r.now) hends]
  rfl

theorem Advances.foreseen_wake {s : Sleeper} (hnodup : g.ahead.Nodup)
    (hwithin : r.stage = .within g) (hs : g.take? i = some (s, g')) (hindex : a.index = s.index)
    (hsince : a.since = s.since) (hnow : r.now = a.since + a.spent)
    (hpermits : g.asleep.length ≤ permits settings g.phase)
    (h : Advances p settings r g' a r') : r'.foreseen p settings = r.foreseen p settings := by
  have hperm := Group.take?_perm hnodup hs
  obtain ⟨-, -, rfl⟩ := Group.take?_eq_some hs
  have hpermit : (g.asleep.filter (·.index != i)).length < permits settings g.phase :=
    Nat.lt_of_lt_of_le (by rw [hperm.length_eq]; exact Nat.lt_succ_self _) hpermits
  rw [h.foreseen hnow hpermit, foreseen_within hwithin, hindex, hsince]
  refine congrArg (· + _) (Schedule.latest_assign_perm ?_ _).symm
  exact (free_perm_of_perm (hperm.map _) _).trans (free_cons_perm _ _)

/-- As long as no rule that waits could have a permit, what is foreseen does not hang on the
time. -/
theorem foreseen_pass {millis : Nat} (hwithin : r.stage = .within g) (hasleep : g.asleep ≠ [])
    (hawaits : ∀ s ∈ g.asleep, r.Awaits p g.phase s)
    (hdue : ∀ s ∈ g.asleep, r.now + millis ≤ s.due)
    (hbusy : g.waiting = [] ∨ permits settings g.phase ≤ g.asleep.length) :
    ({ r with now := r.now + millis } : Run).foreseen p settings = r.foreseen p settings := by
  rw [foreseen_within hwithin, foreseen_within (r := { r with now := r.now + millis }) hwithin]
  refine congrArg (· + _) ?_
  rcases hbusy with hwaiting | hfull
  · have hne : g.ends p ≠ [] := mt List.map_eq_nil_iff.mp hasleep
    rw [hwaiting, List.map_nil, Schedule.assign, Schedule.assign, latest_free hne fun t ht => ?_,
      latest_free hne fun t ht => ?_]
    · obtain ⟨s, hs, rfl⟩ := List.mem_map.mp ht
      exact (hawaits s hs).now_le
    · obtain ⟨s, hs, rfl⟩ := List.mem_map.mp ht
      exact ({ hawaits s hs with due := hdue s hs } :
        ({ r with now := r.now + millis } : Run).Awaits p g.phase s).now_le
  · have hnone : permits settings g.phase - (g.ends p).length = 0 := by
      rw [Group.ends, List.length_map]
      omega
    rw [free, free, hnone]
    rfl

/-! ## The balance of a run -/

/-- The end of the wave in progress is the time of all waves that have begun, and the checks of each
group are in ascending order. -/
structure Balanced (r : Run) (p : Plan) (settings : Settings) : Prop where
  foreseen : r.foreseen p settings =
    ((List.range r.waves).map fun n => r.waveTime p settings (n + 1)).sum
  ascending (n : Nat) (phase : Phase) : (r.roster n phase).Pairwise (· < ·)

theorem waveTime_congr (h : ∀ phase, r'.roster n phase = r.roster n phase) :
    r'.waveTime p settings n = r.waveTime p settings n := by
  rw [waveTime, waveTime, h, h]

/-- What changes nothing of the waves keeps the balance. -/
theorem Balanced.of_same (h : r.Balanced p settings) (hwaves : r'.waves = r.waves)
    (hroster : ∀ n phase, r'.roster n phase = r.roster n phase)
    (hforeseen : r'.foreseen p settings = r.foreseen p settings) : r'.Balanced p settings := by
  refine ⟨?_, fun n phase => hroster n phase ▸ h.ascending n phase⟩
  rw [hforeseen, h.foreseen, hwaves]
  exact congrArg List.sum (List.map_congr_left fun n _ => (waveTime_congr (hroster (n + 1))).symm)

theorem Balanced.of_idle (h : r.Balanced p settings) (hr : r.Idle) (hr' : r'.Idle)
    (hwaves : r'.waves = r.waves) (hcalls : r'.calls = r.calls) (hnow : r'.now = r.now) :
    r'.Balanced p settings := by
  refine h.of_same hwaves (fun n phase => ?_) (by rw [hr.foreseen, hr'.foreseen, hnow])
  rw [hr.roster, hr'.roster, started, started, hcalls]

/-- No rule of a wave that has not begun was started. -/
theorem Books.started_eq_nil (h : r.Books p) (hn : r.waves < n) : r.started n phase = [] := by
  rw [started, List.map_eq_nil_iff, List.filter_eq_nil_iff]
  intro c hc
  have := h.wave_le hc
  simp only [Bool.and_eq_true, beq_iff_eq]
  omega

/-- A wave that begins adds the time that it takes. -/
theorem Balanced.wave (h : r.Balanced p settings) (hr : r.Regular p settings)
    (hbetween : r.stage = .between) :
    ({ r.settled p with
        waves := r.waves + 1
        stage := .within ((r.settled p).nextWave p settings) } : Run).Balanced p settings := by
  have hidle := idle_of_between hbetween
  have hascending := (nextWave_regular hr.toBooks settings).ascending
  generalize hg : (r.settled p).nextWave p settings = g at hascending ⊢
  have hphase : g.phase = .concurrent := hg ▸ rfl
  have hasleep : g.asleep = [] := hg ▸ rfl
  generalize hr' : ({ r.settled p with waves := r.waves + 1, stage := .within g } : Run) = r'
  have hwithin : r'.stage = .within g := hr' ▸ rfl
  have hwaves : r'.waves = r.waves + 1 := hr' ▸ rfl
  have hstarted : ∀ n phase, r'.started n phase = r.started n phase := fun _ _ => hr' ▸ rfl
  have hnew : ∀ phase, r'.roster (r.waves + 1) phase = g.still phase := fun phase => by
    rw [roster_within hwithin, hstarted, hr.started_eq_nil (Nat.lt_succ_self _), hwaves, if_pos rfl,
      List.nil_append]
  have hold : ∀ n phase, n ≠ r.waves + 1 → r'.roster n phase = r.roster n phase :=
    fun n phase hn => by
      rw [roster_within hwithin, hstarted, hwaves, if_neg hn, List.append_nil, hidle.roster]
  have hnow : r'.now = r.now := hr' ▸ rfl
  refine ⟨?_, fun n phase => ?_⟩
  · rw [hwaves, List.range_succ, List.map_append, List.sum_append, List.map_singleton,
      List.sum_singleton]
    have hbefore : ((List.range r.waves).map fun n => r'.waveTime p settings (n + 1)) =
        (List.range r.waves).map fun n => r.waveTime p settings (n + 1) :=
      List.map_congr_left fun n hn => waveTime_congr fun phase => hold _ phase (by
        have := List.mem_range.mp hn
        omega)
    have htime : r'.waveTime p settings (r.waves + 1) =
        Schedule.finishing settings.permits (g.waiting.map p.time) + (g.serial.map p.time).sum := by
      simp [waveTime, hnew, Group.still, hphase]
    rw [hbefore, ← h.foreseen, hidle.foreseen, htime, foreseen_within hwithin, hnow,
      ← Nat.add_assoc]
    refine congrArg (· + _) ?_
    rw [Group.ends, hasleep, hphase]
    exact Schedule.latest_assign_replicate (permits_pos settings .concurrent) r.now _
  · by_cases hn : n = r.waves + 1
    · rw [hn, hnew, Group.still]
      split
      · exact hascending.1
      · split
        · exact hascending.2
        · exact List.Pairwise.nil
    · rw [hold n phase hn]
      exact h.ascending n phase

/-- The serial rules are foreseen to follow the concurrent ones one by one. -/
theorem Balanced.turn (h : r.Balanced p settings) (hwithin : r.stage = .within g)
    (hphase : g.phase = .concurrent) (hwaiting : g.waiting = []) (hasleep : g.asleep = []) :
    ({ r with stage := .within { phase := .serial, waiting := g.serial } } : Run).Balanced p
      settings := by
  refine h.of_same rfl (fun n phase => ?_) ?_
  · rw [roster_within rfl, roster_within hwithin]
    cases phase <;> simp [Group.still, hphase, hwaiting, started]
  · rw [foreseen_within rfl, foreseen_within hwithin, hwaiting, Group.ends, Group.ends, hasleep,
      hphase]
    have hserial := Schedule.latest_assign_replicate (permits_pos settings .serial) r.now
      (g.serial.map p.time)
    have hconcurrent := Schedule.latest_replicate (permits_pos settings .concurrent) r.now
    rw [show permits settings .serial = 1 from rfl, Schedule.finishing_one] at hserial
    exact hserial.trans (congrArg (· + _) hconcurrent.symm)

theorem Balanced.done (h : r.Balanced p settings) (hwithin : r.stage = .within g)
    (hphase : g.phase = .serial) (hwaiting : g.waiting = []) (hasleep : g.asleep = [])
    (hserial : g.serial = []) (pending : List Nat) :
    ({ r with pending, stage := .between } : Run).Balanced p settings := by
  have hidle : ({ r with pending, stage := .between } : Run).Idle := idle_of_between rfl
  refine h.of_same rfl (fun n phase => ?_) ?_
  · rw [hidle.roster, roster_within hwithin]
    cases phase <;> simp [Group.still, hphase, hwaiting, started]
  · rw [hidle.foreseen, foreseen_within hwithin, hwaiting, Group.ends, hasleep, hphase, hserial]
    exact (Schedule.latest_replicate (permits_pos settings .serial) r.now).symm

theorem Balanced.step (h : r.Balanced p settings) (hr : r.Regular p settings)
    (ht : r.Timed p settings r₀ es) (htimely : r.Timely settings e)
    (hstep : Step p settings r e r') (hr' : r'.Undisturbed) : r'.Balanced p settings := by
  cases ht.ticks htimely.exact hstep hr' with
  | pass =>
      obtain ⟨g, hwithin, hasleep, hdue, hbusy⟩ := htimely
      exact h.of_same rfl (fun _ _ => rfl)
        (foreseen_pass hwithin hasleep (fun s hs => ht.asleep hwithin hs) hdue hbusy)
  | survey hbetween houtlook =>
      have hidle := idle_of_between hbetween
      cases houtlook with
      | finished | cancelled | stalled => exact h.of_idle hidle nofun rfl rfl rfl
      | settled => exact h.of_idle hidle (idle_of_between hbetween) rfl rfl rfl
      | wave => exact h.wave hr hbetween
  | start hwithin hturn hpermit hadvances =>
      obtain ⟨g, hwithin', hhead⟩ := htimely
      obtain rfl := Stage.within.inj (hwithin.symm.trans hwithin')
      have hforeseen :=
        hadvances.foreseen_start hwithin hhead hpermit fun s hs => ht.asleep hwithin hs
      exact h.of_same hadvances.waves (fun _ _ => hadvances.roster_start hwithin hhead) hforeseen
  | wake hwithin hs hindex hsince hnow hadvances =>
      have hgroup := (hr.tends hwithin).group
      have hforeseen := hadvances.foreseen_wake hgroup.nodup hwithin hs hindex hsince hnow
        hgroup.permits
      obtain ⟨-, -, rfl⟩ := Group.take?_eq_some hs
      refine h.of_same hadvances.waves (fun n phase => ?_) hforeseen
      rw [hadvances.roster, roster_within hwithin]
      rfl
  | turn hwithin hphase hwaiting hasleep => exact h.turn hwithin hphase hwaiting hasleep
  | done hwithin hphase hwaiting hasleep =>
      exact h.done hwithin hphase hwaiting hasleep ((hr.tends hwithin).group.last hphase) _

theorem Clocked.balanced {cancelled : Bool}
    (h : Clocked p settings (start p settings cancelled) es r) (hr : r.Undisturbed) :
    r.Balanced p settings := by
  induction h with
  | nil =>
      have hidle : (start p settings cancelled).Idle := start_stage_ne p settings cancelled
      exact ⟨hidle.foreseen, fun _ _ => by rw [hidle.roster]; exact .nil⟩
  | snoc h htimely hstep ih =>
      have hr₁ := hr.of_step hstep
      have hregular := (start_regular p settings cancelled).stepAll h.stepAll?
      exact (ih hr₁).step hregular ((Clocked.exact h).timed hr₁) htimely hstep hr

end Run

/-- **A run takes the time of its waves.** Take any plan and any settings, and a run against a clock
that is not cancelled and in which no rule breaks down outside its application. Each rule that was
started has its result recorded as long after its start as it takes, its time limit included, and
that is the time that is measured. When the run is over, all rules that were started have results,
and the time of the run is the sum over its waves of the time in which the permits take the
concurrent rules in ascending order, each as soon as a permit is free, and of the times of the
serial rules. Enough permits take the longest of the times, one permit takes their sum. The run to
its end is a run against a clock, whenever a cancellation from outside is to come. -/
theorem run_time (p : Plan) (settings : Settings) {es : List Event} {r : Run}
    (hrun : Run.Clocked p settings (Run.start p settings false) es r) (hr : r.Undisturbed) :
    (∀ c ∈ r.calls, ∀ entry, r.ledger.entry? c.index = some entry →
      Run.OnTime p settings (Run.start p settings false) es c entry) ∧
    (r.ending? ≠ none →
      (∀ c ∈ r.calls, r.ledger.contains c.index = true) ∧
      (∀ n phase, (r.started n phase).Pairwise (· < ·)) ∧
      (r.report p).duration = .ofMillis r.now ∧
      r.now = ((List.range r.waves).map fun n =>
        Schedule.finishing settings.permits ((r.started (n + 1) .concurrent).map p.time) +
          ((r.started (n + 1) .serial).map p.time).sum).sum) ∧
    (∀ durations : List Nat,
      (durations.length ≤ settings.permits →
        Schedule.finishing settings.permits durations = Schedule.latest durations) ∧
      (settings.permits = 1 → Schedule.finishing settings.permits durations = durations.sum)) ∧
    ∀ cancelAt, ∃ es, Run.Clocked p settings (Run.start p settings false) es
      (Run.complete p settings false cancelAt) := by
  have htimed := hrun.exact.timed hr
  have hbalanced := hrun.balanced hr
  refine ⟨htimed.recorded,
    fun hover => ⟨hrun.exact.contains_of_over hr hover, fun n phase => ?_, rfl, ?_⟩,
    fun durations => ⟨Schedule.finishing_of_length_le, fun hone => ?_⟩,
    Run.exists_clocked_complete p settings false⟩
  · rw [← (Run.idle_of_over hover).roster]
    exact hbalanced.ascending n phase
  · have hidle := Run.idle_of_over hover
    rw [← hidle.foreseen, hbalanced.foreseen]
    simp only [Run.waveTime, hidle.roster]
  · rw [hone, Schedule.finishing_one]

/-- Three rules that may run beside each other, one of them with a time limit, and one that comes
after. -/
def shiftEdits : List Edit := [
  .addRule ⟨0⟩ "delay" (some "mill") [("millis", .int 5), ("parallel", .bool true)] [],
  .addRule ⟨0⟩ "delay" (some "drill")
    [("millis", .int 4), ("parallel", .bool true), ("timeout_millis", .int 3)] [],
  .addRule ⟨0⟩ "delay" (some "press") [("millis", .int 4), ("parallel", .bool true)] [],
  .addRule ⟨0⟩ "delay" (some "paint") [("millis", .int 2)] [⟨⟨0⟩, ⟨"delay", "Job", some "mill"⟩⟩]]

def twoPermits : Settings := { measure := true, maxParallelism := 2 }

/-- The third rule gets the permit of the second when that is cut off. -/
theorem run_time_shift :
    ∃ p es,
      Plan.prepare (Manifest.build "Job" shiftEdits) delayRules .propagate (.object []) = .ok p ∧
      Run.Clocked p twoPermits (Run.start p twoPermits false) es
        (Run.complete p twoPermits false none) ∧
      (Run.complete p twoPermits false none).Undisturbed ∧
      (Run.complete p twoPermits false none).ending? = some .finished ∧
      (Run.complete p twoPermits false none).now = Schedule.finishing 2 [5, 3, 4] + 2 := by
  have hsome : ((Plan.prepare (Manifest.build "Job" shiftEdits) delayRules .propagate
      (.object [])).toOption.any fun p =>
        let r := Run.complete p twoPermits false none
        !r.cancelled && !r.broken && r.ending? == some .finished && r.waves == 2 &&
          (r.started 1 .concurrent).map p.time == [5, 3, 4] &&
          (r.started 1 .serial).map p.time == [] && (r.started 2 .concurrent).map p.time == [] &&
          (r.started 2 .serial).map p.time == [2]) = true := by decide +kernel
  obtain ⟨p, hp, htest⟩ := (Option.any_eq_true _ _).mp hsome
  simp only [Bool.and_eq_true, Bool.not_eq_true', beq_iff_eq] at htest
  obtain ⟨⟨⟨⟨⟨⟨⟨hcancelled, hbroken⟩, hending⟩, hwaves⟩, h₁⟩, h₂⟩, h₃⟩, h₄⟩ := htest
  obtain ⟨es, hrun⟩ := Run.exists_clocked_complete p twoPermits false none
  have hr : (Run.complete p twoPermits false none).Undisturbed :=
    ⟨hcancelled, hbroken, by rw [hending]; exact nofun⟩
  have hnow := ((run_time p twoPermits hrun hr).2.1 (by rw [hending]; exact nofun)).2.2.2
  refine ⟨p, es, Fallible.eq_ok_of_toOption hp, hrun, hr, hending, hnow.trans ?_⟩
  rw [hwaves]
  simp only [List.range_succ, List.range_zero, List.nil_append, List.cons_append, List.map_cons,
    List.map_nil, h₁, h₂, h₃, h₄]
  rfl

example : Schedule.finishing 2 [5, 3, 4] = 7 := by decide

end Vetting
