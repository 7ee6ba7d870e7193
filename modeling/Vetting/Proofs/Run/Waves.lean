import Vetting.Proofs.Run.Steps

/-!
# What a run keeps to

A run that is not cancelled enters reference results only (`Run.Sound`), whatever the settings, in
whatever order rules start and end, and however time passes. `Run.Sound.step` goes through the
events, and `Run.Sound.stepAll` follows by induction on them.

The invariant says of a group that the checks which it has not done with are due
(`Plan.Due`), each in one place, and of a sleeper that what is left of its activity comes to the
answer that its rule gives on its own (`Plan.Carries`).
-/

namespace Vetting

/-- Carrying an activity on to its next pause changes nothing of what it comes to. -/
theorem Activity.conclusion_burst {limit : Option Nat} {spent : Nat}
    (hspent : ∀ n, limit = some n → spent ≤ n) {activity : Activity}
    (h : (activity.burst false).1 = false) :
    (activity.burst false).2.activity.conclusion limit spent = activity.conclusion limit spent := by
  induction activity with
  | answer | crash => rfl
  | cancelRun next => rw [burst, burst_of_cancelled] at h; cases h
  | poll next ih => exact ih false h
  | sleep millis deaf next ih =>
      cases millis with
      | succ millis => rfl
      | zero =>
          rw [conclusion, Nat.add_zero, uncut hspent]
          exact ih false h

namespace Plan

/-- A check without a result that comes to what its rule answers. -/
def Due (p : Plan) (hp : p.Orderly) (l : Ledger) (i : Nat) : Prop :=
  l.contains i = false ∧
    ∃ check, p.check? i = some check ∧ p.eval hp i = .ofAnswer (p.answerOf check)

/-- The activity of an application comes to the answer that the rule of its check gives on its
own, and the time limit has not been reached. -/
structure Carries (p : Plan) (a : Application) (activity : Activity) : Prop where
  conclusion {check : Check} (hc : p.check? a.index = some check) :
    activity.conclusion a.limit a.spent = p.answerOf check
  in_time {n : Nat} (h : a.limit = some n) : a.spent ≤ n

end Plan

structure Group.Sound (g : Group) (p : Plan) (hp : p.Orderly) (l : Ledger) : Prop where
  nodup : g.ahead.Nodup
  due {i : Nat} (hi : i ∈ g.ahead) : p.Due hp l i
  carries {s : Sleeper} (hs : s ∈ g.asleep) : p.Carries s.toApplication s.activity
  /-- Nothing comes after the serial group. -/
  last (h : g.phase = .serial) : g.serial = []

namespace Group.Sound

variable {g : Group} {p : Plan} {hp : p.Orderly} {l : Ledger} {i : Nat} {s : Sleeper}

theorem call (h : g.Sound p hp l) (i : Nat) : (g.call i).Sound p hp l :=
  ⟨h.nodup.sublist ahead_call_sublist, fun hi => h.due (ahead_call_sublist.subset hi), h.carries,
    h.last⟩

theorem awake (h : g.Sound p hp l) (i : Nat) :
    ({ g with asleep := g.asleep.filter (·.index != i) } : Group).Sound p hp l :=
  ⟨h.nodup.sublist ahead_awake_sublist, fun hi => h.due (ahead_awake_sublist.subset hi),
    fun hs => h.carries (List.mem_of_mem_filter hs), h.last⟩

theorem record (h : g.Sound p hp l) (hopen : l.contains i = false) (hi : i ∉ g.ahead)
    (e : Entry) : g.Sound p hp (l.record i e) := by
  refine ⟨h.nodup, fun {j} hj => ⟨?_, (h.due hj).2⟩, h.carries, h.last⟩
  have hne : j ≠ i := fun heq => hi (heq ▸ hj)
  rw [Ledger.contains_record hopen, (h.due hj).1, decide_eq_false hne, Bool.or_false]

theorem sleep (h : g.Sound p hp l) (hnew : s.index ∉ g.ahead) (hdue : p.Due hp l s.index)
    (hs : p.Carries s.toApplication s.activity) :
    ({ g with asleep := g.asleep ++ [s] } : Group).Sound p hp l := by
  refine ⟨nodup_ahead_sleep h.nodup hnew, fun {i} hi => ?_, fun {s'} hs' => ?_, h.last⟩
  · rcases mem_ahead_sleep.mp hi with rfl | hi
    · exact hdue
    · exact h.due hi
  · rcases List.mem_append.mp hs' with hs' | hs'
    · exact h.carries hs'
    · rwa [List.mem_singleton.mp hs']

end Group.Sound

namespace Run

variable {p : Plan} {hp : p.Orderly} {settings : Settings} {r r' : Run} {e : Event}

/-! ## The invariant -/

/-- What holds of a run in every stage: its results are reference results, and it still has all
checks without a result before it. -/
structure Kept (r : Run) (p : Plan) (hp : p.Orderly) : Prop where
  unbroken : r.broken = false
  agrees : r.ledger.Agrees (p.eval hp)
  nodup : r.pending.Nodup
  lt_size {i : Nat} (hi : i ∈ r.pending) : i < p.size
  mem_pending {i : Nat} (hi : i < p.size) (hopen : r.ledger.contains i = false) : i ∈ r.pending

/-- What the stage of a run promises. -/
def Promises (r : Run) (p : Plan) (hp : p.Orderly) : Stage → Prop
  | .between => ∀ i ∈ r.pending, r.ledger.contains i = false
  | .within g => g.Sound p hp r.ledger
  | .ended ending => ending = .finished ∧ ∀ i < p.size, r.ledger.contains i = true

structure Sound (r : Run) (p : Plan) (hp : p.Orderly) : Prop extends r.Kept p hp where
  stage : r.Promises p hp r.stage

theorem Sound.group {g : Group} (h : r.Sound p hp) (hwithin : r.stage = .within g) :
    g.Sound p hp r.ledger := by
  have hstage := h.stage
  rwa [hwithin] at hstage

theorem start_sound (hp : p.Orderly) (hpermits : settings.permits ≤ Settings.permitLimit)
    (cancelled : Bool) : (start p settings cancelled).Sound p hp := by
  refine ⟨⟨rfl, nofun, List.nodup_range, List.mem_range.mp, fun hi _ => List.mem_range.mpr hi⟩, ?_⟩
  rw [start_stage hpermits]
  exact fun _ _ => rfl

/-! ## Starting and ending rules -/

theorem finish_kept (h : r.Kept p hp) (phase : Phase) {a : Application} {answer : Answer}
    (hopen : r.ledger.contains a.index = false)
    (heval : p.eval hp a.index = .ofAnswer answer) :
    (r.finish settings phase a answer).Kept p hp := by
  refine ⟨h.unbroken, h.agrees.record hopen heval.symm, h.nodup, h.lt_size, fun {i} hi hi' => ?_⟩
  exact h.mem_pending hi ((Ledger.below_record _ _ _).contains_eq_false hi')

/-- What carrying a rule on does to a run that is not cancelled by it: the rule ends with the
answer that it gives on its own, or it falls asleep. -/
inductive Proceeds (p : Plan) (settings : Settings) (r : Run) (g : Group) (a : Application)
    (activity : Activity) : Run → Prop
  | ended {check : Check} (hc : p.check? a.index = some check) :
      Proceeds p settings r g a activity
        { r.finish settings g.phase a (p.answerOf check) with stage := .within g }
  | asleep {s : Sleeper} (ha : s.toApplication = a) (hs : p.Carries a s.activity)
      (hsleeps : s.activity.sleeps ≤ activity.sleeps) :
      Proceeds p settings r g a activity
        { r with stage := .within { g with asleep := g.asleep ++ [s] } }

theorem proceeds_of_carries {g : Group} {a : Application} {activity : Activity} {check : Check}
    (hc : p.check? a.index = some check) (ha : p.Carries a activity) (hr : r.cancelled = false)
    (hr' : (r.proceed settings g a activity).cancelled = false) :
    Proceeds p settings r g a activity (r.proceed settings g a activity) := by
  have hconclusion := activity.conclusion_burst (fun n => ha.in_time (n := n))
  have hsleeps := activity.sleeps_burst false
  unfold proceed at hr' ⊢
  rw [hr] at hr' ⊢
  generalize activity.burst false = outcome at hr' hconclusion hsleeps ⊢
  obtain ⟨cancelled, pause⟩ := outcome
  obtain rfl : cancelled = false := by cases pause <;> exact hr'
  obtain ⟨now, cancelled, broken, waves, pending, ledger, calls, stage⟩ := r
  obtain rfl : cancelled = false := hr
  have hanswer := ha.conclusion hc ▸ hconclusion rfl
  cases pause with
  | ended answer =>
      obtain rfl : answer = p.answerOf check := hanswer
      exact .ended hc
  | asleep millis deaf next =>
      have hcarries : p.Carries a (.sleep millis deaf next) := by
        refine ⟨fun hc' => ?_, ha.in_time⟩
        obtain rfl := Option.some.inj (hc.symm.trans hc')
        exact hanswer
      exact .asleep (s := { a with millis, deaf, next }) rfl hcarries
        hsleeps

theorem Proceeds.sound {g : Group} {a : Application} {activity : Activity}
    (h : Proceeds p settings r g a activity r') (hr : r.Kept p hp) (hg : g.Sound p hp r.ledger)
    (hnew : a.index ∉ g.ahead) (hdue : p.Due hp r.ledger a.index) : r'.Sound p hp := by
  cases h with
  | ended hc =>
      obtain ⟨check', hc', heval⟩ := hdue.2
      obtain rfl := Option.some.inj (hc.symm.trans hc')
      exact { finish_kept hr g.phase hdue.1 heval with stage := hg.record hdue.1 hnew _ }
  | asleep ha hs =>
      subst ha
      exact { hr with stage := hg.sleep hnew hdue hs }

/-- The start of a check that has a permit, in a run that is not cancelled. -/
theorem grant_eq (g : Group) (i : Nat) {check : Check} (hr : r.cancelled = false)
    (hlimit : check.logic.limit ≠ .faulty) :
    r.grant p settings g i check = r.launch p settings g i check check.logic.limit.millis? := by
  unfold grant
  rw [hr]
  cases hl : check.logic.limit with
  | faulty => exact absurd hl hlimit
  | unlimited => cases g.phase <;> rfl
  | millis n => cases g.phase <;> rfl

theorem launch_proceeds {g : Group} {i : Nat} {check : Check} (hc : p.check? i = some check)
    (hr : r.cancelled = false)
    (hr' : (r.launch p settings g i check check.logic.limit.millis?).cancelled = false) :
    Proceeds p settings { r with calls := r.calls ++ [r.callOf g i] } g
      ⟨i, r.now, 0, check.logic.limit.millis?⟩ (p.activityOf check)
      (r.launch p settings g i check check.logic.limit.millis?) := by
  refine proceeds_of_carries hc ⟨fun hc' => ?_, fun _ => Nat.zero_le _⟩ hr hr'
  obtain rfl := Option.some.inj (hc.symm.trans hc')
  rfl

/-- The two ways in which a sleep ends, if nothing cuts it short. -/
theorem proceeds_of_resume {g : Group} {s : Sleeper} {check : Check}
    (hc : p.check? s.index = some check) (hs : p.Carries s.toApplication s.activity)
    (hr : r.cancelled = false) (hr' : (r.resume settings g s).cancelled = false) :
    ∃ a activity, a.index = s.index ∧ activity.sleeps < s.activity.sleeps ∧
      Proceeds p settings r g a activity (r.resume settings g s) := by
  have hconclusion := hs.conclusion hc
  rw [Sleeper.activity, Activity.conclusion] at hconclusion
  rcases resume_cases settings r g s with ⟨n, hlimit, hlt, heq⟩ | ⟨hin, heq⟩
  · rw [hlimit, Activity.cut hlt] at hconclusion
    have hanswer : .error (.timeout (.ofMillis n)) = p.answerOf check := hconclusion
    refine ⟨{ s.toApplication with spent := n }, .answer (p.answerOf check), rfl,
      Nat.succ_pos _, ?_⟩
    rw [heq, hanswer]
    exact .ended hc
  · rw [Activity.uncut hin] at hconclusion
    refine ⟨{ s.toApplication with spent := s.spent + s.millis }, s.next false, rfl,
      Nat.lt_succ_of_le (Nat.le_max_right _ _), ?_⟩
    rw [heq] at hr' ⊢
    refine proceeds_of_carries hc ⟨fun hc' => ?_, hin _⟩ hr hr'
    obtain rfl := Option.some.inj (hc.symm.trans hc')
    exact hconclusion

/-- A permit takes its check from those that wait, and the rule of the check starts. -/
theorem Sound.grant_proceeds {g : Group} {i : Nat} {check : Check} (h : r.Sound p hp)
    (hlimit : check.logic.limit ≠ .faulty) (hwithin : r.stage = .within g)
    (hturn : g.mayCall i = true) (hc : p.check? i = some check) (hr : r.cancelled = false)
    (hr' : (r.grant p settings (g.call i) i check).cancelled = false) :
    p.Due hp r.ledger i ∧ i ∉ (g.call i).ahead ∧
      Proceeds p settings { r with calls := r.calls ++ [r.callOf (g.call i) i] } (g.call i)
        ⟨i, r.now, 0, check.logic.limit.millis?⟩ (p.activityOf check)
        (r.grant p settings (g.call i) i check) := by
  have hg := h.group hwithin
  have hwaiting := Group.mem_waiting_of_mayCall hturn
  have hdue := hg.due (Group.mem_ahead.mpr (.inl hwaiting))
  rw [grant_eq _ _ hr hlimit] at hr' ⊢
  exact ⟨hdue, Group.not_mem_ahead_call hg.nodup hwaiting, launch_proceeds hc hr hr'⟩

/-- A sleeper that wakes leaves those that sleep, and its rule goes on with fewer sleeps ahead. -/
theorem Sound.resume_proceeds {g g' : Group} {i : Nat} {s : Sleeper} (h : r.Sound p hp)
    (hwithin : r.stage = .within g) (hs : g.take? i = some (s, g')) (hr : r.cancelled = false)
    (hr' : (r.resume settings g' s).cancelled = false) :
    ∃ a activity, a.index = i ∧ activity.sleeps < s.activity.sleeps ∧
      p.Due hp r.ledger i ∧ i ∉ g'.ahead ∧ g'.Sound p hp r.ledger ∧
      Proceeds p settings r g' a activity (r.resume settings g' s) := by
  have hg := h.group hwithin
  obtain ⟨hasleep, rfl, rfl⟩ := Group.take?_eq_some hs
  have hdue := hg.due (Group.mem_ahead.mpr (.inr (.inl ⟨s, hasleep, rfl⟩)))
  obtain ⟨check, hc, -⟩ := hdue.2
  obtain ⟨a, activity, ha, hsleeps, hproceeds⟩ :=
    proceeds_of_resume hc (hg.carries hasleep) hr hr'
  exact ⟨a, activity, ha, hsleeps, hdue, Group.not_mem_ahead_awake hg.nodup hasleep rfl,
    hg.awake s.index, hproceeds⟩

/-! ## Surveys -/

/-- What a survey does to a run that is not cancelled. -/
inductive Surveys (p : Plan) (r : Run) : Run → Prop
  | finished (h : r.pending = []) : Surveys p r { r with stage := .ended .finished }
  | settled (h : r.ledger.size < (r.settled p).ledger.size) : Surveys p r (r.settled p)
  | wave {g : Group} (hphase : g.phase = .concurrent) (hasleep : g.asleep = [])
      (hahead : g.ahead.Perm ((r.settled p).ready p)) (hne : (r.settled p).ready p ≠ []) :
      Surveys p r { r.settled p with waves := r.waves + 1, stage := .within g }

theorem settled_kept (h : r.Kept p hp) : (r.settled p).Kept p hp := by
  have hsettles := Plan.settle_settles p r.pending r.ledger
  refine ⟨h.unbroken, Plan.settle_agrees hp r.pending h.agrees, h.nodup.filter _,
    fun hi => h.lt_size (List.mem_of_mem_filter hi), fun {i} hi hopen => ?_⟩
  exact List.mem_filter.mpr
    ⟨h.mem_pending hi (hsettles.below.contains_eq_false hopen), (Bool.not_eq_true' _).mpr hopen⟩

theorem survey_surveys (h : r.Sound p hp) (hstage : r.stage = .between)
    (hr : r.cancelled = false) : Surveys p r (r.survey p settings) := by
  have hopen : ∀ i ∈ r.pending, r.ledger.contains i = false := by
    have := h.stage
    rwa [hstage] at this
  have houtlook := r.survey_outlook p settings
  generalize r.survey p settings = r' at houtlook ⊢
  cases houtlook with
  | finished hpending => exact .finished hpending
  | cancelled _ hr' => rw [hr] at hr'; cases hr'
  | settled _ hsize => exact .settled hsize
  | stalled hpending _ hready hsize =>
      exact absurd hready (ready_ne_nil hp hpending
        (fun i hi => ⟨h.lt_size hi, hopen i hi⟩) (fun _ => h.mem_pending) hsize)
  | wave _ hready => exact .wave rfl rfl (ahead_nextWave_perm p settings _) hready

theorem Surveys.sound (h : Surveys p r r') (hr : r.Sound p hp) (hstage : r.stage = .between) :
    r'.Sound p hp := by
  have hkept := settled_kept hr.toKept
  cases h with
  | finished hnone =>
      refine { hr.toKept with stage := ⟨rfl, fun i hi => ?_⟩ }
      cases hc : r.ledger.contains i with
      | true => rfl
      | false =>
          have hmem := hr.mem_pending hi hc
          rw [hnone] at hmem
          cases hmem
  | settled =>
      refine { hkept with stage := ?_ }
      rw [show (r.settled p).stage = .between from hstage]
      exact fun i hi => open_of_settled hi
  | @wave g hphase hasleep hahead hne =>
      refine { hkept with stage := ⟨?_, fun {i} hi => ?_, fun {s} hs => ?_, fun hserial => ?_⟩ }
      · exact hahead.nodup_iff.mpr (hkept.nodup.filter _)
      · obtain ⟨hpending, hready⟩ := List.mem_filter.mp (hahead.mem_iff.mp hi)
        have hopen := open_of_settled hpending
        have hfree := Plan.not_isBlocked_settle (List.mem_of_mem_filter hpending) hopen
        exact ⟨hopen, Plan.eval_of_cleared hkept.agrees (Plan.cleared_of_isReady hready hfree)⟩
      · rw [hasleep] at hs
        cases hs
      · rw [hphase] at hserial
        cases hserial

/-! ## Runs -/

theorem close_sound {g : Group} (h : r.Kept p hp) (hg : g.Sound p hp r.ledger)
    (hwaiting : g.waiting = []) (hasleep : g.asleep = []) : (r.close g).Sound p hp := by
  unfold close
  cases g.phase with
  | concurrent =>
      have hahead := Group.ahead_turn hwaiting hasleep
      exact { h with
        stage := ⟨hahead ▸ hg.nodup, fun hi => hg.due (hahead ▸ hi),
          fun hs => absurd hs List.not_mem_nil, fun _ => rfl⟩ }
  | serial =>
      refine ⟨⟨h.unbroken, h.agrees, h.nodup.filter _,
        fun hi => h.lt_size (List.mem_of_mem_filter hi), fun {i} hi hopen => ?_⟩, fun i hi => ?_⟩
      · exact List.mem_filter.mpr ⟨h.mem_pending hi hopen, (Bool.not_eq_true' _).mpr hopen⟩
      · exact (Bool.not_eq_true' _).mp (List.mem_filter.mp hi).2

/-- Only the time limit of a check that gets a permit matters. -/
theorem Sound.step_of (h : r.Sound p hp)
    (hlimits : ∀ i check, e = .grant i → p.check? i = some check → check.logic.limit ≠ .faulty)
    (hstep : Step p settings r e r') (hr' : r'.cancelled = false) : r'.Sound p hp := by
  have hr := not_cancelled_of_step hstep hr'
  cases hstep with
  | pass => exact { h.toKept with stage := h.stage }
  | cancel => cases hr'
  | survey hbetween => exact (survey_surveys h hbetween hr).sound h hbetween
  | @grant g i check hwithin hturn hpermit hc =>
      obtain ⟨hdue, hnew, hproceeds⟩ :=
        h.grant_proceeds (hlimits i check rfl hc) hwithin hturn hc hr hr'
      exact hproceeds.sound { h.toKept with } ((h.group hwithin).call i) hnew hdue
  | @resume g g' i s hwithin hs =>
      obtain ⟨a, activity, rfl, -, hdue, hnew, hg', hproceeds⟩ :=
        h.resume_proceeds hwithin hs hr hr'
      exact hproceeds.sound h.toKept hg' hnew hdue
  | interrupt _ _ hcancelled => rw [hr] at hcancelled; cases hcancelled
  | close hwithin hwaiting hasleep =>
      exact close_sound h.toKept (h.group hwithin) hwaiting hasleep
  | collapse _ hbroken => rw [h.unbroken] at hbroken; cases hbroken

theorem Sound.step (h : r.Sound p hp) (hlimits : ∀ check ∈ p.checks, check.logic.limit ≠ .faulty)
    (hstep : Step p settings r e r') (hr' : r'.cancelled = false) : r'.Sound p hp :=
  h.step_of (fun _ check _ hc => hlimits check (List.mem_of_getElem? hc)) hstep hr'

theorem Sound.stepAll {es : List Event} (h : r.Sound p hp)
    (hlimits : ∀ check ∈ p.checks, check.logic.limit ≠ .faulty)
    (hsteps : r.stepAll? p settings es = some r') (hr' : r'.cancelled = false) :
    r'.Sound p hp := by
  refine preserved_stepAll (P := fun r => r.cancelled = false → r.Sound p hp) ?_ (fun _ => h)
    hsteps hr'
  intro r e r' h hstep hr'
  exact (h (not_cancelled_of_step hstep hr')).step hlimits hstep hr'

end Run

end Vetting
