import Vetting.Proofs.Run.Clock

/-!
# How long rules take

A rule that nothing cancels takes the time of its activity (`Activity.span`), cut off at its time
limit (`Plan.time`). If sleepers wake at the moment at which they are due (`Run.Exact`) and nothing
disturbs the run, every rule has its result recorded exactly as long after its start as the rule
takes, and that is the time which is measured (`Run.Timed`). The wait for a permit comes before the
start, and the order in which rules that wait get their permits has no say in it. A run against a
clock (`Run.Clocked`) is one of these, in which moreover permits go to the first that waits, and
time passes only while rules sleep and no rule that waits could have a permit.

`Run.Ticks` lists all that an event can do to such a run. Between an event and the next state there
may be a rule that is being carried on; `Run.Carrying` is the invariant at that moment.
-/

namespace Vetting

/-! ## The time of a rule -/

/-- The time that an activity takes if nothing cancels it. -/
def Activity.span : Activity → Nat
  | answer _ | crash _ => 0
  | cancelRun next => next.span
  | poll next => (next false).span
  | sleep millis _ next => millis + (next false).span

theorem Activity.span_burst {activity : Activity} (h : (activity.burst false).1 = false) :
    (activity.burst false).2.activity.span = activity.span := by
  induction activity with
  | answer | crash => rfl
  | cancelRun next => rw [burst, burst_of_cancelled] at h; cases h
  | poll next ih => exact ih false h
  | sleep millis deaf next ih =>
      cases millis with
      | succ millis => rfl
      | zero => rw [span, Nat.zero_add]; exact ih false h

/-- A time that is cut off at the limit. -/
def TimeLimit.cut (limit : TimeLimit) (millis : Nat) : Nat :=
  min millis (limit.millis?.getD millis)

namespace Plan

/-- The time that the rule of a check takes if nothing cancels it. -/
def time (p : Plan) (i : Nat) : Nat :=
  ((p.check? i).map fun check => check.logic.limit.cut (p.activityOf check).span).getD 0

/-- An application that has spent what its activity has taken so far, within the time limit. -/
structure Tracks (p : Plan) (a : Application) (activity : Activity) : Prop where
  exists_check : ∃ check, p.check? a.index = some check ∧ a.limit = check.logic.limit.millis? ∧
    a.spent + activity.span = (p.activityOf check).span
  in_time {n : Nat} (h : a.limit = some n) : a.spent ≤ n

theorem Tracks.time_eq {p : Plan} {a : Application} {activity : Activity}
    (h : p.Tracks a activity) :
    p.time a.index = min (a.spent + activity.span) (a.limit.getD (a.spent + activity.span)) := by
  obtain ⟨check, hc, hlimit, hspan⟩ := h.exists_check
  rw [time, hc, Option.map_some, Option.getD_some, TimeLimit.cut, hlimit, hspan]

end Plan

namespace Run

variable {p : Plan} {settings : Settings} {r r₀ r' : Run} {e : Event} {es : List Event}
  {g g' : Group} {a : Application} {activity : Activity}

/-! ## Undisturbed runs -/

/-- A run that was not cancelled, and in which no rule broke down outside its application. -/
structure Undisturbed (r : Run) : Prop where
  uncancelled : r.cancelled = false
  unbroken : r.broken = false
  uncrashed : r.ending? ≠ some .crashed

theorem ending?_of_step (h : Step p settings r e r') : r.ending? = none := by
  cases h with
  | pass _ hopen | cancel hopen => exact hopen
  | survey hstage | grant hstage | resume hstage | interrupt hstage | close hstage
  | collapse hstage => rw [ending?, hstage]

theorem Carried.broken {sleeps : Nat} (h : Carried settings r g a sleeps r') :
    r'.broken = r.broken := by
  cases h <;> rfl

/-- A run in which a rule has broken down does not recover. -/
theorem Step.broken (h : Step p settings r e r') (hr : r.broken = true) : r'.broken = true := by
  cases h.effect with
  | pass | cancel | turn | done | collapse => exact hr
  | survey _ houtlook => cases houtlook <;> exact hr
  | grant _ _ _ _ hgranted =>
      cases hgranted with
      | dropped | stopped | crashed => exact hr
      | broke => rfl
      | launched _ hcarried => exact hcarried.broken.trans hr
  | wake _ _ _ _ hcarried => exact hcarried.broken.trans hr

theorem Undisturbed.of_step (h : r'.Undisturbed) (hstep : Step p settings r e r') :
    r.Undisturbed := by
  refine ⟨not_cancelled_of_step hstep h.uncancelled, ?_, by rw [ending?_of_step hstep]; exact nofun⟩
  refine Bool.eq_false_iff.mpr fun hr => ?_
  exact Bool.false_ne_true (h.unbroken.symm.trans (hstep.broken hr))

/-! ## Carrying a rule on -/

/-- What carrying a rule on comes to: it ends after the time that it takes, or it falls asleep. -/
inductive Advances (p : Plan) (settings : Settings) (r : Run) (g : Group) (a : Application) :
    Run → Prop
  | ended (answer : Answer) (hspent : a.spent = p.time a.index) :
      Advances p settings r g a { r.finish settings g.phase a answer with stage := .within g }
  | asleep {s : Sleeper} (ha : s.toApplication = a) (hs : p.Tracks a s.activity) :
      Advances p settings r g a { r with stage := .within { g with asleep := g.asleep ++ [s] } }

theorem Advances.now (h : Advances p settings r g a r') : r'.now = r.now := by
  cases h <;> rfl

theorem Advances.waves (h : Advances p settings r g a r') : r'.waves = r.waves := by
  cases h <;> rfl

theorem proceed_advances (ha : p.Tracks a activity) (hr : r.cancelled = false)
    (hr' : (r.proceed settings g a activity).cancelled = false) :
    Advances p settings r g a (r.proceed settings g a activity) := by
  have hspan := activity.span_burst
  unfold proceed at hr' ⊢
  rw [hr] at hr' ⊢
  generalize activity.burst false = outcome at hr' hspan ⊢
  obtain ⟨cancelled, pause⟩ := outcome
  obtain rfl : cancelled = false := by cases pause <;> exact hr'
  obtain ⟨now, cancelled, broken, waves, pending, ledger, calls, stage⟩ := r
  obtain rfl : cancelled = false := hr
  have htracks : p.Tracks a pause.activity := ⟨by rw [hspan rfl]; exact ha.exists_check, ha.in_time⟩
  cases pause with
  | ended answer =>
      refine .ended answer ?_
      rw [htracks.time_eq, Pause.activity, Activity.span, Nat.add_zero]
      cases hlimit : a.limit with
      | none => simp
      | some n => simpa using ha.in_time hlimit
  | asleep millis deaf next => exact .asleep (s := { a with millis, deaf, next }) rfl htracks

/-- A sleep that nothing cuts short ends when it is due. -/
theorem resume_advances {s : Sleeper} (hs : p.Tracks s.toApplication s.activity)
    (hr : r.cancelled = false) (hr' : (r.resume settings g s).cancelled = false) :
    ∃ a, a.index = s.index ∧ a.since = s.since ∧ a.since + a.spent = s.due ∧
      Advances p settings r g a (r.resume settings g s) := by
  have htime := hs.time_eq
  have hspan : s.spent + s.activity.span = s.spent + s.millis + (s.next false).span :=
    (Nat.add_assoc _ _ _).symm
  rcases resume_cases settings r g s with ⟨n, hlimit, hlt, heq⟩ | ⟨hin, heq⟩
  · refine ⟨{ s.toApplication with spent := n }, rfl, rfl, ?_, ?_⟩
    · rw [Sleeper.due, hlimit]
      exact congrArg _ (Nat.min_eq_right (Nat.le_of_lt hlt)).symm
    · rw [heq]
      refine .ended _ ?_
      rw [hlimit, hspan, Option.getD_some, Nat.min_eq_right (by omega)] at htime
      exact htime.symm
  · refine ⟨{ s.toApplication with spent := s.spent + s.millis }, rfl, rfl, ?_, ?_⟩
    · rw [Sleeper.due]
      cases hlimit : s.limit with
      | none => simp
      | some n => exact congrArg _ (Nat.min_eq_left (hin n hlimit)).symm
    · rw [heq] at hr' ⊢
      refine proceed_advances ⟨?_, hin _⟩ hr hr'
      obtain ⟨check, hc, hlimit, hsum⟩ := hs.exists_check
      exact ⟨check, hc, hlimit, hspan.symm.trans hsum⟩

/-- In a run that stays undisturbed, a permit starts the rule of its check. -/
theorem grant_advances {i : Nat} {check : Check} (hc : p.check? i = some check)
    (hr : r.cancelled = false) (hr' : (r.grant p settings g i check).Undisturbed) :
    Advances p settings { r with calls := r.calls ++ [r.callOf g i] } g
      ⟨i, r.now, 0, check.logic.limit.millis?⟩ (r.grant p settings g i check) := by
  have hlimit : check.logic.limit ≠ .faulty := by
    intro hfaulty
    unfold grant at hr'
    rw [hr, hfaulty] at hr'
    cases hphase : g.phase with
    | concurrent =>
        rw [hphase] at hr'
        exact Bool.false_ne_true hr'.unbroken.symm
    | serial =>
        rw [hphase] at hr'
        exact hr'.uncrashed rfl
  rw [grant_eq g i hr hlimit] at hr' ⊢
  exact proceed_advances ⟨⟨check, hc, rfl, Nat.zero_add _⟩, fun _ => Nat.zero_le _⟩ hr
    hr'.uncancelled

/-! ## Runs against a clock -/

/-- Events that come at their moments: time does not pass beyond the moment at which a sleeper is
due, and no sleeper wakes before. -/
def Exact (r : Run) : Event → Prop
  | .pass millis => ∀ g, r.stage = .within g → ∀ s ∈ g.asleep, r.now + millis ≤ s.due
  | .resume i => ∀ g g' s, r.stage = .within g → g.take? i = some (s, g') → s.due ≤ r.now
  | _ => True

/-- Events that keep to a clock: besides, time passes only while rules sleep and no rule that waits
can have a permit, and permits go to the first that waits. -/
def Timely (settings : Settings) (r : Run) : Event → Prop
  | .pass millis => ∃ g, r.stage = .within g ∧ g.asleep ≠ [] ∧
      (∀ s ∈ g.asleep, r.now + millis ≤ s.due) ∧
      (g.waiting = [] ∨ permits settings g.phase ≤ g.asleep.length)
  | .grant i => ∃ g, r.stage = .within g ∧ g.waiting.head? = some i
  | .resume i => ∃ g g' s, r.stage = .within g ∧ g.take? i = some (s, g') ∧ s.due ≤ r.now
  | _ => True

theorem Timely.exact (h : r.Timely settings e) : r.Exact e := by
  cases e with
  | pass millis =>
      obtain ⟨g, hwithin, -, hdue, -⟩ := h
      intro g' hwithin'
      obtain rfl := Stage.within.inj (hwithin.symm.trans hwithin')
      exact hdue
  | resume i =>
      obtain ⟨g, g', s, hwithin, hs, hdue⟩ := h
      intro g₁ g₁' s₁ hwithin₁ hs₁
      obtain rfl := Stage.within.inj (hwithin.symm.trans hwithin₁)
      obtain ⟨rfl, -⟩ := Prod.mk.inj (Option.some.inj (hs.symm.trans hs₁))
      exact hdue
  | cancel | survey | grant | interrupt | close | collapse => trivial

/-- The events lead from one run to another, and each is one that `allows` lets happen. -/
inductive Led (allows : Run → Event → Prop) (p : Plan) (settings : Settings) (r₀ : Run) :
    List Event → Run → Prop
  | nil : Led allows p settings r₀ [] r₀
  | snoc {es : List Event} {r r' : Run} {e : Event} (h : Led allows p settings r₀ es r)
      (hallowed : allows r e) (hstep : Step p settings r e r') :
      Led allows p settings r₀ (es ++ [e]) r'

/-- A run against a clock. -/
def Clocked (p : Plan) (settings : Settings) : Run → List Event → Run → Prop :=
  Led (Timely settings) p settings

theorem Led.stepAll? {allows : Run → Event → Prop} (h : Led allows p settings r₀ es r) :
    r₀.stepAll? p settings es = some r := by
  induction h with
  | nil => rfl
  | snoc _ _ hstep ih =>
      exact stepAll?_append_eq_some.mpr
        ⟨_, ih, stepAll?_singleton.trans (step?_eq_some.mpr hstep)⟩

theorem Led.mono {allows allows' : Run → Event → Prop} (h : Led allows p settings r₀ es r)
    (hle : ∀ r e, allows r e → allows' r e) : Led allows' p settings r₀ es r := by
  induction h with
  | nil => exact .nil
  | snoc _ hallowed hstep ih => exact ih.snoc (hle _ _ hallowed) hstep

theorem Clocked.exact (h : Clocked p settings r₀ es r) : Led Exact p settings r₀ es r :=
  h.mono fun _ _ => Timely.exact

/-- In the course of `es`, check `i` has its result recorded at time `t`. -/
def RecordedAt (p : Plan) (settings : Settings) (r₀ : Run) (es : List Event) (i t : Nat) : Prop :=
  ∃ before e after r r', es = before ++ e :: after ∧ r₀.stepAll? p settings before = some r ∧
    r.step? p settings e = some r' ∧ r.ledger.contains i = false ∧ r'.ledger.contains i = true ∧
    r.now = t ∧ r'.now = t

theorem RecordedAt.append {i t : Nat} (h : RecordedAt p settings r₀ es i t) (es' : List Event) :
    RecordedAt p settings r₀ (es ++ es') i t := by
  obtain ⟨before, e, after, r, r', rfl, hfacts⟩ := h
  exact ⟨before, e, after ++ es', r, r', by simp, hfacts⟩

/-! ## The invariant -/

/-- A sleeper of a phase that has spent what its activity has taken, and is not overdue. -/
structure Awaits (r : Run) (p : Plan) (phase : Phase) (s : Sleeper) : Prop where
  tracks : p.Tracks s.toApplication s.activity
  due : r.now ≤ s.due
  call : (⟨s.index, phase, r.waves, s.since⟩ : Call) ∈ r.calls

/-- A result that was recorded, and measured if the settings ask for it, as long after the start of
its rule as the rule takes. -/
structure OnTime (p : Plan) (settings : Settings) (r₀ : Run) (es : List Event) (c : Call)
    (entry : Entry) : Prop where
  measurement : entry.measurement =
    if settings.measure then some ⟨.ofMillis (p.time c.index), c.phase == .concurrent⟩ else none
  recorded : RecordedAt p settings r₀ es c.index (c.millis + p.time c.index)

theorem OnTime.append {c : Call} {entry : Entry} (h : OnTime p settings r₀ es c entry)
    (es' : List Event) : OnTime p settings r₀ (es ++ es') c entry :=
  ⟨h.measurement, h.recorded.append es'⟩

structure Timed (r : Run) (p : Plan) (settings : Settings) (r₀ : Run) (es : List Event) :
    Prop where
  asleep {g : Group} (hwithin : r.stage = .within g) {s : Sleeper} (hs : s ∈ g.asleep) :
    r.Awaits p g.phase s
  recorded : ∀ c ∈ r.calls, ∀ entry, r.ledger.entry? c.index = some entry →
    OnTime p settings r₀ es c entry

/-- A run in which an application is carried on at the moment up to which it has spent its time. -/
structure Carrying (r : Run) (p : Plan) (settings : Settings) (r₀ : Run) (es : List Event)
    (g : Group) (a : Application) : Prop extends r.Applies p settings g a.index where
  now_eq : r.now = a.since + a.spent
  call : (⟨a.index, g.phase, r.waves, a.since⟩ : Call) ∈ r.calls
  asleep {s : Sleeper} (hs : s ∈ g.asleep) : r.Awaits p g.phase s
  recorded : ∀ c ∈ r.calls, ∀ entry, r.ledger.entry? c.index = some entry →
    OnTime p settings r₀ es c entry

theorem Books.call_unique (h : r.Books p) {c c' : Call} (hc : c ∈ r.calls) (hc' : c' ∈ r.calls)
    (heq : c.index = c'.index) : c = c' :=
  List.inj_on_of_nodup_map h.once hc hc' heq

/-- `hrecords` says that an entry of the application is one of event `e`. -/
theorem Advances.timed (h : Advances p settings r g a r')
    (hr : r.Carrying p settings r₀ es g a)
    (hrecords : r'.ledger.contains a.index = true →
      RecordedAt p settings r₀ (es ++ [e]) a.index r.now) :
    r'.Timed p settings r₀ (es ++ [e]) := by
  have hopen := hr.admissible.isOpen
  cases h with
  | ended answer hspent =>
      refine ⟨fun {g'} hwithin {s} hs => ?_, fun c hc entry he => ?_⟩
      · cases hwithin
        exact ⟨(hr.asleep hs).tracks, (hr.asleep hs).due, (hr.asleep hs).call⟩
      · replace he := (Ledger.entry?_record hopen _ _).symm.trans he
        split at he
        · rename_i heq
          obtain rfl := hr.call_unique hc hr.call heq
          obtain rfl := Option.some.inj he
          refine ⟨by rw [hspent], ?_⟩
          rw [← hspent, ← hr.now_eq]
          exact hrecords (Ledger.contains_record_self _ _ _)
        · exact (hr.recorded c hc entry he).append [e]
  | @asleep s ha hs =>
      subst ha
      refine ⟨fun {g'} hwithin {s'} hs' => ?_, fun c hc entry he =>
        (hr.recorded c hc entry he).append [e]⟩
      cases hwithin
      rcases List.mem_append.mp hs' with hs' | hs'
      · exact ⟨(hr.asleep hs').tracks, (hr.asleep hs').due, (hr.asleep hs').call⟩
      · obtain rfl := List.mem_singleton.mp hs'
        refine ⟨hs, ?_, hr.call⟩
        show r.now ≤ _
        rw [hr.now_eq, Sleeper.due]
        refine Nat.add_le_add_left (Nat.le_min.mpr ⟨Nat.le_add_right _ _, ?_⟩) _
        cases hlimit : s'.limit with
        | none => exact Nat.le_add_right _ _
        | some n => exact hs.in_time hlimit

/-! ## What events do -/

/-- What an event that comes at its moment does to a run that stays undisturbed. -/
inductive Ticks (p : Plan) (settings : Settings) (r : Run) : Event → Run → Prop
  | pass {millis : Nat}
      (hdue : ∀ g, r.stage = .within g → ∀ s ∈ g.asleep, r.now + millis ≤ s.due) :
      Ticks p settings r (.pass millis) { r with now := r.now + millis }
  | survey {r' : Run} (hbetween : r.stage = .between) (houtlook : Outlook p settings r r') :
      Ticks p settings r .survey r'
  | start {g : Group} {i : Nat} {limit : Option Nat} {r' : Run} (hwithin : r.stage = .within g)
      (hturn : g.mayCall i = true) (hpermit : g.asleep.length < permits settings g.phase)
      (hadvances : Advances p settings { r with calls := r.calls ++ [r.callOf (g.call i) i] }
        (g.call i) ⟨i, r.now, 0, limit⟩ r') : Ticks p settings r (.grant i) r'
  | wake {g g' : Group} {i : Nat} {s : Sleeper} {a : Application} {r' : Run}
      (hwithin : r.stage = .within g) (hs : g.take? i = some (s, g')) (hindex : a.index = s.index)
      (hsince : a.since = s.since) (hnow : r.now = a.since + a.spent)
      (hadvances : Advances p settings r g' a r') : Ticks p settings r (.resume i) r'
  | turn {g : Group} (hwithin : r.stage = .within g) (hphase : g.phase = .concurrent)
      (hwaiting : g.waiting = []) (hasleep : g.asleep = []) :
      Ticks p settings r .close
        { r with stage := .within { phase := .serial, waiting := g.serial } }
  | done {g : Group} (hwithin : r.stage = .within g) (hphase : g.phase = .serial)
      (hwaiting : g.waiting = []) (hasleep : g.asleep = []) :
      Ticks p settings r .close
        { r with pending := r.pending.filter (!r.ledger.contains ·), stage := .between }

theorem Timed.ticks (h : r.Timed p settings r₀ es) (hexact : r.Exact e)
    (hstep : Step p settings r e r') (hr' : r'.Undisturbed) : Ticks p settings r e r' := by
  have hr := hr'.of_step hstep
  cases hstep with
  | pass millis => exact .pass hexact
  | cancel => exact absurd hr'.uncancelled (by simp)
  | survey hbetween => exact .survey hbetween (survey_outlook p settings r)
  | @grant g i check hwithin hturn hpermit hc =>
      exact .start hwithin hturn hpermit (grant_advances hc hr.uncancelled hr')
  | @resume g g' i s hwithin hs =>
      have hdue := hexact g g' s hwithin hs
      have hawaits := h.asleep hwithin (Group.take?_eq_some hs).1
      obtain ⟨a, hindex, hsince, hspent, hadvances⟩ :=
        resume_advances hawaits.tracks hr.uncancelled hr'.uncancelled
      exact .wake hwithin hs hindex hsince
        (Nat.le_antisymm (hspent ▸ hawaits.due) (hspent ▸ hdue)) hadvances
  | interrupt _ _ hcancelled => rw [hr.uncancelled] at hcancelled; cases hcancelled
  | @close g hwithin hwaiting hasleep =>
      unfold Run.close
      cases hphase : g.phase with
      | concurrent => exact .turn hwithin hphase hwaiting hasleep
      | serial => exact .done hwithin hphase hwaiting hasleep
  | collapse _ hbroken => rw [hr.unbroken] at hbroken; cases hbroken

/-! ## Every step keeps the time -/

theorem Timed.start (p : Plan) (settings : Settings) (cancelled : Bool) :
    (start p settings cancelled).Timed p settings (Run.start p settings cancelled) [] :=
  ⟨fun hwithin => absurd hwithin (start_stage_ne p settings cancelled _), nofun⟩

/-- A rule that starts has spent no time. -/
theorem Timed.carrying_start {i : Nat} (h : r.Timed p settings r₀ es) (hr : r.Regular p settings)
    (hwithin : r.stage = .within g) (hturn : g.mayCall i = true)
    (hpermit : g.asleep.length < permits settings g.phase) (limit : Option Nat) :
    ({ r with calls := r.calls ++ [r.callOf (g.call i) i] } : Run).Carrying p settings r₀ es
      (g.call i) ⟨i, r.now, 0, limit⟩ := by
  have happlies := hr.applies_grant hwithin hturn hpermit
  refine { happlies with
    now_eq := rfl, call := List.mem_append_right _ List.mem_cons_self,
    asleep := fun {s} hs => ?_, recorded := fun c hc entry he => ?_ }
  · have hawaits := h.asleep hwithin (s := s) hs
    exact ⟨hawaits.tracks, hawaits.due, List.mem_append_left _ hawaits.call⟩
  · rcases List.mem_append.mp hc with hc | hc
    · exact h.recorded c hc entry he
    · obtain rfl := List.mem_singleton.mp hc
      have hnone := Ledger.contains_eq_false.mp happlies.admissible.isOpen
      exact nomatch hnone.symm.trans he

theorem Timed.carrying_wake {i : Nat} {s : Sleeper} (h : r.Timed p settings r₀ es)
    (hr : r.Regular p settings) (hwithin : r.stage = .within g) (hs : g.take? i = some (s, g'))
    (hindex : a.index = s.index) (hsince : a.since = s.since) (hnow : r.now = a.since + a.spent) :
    r.Carrying p settings r₀ es g' a := by
  obtain ⟨hasleep, hi, hg'⟩ := Group.take?_eq_some hs
  have happlies : r.Applies p settings g' a.index :=
    (hindex.trans hi).symm ▸ hr.applies_take hwithin hs
  subst hg'
  refine { happlies with
    now_eq := hnow, call := ?_, asleep := fun {s'} hs' => ?_, recorded := h.recorded }
  · rw [hindex, hsince]
    exact (h.asleep hwithin hasleep).call
  · exact h.asleep hwithin (List.mem_of_mem_filter hs')

theorem Timed.step (h : r.Timed p settings r₀ es) (hr : r.Regular p settings)
    (hrun : r₀.stepAll? p settings es = some r) (hexact : r.Exact e)
    (hstep : Step p settings r e r') (hr' : r'.Undisturbed) :
    r'.Timed p settings r₀ (es ++ [e]) := by
  have hkept : ∀ c ∈ r.calls, ∀ entry, r.ledger.entry? c.index = some entry →
      OnTime p settings r₀ (es ++ [e]) c entry := fun c hc entry he =>
    (h.recorded c hc entry he).append [e]
  have hrecords : ∀ {i}, r.ledger.contains i = false → r'.now = r.now →
      r'.ledger.contains i = true → RecordedAt p settings r₀ (es ++ [e]) i r.now :=
    fun hopen hnow hdone =>
      ⟨es, e, [], r, r', rfl, hrun, step?_eq_some.mpr hstep, hopen, hdone, rfl, hnow⟩
  cases h.ticks hexact hstep hr' with
  | pass hdue =>
      refine ⟨fun {g} hwithin {s} hs => ?_, hkept⟩
      have hawaits := h.asleep hwithin hs
      exact ⟨hawaits.tracks, hdue g hwithin s hs, hawaits.call⟩
  | survey hbetween houtlook =>
      -- What a survey settles was never started.
      have hcalls : ∀ c ∈ r.calls, ∀ entry, (r.settled p).ledger.entry? c.index = some entry →
          OnTime p settings r₀ (es ++ [.survey]) c entry := by
        intro c hc entry he
        obtain ⟨entry', he'⟩ := Ledger.contains_iff.mp ((hr.between hbetween).2.2 c hc)
        have hbelow := (Plan.settle_settles p r.pending r.ledger).below _ _ he'
        obtain rfl := Option.some.inj (hbelow.symm.trans he)
        exact hkept c hc entry' he'
      cases houtlook with
      | finished | cancelled => exact ⟨nofun, hkept⟩
      | settled =>
          refine ⟨fun hwithin => ?_, hcalls⟩
          exact nomatch hbetween.symm.trans hwithin
      | stalled => exact ⟨nofun, hcalls⟩
      | wave =>
          refine ⟨fun {g} hwithin {s} hs => ?_, hcalls⟩
          cases hwithin
          cases hs
  | @start _ _ limit _ hwithin hturn hpermit hadvances =>
      have hcarrying := h.carrying_start hr hwithin hturn hpermit limit
      exact hadvances.timed hcarrying (hrecords hcarrying.admissible.isOpen hadvances.now)
  | wake hwithin hs hindex hsince hnow hadvances =>
      have hcarrying := h.carrying_wake hr hwithin hs hindex hsince hnow
      exact hadvances.timed hcarrying (hrecords hcarrying.admissible.isOpen hadvances.now)
  | turn =>
      refine ⟨fun {g} hwithin {s} hs => ?_, hkept⟩
      cases hwithin
      cases hs
  | done => exact ⟨nofun, hkept⟩

/-- If sleepers wake when they are due and nothing disturbs the run, every rule takes its time. -/
theorem Led.timed {cancelled : Bool} (h : Led Exact p settings (start p settings cancelled) es r)
    (hr : r.Undisturbed) : r.Timed p settings (start p settings cancelled) es := by
  induction h with
  | nil => exact .start p settings cancelled
  | snoc h hexact hstep ih =>
      have hregular := (start_regular p settings cancelled).stepAll h.stepAll?
      exact (ih (hr.of_step hstep)).step hregular h.stepAll? hexact hstep hr

/-- At the end of such a run, every rule that was started has its result. -/
theorem Led.contains_of_over {cancelled : Bool}
    (h : Led Exact p settings (start p settings cancelled) es r) (hr : r.Undisturbed)
    (hover : r.ending? ≠ none) : ∀ c ∈ r.calls, r.ledger.contains c.index = true := by
  cases h with
  | nil => exact nofun
  | snoc h hexact hstep =>
      have hregular := (start_regular p settings cancelled).stepAll h.stepAll?
      cases (h.timed (hr.of_step hstep)).ticks hexact hstep hr with
      | pass => exact absurd (ending?_of_step hstep) hover
      | survey hbetween houtlook =>
          have hcalls := (hregular.between hbetween).2.2
          cases houtlook with
          | finished | cancelled => exact hcalls
          | stalled =>
              exact fun c hc => (Plan.settle_settles p _ _).below.contains (hcalls c hc)
          | settled => exact absurd (by rw [ending?, settled, hbetween]) hover
          | wave => exact absurd rfl hover
      | start _ _ _ hadvances | wake _ _ _ _ _ hadvances =>
          cases hadvances <;> exact absurd rfl hover
      | turn | done => exact absurd rfl hover

/-! ## The clock -/

theorem le_of_nextDue {first : Option Nat} {asleep : List Sleeper} {t : Nat}
    (h : nextDue first asleep = some t) :
    (∀ n, first = some n → t ≤ n) ∧ ∀ s ∈ asleep, t ≤ s.due := by
  induction asleep generalizing first with
  | nil =>
      obtain rfl : first = some t := h
      exact ⟨fun n hn => Nat.le_of_eq (Option.some.inj hn), nofun⟩
  | cons s asleep ih =>
      obtain ⟨hfirst, hrest⟩ := ih h
      have hmin := hfirst _ rfl
      refine ⟨fun n hn => ?_, List.forall_mem_cons.mpr ⟨by omega, hrest⟩⟩
      rw [hn, Option.getD_some] at hmin
      omega

/-- All that the clock does is timely. -/
theorem timely_of_next? {cancelAt : Option Nat} (hr : r.Regular p settings)
    (h : r.next? settings cancelAt = some e) : r.Timely settings e := by
  unfold next? at h
  dsimp only at h
  generalize (if r.cancelled = true then none else cancelAt) = coming at h
  generalize (coming.any fun t => decide (t ≤ r.now)) = cancelDue at h
  cases hs : r.stage with
  | ended => simp [hs] at h
  | between =>
      simp only [hs, Option.some.injEq] at h
      subst h
      split <;> trivial
  | within g =>
      have hnodup := (hr.tends hs).group.nodup
      simp only [hs] at h
      split at h
      · rename_i s hfind
        cases h
        have htake := take?_of_mem hnodup (List.mem_of_find?_eq_some hfind)
        exact ⟨g, _, s, hs, htake, by simpa using List.find?_some hfind⟩
      rename_i hawake
      split at h
      · cases h
        trivial
      split at h
      · cases h
        trivial
      split at h
      · rename_i i hwaiting
        cases h
        exact ⟨g, hs, (Option.filter_eq_some_iff.mp hwaiting).1⟩
      rename_i hfull
      split at h
      · cases h
        trivial
      split at h
      · cases h
        trivial
      rename_i hasleep
      obtain ⟨t, ht, rfl⟩ := Option.map_eq_some_iff.mp h
      refine ⟨g, hs, mt List.isEmpty_iff.mpr hasleep, fun s hmem => ?_, ?_⟩
      · have hlate := (le_of_nextDue ht).2 s hmem
        have hsoon := List.find?_eq_none.mp hawake s hmem
        simp only [decide_eq_true_eq] at hsoon
        omega
      · cases hw : g.waiting with
        | nil => exact .inl rfl
        | cons i rest => exact .inr (by simpa [hw] using hfull)

/-- What is played to a run against the clock is what comes next each time. -/
theorem exists_led_play (hr : r₀.Regular p settings) (cancelAt : Option Nat) (steps : Nat)
    (h : Led (fun r e => r.Timely settings e ∧ r.next? settings cancelAt = some e) p settings r₀ es
      r) :
    ∃ es', Led (fun r e => r.Timely settings e ∧ r.next? settings cancelAt = some e) p settings r₀
      es' (r.play p settings cancelAt steps) := by
  induction steps generalizing es r with
  | zero => exact ⟨es, h⟩
  | succ steps ih =>
      rw [play]
      cases hnext : (r.next? settings cancelAt).bind (r.step? p settings) with
      | none => exact ⟨es, h⟩
      | some r' =>
          obtain ⟨e, he, hstep⟩ := Option.bind_eq_some_iff.mp hnext
          have htimely := timely_of_next? (hr.stepAll h.stepAll?) he
          exact ih (h.snoc ⟨htimely, he⟩ (step?_eq_some.mp hstep))

/-- The run of a plan to its end is one against a clock. -/
theorem exists_clocked_complete (p : Plan) (settings : Settings) (cancelled : Bool)
    (cancelAt : Option Nat) :
    ∃ es, Clocked p settings (start p settings cancelled) es
      (complete p settings cancelled cancelAt) := by
  obtain ⟨es, h⟩ := exists_led_play (start_regular p settings cancelled) cancelAt _ .nil
  exact ⟨es, h.mono fun _ _ => And.left⟩

theorem next?_ne_cancel (settings : Settings) (r : Run) : r.next? settings none ≠ some .cancel := by
  unfold next?
  cases r.stage with
  | ended => exact nofun
  | between => simp
  | within g =>
      simp only [ite_self, Option.any_none, Bool.false_eq_true, if_false]
      split
      · exact nofun
      split
      · exact nofun
      split
      · exact nofun
      split
      · exact nofun
      split
      · exact nofun
      · simp

theorem Led.forall_mem {allows : Run → Event → Prop} {P : Event → Prop}
    (h : Led allows p settings r₀ es r) (hP : ∀ r e, allows r e → P e) : ∀ e ∈ es, P e := by
  induction h with
  | nil => exact nofun
  | snoc _ hallowed _ ih =>
      intro e he
      rcases List.mem_append.mp he with he | he
      · exact ih e he
      · exact List.mem_singleton.mp he ▸ hP _ _ hallowed

/-- If no cancellation from outside is to come, there is none. -/
theorem exists_clocked_uncalled (p : Plan) (settings : Settings) :
    ∃ es, Clocked p settings (start p settings false) es (complete p settings false none) ∧
      .cancel ∉ es := by
  obtain ⟨es, h⟩ := exists_led_play (start_regular p settings false) none (eventBound p) .nil
  refine ⟨es, h.mono fun _ _ => And.left, fun hmem => ?_⟩
  refine h.forall_mem (P := (· ≠ .cancel)) (fun r e he heq => ?_) _ hmem rfl
  exact next?_ne_cancel settings r (heq ▸ he.2)

end Run

/-- Rules that take the time which the manifest sets. -/
def delayRules : RuleRegistry := RuleRegistry.empty.register "delay" (StockRule.factory {} .delay)

end Vetting
