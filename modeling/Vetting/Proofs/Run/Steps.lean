import Vetting.Proofs.Run.Settling
import Vetting.Run.Waves

/-!
# What each event does to a run

`Run.step?_eq_some` says which events can occur in which states. What comes of an event hangs on
the rule that is carried on, on its time limit and on whether the run is cancelled: `Run.Carried`,
`Run.Granted` and `Run.Outlook` list all that can come of carrying a rule on, of a permit and of a
survey, and `Run.Effect` of any event, in every run, cancelled or not. A run with more permits than
there can be is over at its start, and nothing comes of it (`Run.eq_start_of_permits`).
-/

namespace Vetting

/-! ## Results -/

namespace Result

/-- A rule that was started never ends as one of which a dependency failed. -/
theorem outcome_ofAnswer_ne (answer : Answer) : (ofAnswer answer).outcome ≠ .dependencyFailed := by
  match answer with
  | .error _ => nofun
  | .ok ⟨true, _⟩ => nofun
  | .ok ⟨false, _⟩ => nofun

/-- An error goes with the outcome that says so, and with no other. -/
theorem isSome_error? (result : Result) :
    result.error?.isSome = true ↔ result.outcome = .errored := by
  match result with
  | errored _ => exact iff_of_true rfl rfl
  | dependencyFailed | found ⟨true, _⟩ | found ⟨false, _⟩ => exact iff_of_false nofun nofun

end Result

/-! ## Activities -/

/-- The activity that is left at a pause. -/
def Pause.activity : Pause → Activity
  | .ended a => .answer a
  | .asleep millis deaf next => .sleep millis deaf next

def Sleeper.activity (s : Sleeper) : Activity := .sleep s.millis s.deaf s.next

theorem Sleeper.sleeps_next_lt (s : Sleeper) (interrupted : Bool) :
    (s.next interrupted).sleeps < s.activity.sleeps := by
  cases interrupted with
  | false => exact Nat.lt_succ_of_le (Nat.le_max_right _ _)
  | true => exact Nat.lt_succ_of_le (Nat.le_max_left _ _)

namespace Activity

theorem burst_of_cancelled (activity : Activity) : (activity.burst true).1 = true := by
  induction activity with
  | answer | crash => rfl
  | cancelRun next ih => exact ih
  | poll next ih => exact ih true
  | sleep millis deaf next ih =>
      cases millis with
      | zero => exact ih false
      | succ millis => rfl

/-- An activity that is carried on to its next pause has no more sleeps ahead than before. -/
theorem sleeps_burst (activity : Activity) (cancelled : Bool) :
    (activity.burst cancelled).2.activity.sleeps ≤ activity.sleeps := by
  induction activity generalizing cancelled with
  | answer | crash => exact Nat.le_refl _
  | cancelRun next ih => exact ih true
  | poll next ih =>
      refine Nat.le_trans (ih cancelled cancelled) ?_
      cases cancelled with
      | false => exact Nat.le_max_right _ _
      | true => exact Nat.le_max_left _ _
  | sleep millis deaf next ih =>
      cases millis with
      | succ millis => exact Nat.le_refl _
      | zero => exact Nat.le_trans (ih false cancelled) (Nat.le_succ_of_le (Nat.le_max_right _ _))

end Activity

/-! ## Groups -/

/-- The checks that a group has not done with and those that come after it. -/
def Group.ahead (g : Group) : List Nat := g.waiting ++ g.asleep.map (·.index) ++ g.serial

namespace Group

variable {g g' : Group} {i j : Nat} {s : Sleeper}

theorem mem_ahead :
    i ∈ g.ahead ↔ i ∈ g.waiting ∨ (∃ s ∈ g.asleep, s.index = i) ∨ i ∈ g.serial := by
  simp [ahead]

theorem mem_waiting_of_mayCall (h : g.mayCall i = true) : i ∈ g.waiting := by
  unfold mayCall at h
  split at h
  · simpa using h
  · exact List.mem_of_head? (by simpa using h)

/-- It can always be the turn of the first check that waits. -/
theorem mayCall_of_head? (h : g.waiting.head? = some i) : g.mayCall i = true := by
  unfold mayCall
  cases g.phase with
  | concurrent => exact List.contains_iff_mem.mpr (List.mem_of_head? h)
  | serial => exact beq_iff_eq.mpr h

theorem take?_eq_some (h : g.take? i = some (s, g')) :
    s ∈ g.asleep ∧ s.index = i ∧ g' = { g with asleep := g.asleep.filter (·.index != i) } := by
  obtain ⟨s', hs, heq⟩ := Option.map_eq_some_iff.mp h
  obtain ⟨rfl, rfl⟩ := Prod.mk.inj heq
  exact ⟨List.mem_of_find?_eq_some hs, by simpa using List.find?_some hs, rfl⟩

/-- What comes after a group that is done makes up the next. -/
theorem ahead_turn (hwaiting : g.waiting = []) (hasleep : g.asleep = []) :
    ({ phase := .serial, waiting := g.serial } : Group).ahead = g.ahead := by
  simp [ahead, hwaiting, hasleep]

theorem ahead_call_sublist : (g.call i).ahead.Sublist g.ahead :=
  ((List.erase_sublist).append (List.Sublist.refl _)).append (List.Sublist.refl _)

theorem ahead_awake_sublist :
    ({ g with asleep := g.asleep.filter (·.index != i) } : Group).ahead.Sublist g.ahead :=
  ((List.Sublist.refl _).append (List.filter_sublist.map _)).append (List.Sublist.refl _)

/-- What leaves a group is nowhere else in it. -/
theorem not_mem_ahead_call (h : g.ahead.Nodup) (hi : i ∈ g.waiting) : i ∉ (g.call i).ahead := by
  intro hmem
  rw [ahead, List.append_assoc] at h
  obtain ⟨hwaiting, -, hdisjoint⟩ := List.nodup_append.mp h
  rw [ahead, List.append_assoc] at hmem
  rcases List.mem_append.mp hmem with hmem | hmem
  · exact hwaiting.not_mem_erase hmem
  · exact hdisjoint i hi i hmem rfl

theorem not_mem_ahead_awake (h : g.ahead.Nodup) (hs : s ∈ g.asleep) (hi : s.index = i) :
    i ∉ ({ g with asleep := g.asleep.filter (·.index != i) } : Group).ahead := by
  intro hmem
  have hasleep : i ∈ g.asleep.map (·.index) := List.mem_map.mpr ⟨s, hs, hi⟩
  obtain ⟨hboth, -, hserial⟩ := List.nodup_append.mp h
  obtain ⟨-, -, hwaiting⟩ := List.nodup_append.mp hboth
  rcases mem_ahead.mp hmem with hmem | ⟨s', hs', heq⟩ | hmem
  · exact hwaiting i hmem i hasleep rfl
  · have := (List.mem_filter.mp hs').2
    simp [heq] at this
  · exact hserial i (List.mem_append_right _ hasleep) i hmem rfl

theorem ahead_sleep_perm (g : Group) (s : Sleeper) :
    ({ g with asleep := g.asleep ++ [s] } : Group).ahead.Perm (s.index :: g.ahead) := by
  simp only [ahead, List.map_append, List.map_cons, List.map_nil, List.append_assoc,
    List.singleton_append]
  rw [← List.append_assoc, ← List.append_assoc]
  exact List.perm_middle

theorem mem_ahead_sleep :
    i ∈ ({ g with asleep := g.asleep ++ [s] } : Group).ahead ↔ i = s.index ∨ i ∈ g.ahead :=
  (g.ahead_sleep_perm s).mem_iff.trans List.mem_cons

theorem nodup_ahead_sleep (h : g.ahead.Nodup) (hnew : s.index ∉ g.ahead) :
    ({ g with asleep := g.asleep ++ [s] } : Group).ahead.Nodup :=
  (g.ahead_sleep_perm s).nodup_iff.mpr (List.nodup_cons.mpr ⟨hnew, h⟩)

end Group

/-! ## Steps -/

namespace Run

/-- What each event does to a run, and in which states it can occur. -/
inductive Step (p : Plan) (settings : Settings) (r : Run) : Event → Run → Prop
  | pass (millis : Nat) (hopen : r.ending? = none) :
      Step p settings r (.pass millis) { r with now := r.now + millis }
  | cancel (hopen : r.ending? = none) : Step p settings r .cancel { r with cancelled := true }
  | survey (h : r.stage = .between) : Step p settings r .survey (r.survey p settings)
  | grant {g : Group} {i : Nat} {check : Check} (h : r.stage = .within g)
      (hturn : g.mayCall i = true) (hpermit : g.asleep.length < permits settings g.phase)
      (hc : p.check? i = some check) :
      Step p settings r (.grant i) (r.grant p settings (g.call i) i check)
  | resume {g g' : Group} {i : Nat} {s : Sleeper} (h : r.stage = .within g)
      (hs : g.take? i = some (s, g')) : Step p settings r (.resume i) (r.resume settings g' s)
  | interrupt {g g' : Group} {i : Nat} {s : Sleeper} (h : r.stage = .within g)
      (hs : g.take? i = some (s, g')) (hcancelled : r.cancelled = true) (hdeaf : s.deaf = false) :
      Step p settings r (.interrupt i) (r.interrupt settings g' s)
  | close {g : Group} (h : r.stage = .within g) (hwaiting : g.waiting = [])
      (hasleep : g.asleep = []) (hbroken : r.broken = false) : Step p settings r .close (r.close g)
  | collapse {g : Group} (h : r.stage = .within g) (hbroken : r.broken = true) :
      Step p settings r .collapse { r with stage := .ended .taskFailed }

variable {p : Plan} {settings : Settings} {r r' : Run} {e : Event} {g : Group}

theorem step_of_step? (h : r.step? p settings e = some r') : Step p settings r e r' := by
  unfold step? at h
  split at h
  · cases h
  · rename_i hstage
    cases h
    refine .pass _ ?_
    unfold ending?
    split
    · exact absurd ‹_› (hstage _)
    · rfl
  · rename_i hstage
    cases h
    refine .cancel ?_
    unfold ending?
    split
    · exact absurd ‹_› (hstage _)
    · rfl
  · rename_i hstage
    cases h
    exact .survey hstage
  · rename_i g i hstage
    split at h
    · rename_i htest
      obtain ⟨hturn, hpermit⟩ := Bool.and_eq_true _ _ ▸ htest
      obtain ⟨check, hc, rfl⟩ := Option.map_eq_some_iff.mp h
      exact .grant hstage hturn (of_decide_eq_true hpermit) hc
    · cases h
  · rename_i g i hstage
    obtain ⟨⟨s, g'⟩, hs, rfl⟩ := Option.map_eq_some_iff.mp h
    exact .resume hstage hs
  · rename_i g i hstage
    obtain ⟨⟨s, g'⟩, hs, h⟩ := Option.bind_eq_some_iff.mp h
    dsimp only at h
    split at h
    · rename_i htest
      cases h
      obtain ⟨hcancelled, hdeaf⟩ := Bool.and_eq_true _ _ ▸ htest
      exact .interrupt hstage hs hcancelled (by simpa using hdeaf)
    · cases h
  · rename_i g hstage
    split at h
    · rename_i htest
      cases h
      simp only [Bool.and_eq_true, List.isEmpty_iff, Bool.not_eq_true'] at htest
      exact .close hstage htest.1.1 htest.1.2 htest.2
    · cases h
  · rename_i g hstage
    split at h
    · cases h
      exact .collapse hstage ‹_›
    · cases h
  · cases h

theorem step?_of_step (h : Step p settings r e r') : r.step? p settings e = some r' := by
  unfold step?
  cases h with
  | pass _ hopen | cancel hopen =>
      unfold ending? at hopen
      cases hs : r.stage <;> simp_all
  | survey h => simp only [h]
  | grant h hturn hpermit hc => simp only [h, hturn, hpermit, hc, decide_true, Bool.and_self,
      if_true, Option.map_some]
  | resume h hs => simp only [h, hs, Option.map_some]
  | interrupt h hs hcancelled hdeaf => simp [h, hs, hcancelled, hdeaf]
  | close h hwaiting hasleep hbroken => simp [h, hwaiting, hasleep, hbroken]
  | collapse h hbroken => simp [h, hbroken]

theorem step?_eq_some : r.step? p settings e = some r' ↔ Step p settings r e r' :=
  ⟨step_of_step?, step?_of_step⟩

/-! ## Carrying a rule on -/

/-- What comes of carrying a rule on: it ends, or it falls asleep with at most `sleeps` sleeps
ahead. Either way the run may have been cancelled. -/
inductive Carried (settings : Settings) (r : Run) (g : Group) (a : Application) (sleeps : Nat) :
    Run → Prop
  | ended (cancelled : Bool) (hkeeps : r.cancelled = true → cancelled = true) (answer : Answer) :
      Carried settings r g a sleeps
        { ({ r with cancelled } : Run).finish settings g.phase a answer with stage := .within g }
  | asleep (cancelled : Bool) (hkeeps : r.cancelled = true → cancelled = true) {s : Sleeper}
      (ha : s.toApplication = a) (hsleeps : s.activity.sleeps ≤ sleeps) :
      Carried settings r g a sleeps
        { r with cancelled, stage := .within { g with asleep := g.asleep ++ [s] } }

theorem proceed_carried (settings : Settings) (r : Run) (g : Group) (a : Application)
    (activity : Activity) :
    Carried settings r g a activity.sleeps (r.proceed settings g a activity) := by
  have hkeeps : r.cancelled = true → (activity.burst r.cancelled).1 = true := fun hr =>
    hr ▸ activity.burst_of_cancelled
  have hsleeps := activity.sleeps_burst r.cancelled
  unfold proceed
  generalize activity.burst r.cancelled = outcome at hkeeps hsleeps
  obtain ⟨cancelled, pause⟩ := outcome
  cases pause with
  | ended answer => exact .ended cancelled hkeeps answer
  | asleep millis deaf next =>
      exact .asleep cancelled hkeeps (s := { a with millis, deaf, next }) rfl hsleeps

/-- The two ways in which a sleep ends that nothing cuts short: the time limit comes first, or the
sleeper is carried on. -/
theorem resume_cases (settings : Settings) (r : Run) (g : Group) (s : Sleeper) :
    (∃ n, s.limit = some n ∧ n < s.spent + s.millis ∧
      r.resume settings g s =
        { r.finish settings g.phase { s.toApplication with spent := n }
            (.error (.timeout (.ofMillis n))) with stage := .within g }) ∨
      (∀ n, s.limit = some n → s.spent + s.millis ≤ n) ∧
        r.resume settings g s =
          r.proceed settings g { s.toApplication with spent := s.spent + s.millis }
            (s.next false) := by
  unfold resume
  cases hover : s.overruns with
  | true =>
      obtain ⟨n, hlimit, hlt⟩ := (Option.any_eq_true _ _).mp hover
      exact .inl ⟨n, hlimit, of_decide_eq_true hlt, by rw [hlimit]⟩
  | false =>
      refine .inr ⟨fun n hlimit => ?_, rfl⟩
      simpa [Sleeper.overruns, hlimit] using hover

/-- A sleeper that wakes is carried on with fewer sleeps ahead. -/
theorem resume_carried (settings : Settings) (r : Run) (g : Group) (s : Sleeper) :
    ∃ a sleeps, a.index = s.index ∧ sleeps < s.activity.sleeps ∧
      Carried settings r g a sleeps (r.resume settings g s) := by
  rcases resume_cases settings r g s with ⟨n, -, -, heq⟩ | ⟨-, heq⟩
  · rw [heq]
    exact ⟨{ s.toApplication with spent := n }, 0, rfl, Nat.succ_pos _, .ended r.cancelled id _⟩
  · rw [heq]
    exact ⟨{ s.toApplication with spent := s.spent + s.millis }, _, rfl, s.sleeps_next_lt false,
      proceed_carried settings r g _ _⟩

/-- So is one whose sleep is cut short. -/
theorem interrupt_carried (settings : Settings) (r : Run) (g : Group) (s : Sleeper) :
    ∃ a sleeps, a.index = s.index ∧ sleeps < s.activity.sleeps ∧
      Carried settings r g a sleeps (r.interrupt settings g s) :=
  ⟨{ s.toApplication with spent := r.now - s.since }, _, rfl, s.sleeps_next_lt true,
    proceed_carried settings r g _ _⟩

/-! ## Permits -/

/-- The call of a check that starts. -/
def callOf (r : Run) (g : Group) (i : Nat) : Call :=
  { index := i, phase := g.phase, wave := r.waves, millis := r.now }

/-- What comes of a permit for check `i`, when group `g` no longer has it among the waiting. -/
inductive Granted (p : Plan) (settings : Settings) (r : Run) (g : Group) (i : Nat)
    (check : Check) : Run → Prop
  | dropped (hphase : g.phase = .concurrent) (hr : r.cancelled = true) :
      Granted p settings r g i check { r with stage := .within g }
  | stopped (hphase : g.phase = .serial) (hr : r.cancelled = true) :
      Granted p settings r g i check { r with stage := .ended (.cancelled r.ledger.size) }
  | broke (hphase : g.phase = .concurrent) (hlimit : check.logic.limit = .faulty) :
      Granted p settings r g i check { r with broken := true, stage := .within g }
  | crashed (hphase : g.phase = .serial) (hlimit : check.logic.limit = .faulty) :
      Granted p settings r g i check { r with stage := .ended .crashed }
  | launched (hr : r.cancelled = false) {limit : Option Nat} {r' : Run}
      (hcarried : Carried settings { r with calls := r.calls ++ [r.callOf g i] } g
        ⟨i, r.now, 0, limit⟩ (p.activityOf check).sleeps r') :
      Granted p settings r g i check r'

theorem grant_granted (p : Plan) (settings : Settings) (r : Run) (g : Group) (i : Nat)
    (check : Check) : Granted p settings r g i check (r.grant p settings g i check) := by
  unfold grant
  split
  · exact .dropped ‹_› ‹_›
  · exact .stopped ‹_› ‹_›
  · exact .broke ‹_› ‹_›
  · exact .crashed ‹_› ‹_›
  · exact .launched ‹_› (proceed_carried _ _ _ _ _)
  · exact .launched ‹_› (proceed_carried _ _ _ _ _)

/-! ## Surveys -/

/-- A run in which all is settled that can never be made. -/
def settled (p : Plan) (r : Run) : Run where
  __ := r
  ledger := p.settle r.pending r.ledger
  pending := r.pending.filter (!(p.settle r.pending r.ledger).contains ·)

/-- The pending checks whose dependencies have results. -/
def ready (p : Plan) (r : Run) : List Nat := r.pending.filter (p.isReady r.ledger)

/-- The wave of the checks that are ready. -/
def nextWave (p : Plan) (settings : Settings) (r : Run) : Group where
  phase := .concurrent
  waiting := (r.ready p).filter (p.isConcurrent settings)
  serial := (r.ready p).filter (!p.isConcurrent settings ·)

/-- What comes of a survey. -/
inductive Outlook (p : Plan) (settings : Settings) (r : Run) : Run → Prop
  | finished (hpending : r.pending = []) :
      Outlook p settings r { r with stage := .ended .finished }
  | cancelled (hpending : r.pending ≠ []) (hr : r.cancelled = true) :
      Outlook p settings r { r with stage := .ended (.cancelled r.ledger.size) }
  | settled (hr : r.cancelled = false) (hsize : r.ledger.size < (r.settled p).ledger.size) :
      Outlook p settings r (r.settled p)
  | stalled (hpending : r.pending ≠ []) (hr : r.cancelled = false)
      (hready : (r.settled p).ready p = []) (hsize : ¬ r.ledger.size < (r.settled p).ledger.size) :
      Outlook p settings r
        { r.settled p with stage := .ended (.stalled (r.settled p).pending.length) }
  | wave (hr : r.cancelled = false) (hready : (r.settled p).ready p ≠ []) :
      Outlook p settings r
        { r.settled p with
          waves := r.waves + 1
          stage := .within ((r.settled p).nextWave p settings) }

theorem survey_outlook (p : Plan) (settings : Settings) (r : Run) :
    Outlook p settings r (r.survey p settings) := by
  unfold survey
  split
  · exact .finished (List.isEmpty_iff.mp ‹_›)
  · rename_i hpending
    have hpending := mt List.isEmpty_iff.mpr hpending
    split
    · exact .cancelled hpending ‹_›
    · rename_i hr
      rw [Bool.not_eq_true] at hr
      dsimp only
      split
      · rename_i hready
        split
        · exact .settled hr ‹_›
        · exact .stalled hpending hr (List.isEmpty_iff.mp hready) ‹_›
      · rename_i hready
        rw [List.partition_eq_filter_filter]
        exact .wave hr (mt List.isEmpty_iff.mpr hready)

theorem ahead_nextWave_perm (p : Plan) (settings : Settings) (r : Run) :
    (r.nextWave p settings).ahead.Perm (r.ready p) := by
  simp only [Group.ahead, nextWave, List.map_nil, List.append_nil]
  exact List.filter_append_perm _ _

theorem open_of_settled {i : Nat} (hi : i ∈ (r.settled p).pending) :
    (r.settled p).ledger.contains i = false :=
  (Bool.not_eq_true' _).mp (List.mem_filter.mp hi).2

/-- If some check has no result, some such check is ready: one whose dependencies all have results.
There is one because dependencies are well-founded. -/
theorem exists_ready (hp : p.Orderly) {l : Ledger} {i : Nat} (hi : i < p.size)
    (hopen : l.contains i = false) :
    ∃ j < p.size, l.contains j = false ∧ p.isReady l j = true := by
  induction i using hp.wellFounded.induction with
  | _ i ih =>
      cases hready : p.isReady l i with
      | true => exact ⟨i, hi, hopen, hready⟩
      | false =>
          have hc : p.check? i = some p.checks[i] := List.getElem?_eq_getElem hi
          rw [Plan.isReady, hc, Option.any_some] at hready
          obtain ⟨j, hj, hmissing⟩ := List.all_eq_false.mp hready
          have hprecedes : p.Precedes j i := ⟨_, hc, hj⟩
          rw [Bool.not_eq_true] at hmissing
          exact ih j hprecedes (hp.lt_size hprecedes) hmissing

/-- A survey of open checks that settles none finds one that is ready. -/
theorem ready_ne_nil (hp : p.Orderly) (hpending : r.pending ≠ [])
    (hopen : ∀ i ∈ r.pending, i < p.size ∧ r.ledger.contains i = false)
    (hmem : ∀ i < p.size, r.ledger.contains i = false → i ∈ r.pending)
    (hsize : ¬ r.ledger.size < (r.settled p).ledger.size) : (r.settled p).ready p ≠ [] := by
  have hsettles := Plan.settle_settles p r.pending r.ledger
  have heq : (r.settled p).ledger = r.ledger :=
    hsettles.eq_of_size (Nat.le_antisymm (Nat.not_lt.mp hsize) hsettles.size_le)
  obtain ⟨i, hi⟩ := List.exists_mem_of_ne_nil _ hpending
  obtain ⟨hlt, hfree⟩ := hopen i hi
  obtain ⟨j, hj, hjopen, hready⟩ := exists_ready hp hlt hfree
  refine List.ne_nil_of_mem (a := j) (List.mem_filter.mpr ⟨List.mem_filter.mpr ⟨?_, ?_⟩, ?_⟩)
  · exact hmem j hj hjopen
  · show (!(r.settled p).ledger.contains j) = true
    rw [heq, hjopen]
    rfl
  · rw [heq]
    exact hready

/-! ## All that can come of an event -/

/-- What comes of an event. The ways in which a sleep ends come to the same. -/
inductive Effect (p : Plan) (settings : Settings) (r : Run) : Event → Run → Prop
  | pass (millis : Nat) (hopen : r.ending? = none) :
      Effect p settings r (.pass millis) { r with now := r.now + millis }
  | cancel (hopen : r.ending? = none) : Effect p settings r .cancel { r with cancelled := true }
  | survey {r' : Run} (hbetween : r.stage = .between) (houtlook : Outlook p settings r r') :
      Effect p settings r .survey r'
  | grant {g : Group} {i : Nat} {check : Check} {r' : Run} (hwithin : r.stage = .within g)
      (hturn : g.mayCall i = true) (hpermit : g.asleep.length < permits settings g.phase)
      (hc : p.check? i = some check) (hgranted : Granted p settings r (g.call i) i check r') :
      Effect p settings r (.grant i) r'
  | wake {g g' : Group} {e : Event} {i : Nat} {s : Sleeper} {a : Application} {sleeps : Nat}
      {r' : Run} (hwithin : r.stage = .within g) (hs : g.take? i = some (s, g'))
      (ha : a.index = i) (hsleeps : sleeps < s.activity.sleeps)
      (hcarried : Carried settings r g' a sleeps r') (he : e = .resume i ∨ e = .interrupt i) :
      Effect p settings r e r'
  /-- The serial group follows the concurrent one. -/
  | turn {g : Group} (hwithin : r.stage = .within g) (hphase : g.phase = .concurrent)
      (hwaiting : g.waiting = []) (hasleep : g.asleep = []) (hbroken : r.broken = false) :
      Effect p settings r .close
        { r with stage := .within { phase := .serial, waiting := g.serial } }
  /-- The wave is done. -/
  | done {g : Group} (hwithin : r.stage = .within g) (hphase : g.phase = .serial)
      (hwaiting : g.waiting = []) (hasleep : g.asleep = []) (hbroken : r.broken = false) :
      Effect p settings r .close
        { r with pending := r.pending.filter (!r.ledger.contains ·), stage := .between }
  | collapse {g : Group} (hwithin : r.stage = .within g) (hbroken : r.broken = true) :
      Effect p settings r .collapse { r with stage := .ended .taskFailed }

theorem Step.effect (h : Step p settings r e r') : Effect p settings r e r' := by
  cases h with
  | pass millis hopen => exact .pass millis hopen
  | cancel hopen => exact .cancel hopen
  | survey hbetween => exact .survey hbetween (survey_outlook p settings r)
  | grant hwithin hturn hpermit hc =>
      exact .grant hwithin hturn hpermit hc (grant_granted p settings r _ _ _)
  | resume hwithin hs =>
      obtain ⟨a, sleeps, ha, hsleeps, hcarried⟩ := resume_carried settings r _ _
      exact .wake hwithin hs (ha.trans (Group.take?_eq_some hs).2.1) hsleeps hcarried (.inl rfl)
  | interrupt hwithin hs =>
      obtain ⟨a, sleeps, ha, hsleeps, hcarried⟩ := interrupt_carried settings r _ _
      exact .wake hwithin hs (ha.trans (Group.take?_eq_some hs).2.1) hsleeps hcarried (.inr rfl)
  | @close g hwithin hwaiting hasleep hbroken =>
      unfold Run.close
      cases hphase : g.phase with
      | concurrent => exact .turn hwithin hphase hwaiting hasleep hbroken
      | serial => exact .done hwithin hphase hwaiting hasleep hbroken
  | collapse hwithin hbroken => exact .collapse hwithin hbroken

/-! ## What every event leaves alone -/

theorem Carried.calls {a : Application} {sleeps : Nat} (h : Carried settings r g a sleeps r') :
    r'.calls = r.calls := by
  cases h <;> rfl

/-- The only event that starts a rule is a permit in a run that is not cancelled. -/
theorem Step.calls (h : Step p settings r e r') :
    r'.calls = r.calls ∨
      ∃ g i, r.stage = .within g ∧ g.mayCall i = true ∧
        g.asleep.length < permits settings g.phase ∧ r.cancelled = false ∧
        r'.calls = r.calls ++ [r.callOf (g.call i) i] := by
  cases h.effect with
  | pass | cancel | turn | done | collapse => exact .inl rfl
  | survey _ houtlook => cases houtlook <;> exact .inl rfl
  | grant hwithin hturn hpermit _ hgranted =>
      cases hgranted with
      | dropped | stopped | broke | crashed => exact .inl rfl
      | launched hr hcarried =>
          exact .inr ⟨_, _, hwithin, hturn, hpermit, hr, hcarried.calls⟩
  | wake _ _ _ _ hcarried => exact .inl hcarried.calls

theorem Carried.below {a : Application} {sleeps : Nat} (h : Carried settings r g a sleeps r') :
    r.ledger.Below r'.ledger := by
  cases h with
  | ended => exact Ledger.below_record _ _ _
  | asleep => exact .refl _

/-- Results stand. -/
theorem Step.below (h : Step p settings r e r') : r.ledger.Below r'.ledger := by
  cases h.effect with
  | pass | cancel | turn | done | collapse => exact .refl _
  | survey _ houtlook =>
      cases houtlook with
      | finished | cancelled => exact .refl _
      | settled | stalled | wave => exact (Plan.settle_settles p r.pending r.ledger).below
  | grant _ _ _ _ hgranted =>
      cases hgranted with
      | dropped | stopped | broke | crashed => exact .refl _
      | launched _ hcarried => exact hcarried.below
  | wake _ _ _ _ hcarried => exact hcarried.below

theorem Carried.cancelled {a : Application} {sleeps : Nat} (h : Carried settings r g a sleeps r')
    (hr : r.cancelled = true) : r'.cancelled = true := by
  cases h with
  | ended cancelled hkeeps => exact hkeeps hr
  | asleep cancelled hkeeps => exact hkeeps hr

/-- Nothing undoes a cancellation. -/
theorem Step.cancelled (h : Step p settings r e r') (hr : r.cancelled = true) :
    r'.cancelled = true := by
  cases h.effect with
  | pass | turn | done | collapse => exact hr
  | cancel => rfl
  | survey _ houtlook => cases houtlook <;> exact hr
  | grant _ _ _ _ hgranted =>
      cases hgranted with
      | dropped | stopped | broke | crashed => exact hr
      | launched _ hcarried => exact hcarried.cancelled hr
  | wake _ _ _ _ hcarried => exact hcarried.cancelled hr

theorem not_cancelled_of_step (h : Step p settings r e r') (hr' : r'.cancelled = false) :
    r.cancelled = false := by
  cases hr : r.cancelled with
  | false => rfl
  | true => rw [h.cancelled hr] at hr'; cases hr'

/-! ## Several events -/

/-- What each of several events preserves holds after them. -/
theorem preserved_stepAll_of_mem {P : Run → Prop} {es : List Event}
    (hstep : ∀ e ∈ es, ∀ r r', P r → Step p settings r e r' → P r') (h : P r)
    (hsteps : r.stepAll? p settings es = some r') : P r' := by
  induction es generalizing r with
  | nil => exact Option.some.inj hsteps ▸ h
  | cons e es ih =>
      obtain ⟨between, hfirst, hrest⟩ := Option.bind_eq_some_iff.mp hsteps
      have hbetween := hstep e List.mem_cons_self r between h (step?_eq_some.mp hfirst)
      exact ih (fun e he => hstep e (List.mem_cons_of_mem _ he)) hbetween hrest

/-- What every event preserves holds throughout a run. -/
theorem preserved_stepAll {P : Run → Prop} {es : List Event}
    (hstep : ∀ r e r', P r → Step p settings r e r' → P r') (h : P r)
    (hsteps : r.stepAll? p settings es = some r') : P r' :=
  preserved_stepAll_of_mem (fun e _ r r' => hstep r e r') h hsteps

theorem cancelled_of_stepAll? {es : List Event} (h : r.stepAll? p settings es = some r')
    (hr : r.cancelled = true) : r'.cancelled = true :=
  preserved_stepAll (P := fun r => r.cancelled = true) (fun _ _ _ hr hstep => hstep.cancelled hr)
    hr h

theorem not_cancelled_of_stepAll? {es : List Event} (h : r.stepAll? p settings es = some r')
    (hr' : r'.cancelled = false) : r.cancelled = false := by
  cases hr : r.cancelled with
  | false => rfl
  | true => rw [cancelled_of_stepAll? h hr] at hr'; cases hr'

theorem stepAll?_append (r : Run) (es es' : List Event) :
    r.stepAll? p settings (es ++ es') =
      (r.stepAll? p settings es).bind fun r => r.stepAll? p settings es' := by
  induction es generalizing r with
  | nil => rfl
  | cons e es ih =>
      rw [List.cons_append, stepAll?, stepAll?, Option.bind_assoc]
      exact congrArg _ (funext fun r => ih r)

theorem stepAll?_append_eq_some {es es' : List Event} :
    r.stepAll? p settings (es ++ es') = some r' ↔
      ∃ r₁, r.stepAll? p settings es = some r₁ ∧ r₁.stepAll? p settings es' = some r' := by
  rw [stepAll?_append, Option.bind_eq_some_iff]

theorem stepAll?_singleton : r.stepAll? p settings [e] = r.step? p settings e := by
  simp [stepAll?]

theorem step?_of_over (h : r.ending? ≠ none) (e : Event) : r.step? p settings e = none := by
  cases hs : r.stage with
  | between | within => simp [ending?, hs] at h
  | ended => simp [step?, hs]

/-- A run that is over stays as it is. -/
theorem eq_of_over {es : List Event} (hover : r.ending? ≠ none)
    (h : r.stepAll? p settings es = some r') : r' = r := by
  cases es with
  | nil => exact (Option.some.inj h).symm
  | cons e es =>
      rw [stepAll?, step?_of_over hover] at h
      cases h

/-! ## The start -/

/-- A run is over at its start only if there are more permits than there can be. -/
theorem start_stage_cases (p : Plan) (settings : Settings) (cancelled : Bool) :
    (start p settings cancelled).stage = .between ∨
      Settings.permitLimit < settings.permits ∧
        (start p settings cancelled).stage = .ended .crashed := by
  by_cases h : settings.permits ≤ Settings.permitLimit
  · exact .inl (if_pos h)
  · exact .inr ⟨Nat.lt_of_not_le h, if_neg h⟩

theorem start_stage_ne (p : Plan) (settings : Settings) (cancelled : Bool) (g : Group) :
    (start p settings cancelled).stage ≠ .within g := by
  rcases start_stage_cases p settings cancelled with hstage | ⟨-, hstage⟩ <;>
    rw [hstage] <;> exact nofun

variable {cancelled : Bool}

theorem start_stage (h : settings.permits ≤ Settings.permitLimit) :
    (start p settings cancelled).stage = .between :=
  if_pos h

theorem ending?_start (h : Settings.permitLimit < settings.permits) :
    (start p settings cancelled).ending? = some .crashed := by
  rw [ending?, show (start p settings cancelled).stage = _ from if_neg (Nat.not_le.mpr h)]

/-- A run with more permits than there can be comes to nothing. -/
theorem eq_start_of_permits {es : List Event} (h : Settings.permitLimit < settings.permits)
    (hrun : (start p settings cancelled).stepAll? p settings es = some r) :
    r = start p settings cancelled :=
  eq_of_over (by rw [ending?_start h]; exact nofun) hrun

/-- So there are not too many permits for a run that has a result. -/
theorem permits_le_of_entry? {es : List Event} {i : Nat} {entry : Entry}
    (hrun : (start p settings cancelled).stepAll? p settings es = some r)
    (h : r.ledger.entry? i = some entry) : settings.permits ≤ Settings.permitLimit := by
  refine Nat.le_of_not_lt fun hpermits => ?_
  rw [eq_start_of_permits hpermits hrun] at h
  cases h

end Run

end Vetting
