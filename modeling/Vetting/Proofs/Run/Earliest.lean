import Mathlib.Data.List.Chain
import Mathlib.Order.Bounds.Basic
import Vetting.Proofs.Run.Outcome
import Vetting.Proofs.Run.Regular

/-!
# Every rule starts as early as it can

A rule is started in the wave after the last of those that it depends on (`Run.Earliest`), and so
the waves of a run that is over are as many as the longest chain of dependencies between rules that
were started has rules (`earliest_waves`). Neither settling nor the order of events delays a rule.

The invariant that carries this is about the checks that could be made and are not in the group in
progress: each depends on a check of the wave that began last (`Run.Follows`). It is kept because
such a check has only become possible when a check of that wave passed; settling makes none
possible, since all that it enters are failures (`Plan.entry?_settle`).
-/

namespace Vetting

namespace Plan

variable {p : Plan} {l : Ledger} {i : Nat} {e : Entry}

/-! ## Checks that can be made -/

theorem Cleared.outcome? {j : Nat} (h : p.Cleared l i) (hj : p.Precedes j i) :
    l.outcome? j = some .passed := by
  obtain ⟨check, hc, -, hpassed⟩ := h
  obtain ⟨check', hc', hj⟩ := hj
  obtain rfl := Option.some.inj (hc.symm.trans hc')
  exact hpassed j hj

theorem Cleared.isReady (h : p.Cleared l i) : p.isReady l i = true := by
  obtain ⟨check, hc, -, hpassed⟩ := h
  refine (Option.any_eq_true _ _).mpr ⟨check, hc, List.all_eq_true.mpr fun j hj => ?_⟩
  obtain ⟨e, he, -⟩ := Option.map_eq_some_iff.mp (hpassed j hj)
  exact Ledger.contains_iff.mpr ⟨e, he⟩

/-- What can be made after settling could be made before. -/
theorem Cleared.of_settle {pending : List Nat} (h : p.Cleared (p.settle pending l) i) :
    p.Cleared l i := by
  obtain ⟨check, hc, hsat, hpassed⟩ := h
  refine ⟨check, hc, hsat, fun j hj => ?_⟩
  obtain ⟨e, he, houtcome⟩ := Option.map_eq_some_iff.mp (hpassed j hj)
  rcases entry?_settle he with he | ⟨-, hfailed⟩
  · exact Option.map_eq_some_iff.mpr ⟨e, he, houtcome⟩
  · rw [hfailed] at houtcome
    cases houtcome

/-- What does not depend on a check that gets a result could be made before. -/
theorem Cleared.of_record {j : Nat} (h : p.Cleared (l.record j e) i)
    (hopen : l.contains j = false) (hfree : ¬ p.Precedes j i) : p.Cleared l i := by
  obtain ⟨check, hc, hsat, hpassed⟩ := h
  refine ⟨check, hc, hsat, fun k hk => ?_⟩
  have hne : k ≠ j := fun heq => hfree ⟨check, hc, heq ▸ hk⟩
  have houtcome := hpassed k hk
  rwa [Ledger.outcome?, Ledger.entry?_record hopen, if_neg hne] at houtcome

end Plan

namespace Run

/-! ## The waves of calls -/

/-- The rule of check `i` was started in wave `w`. -/
def CalledIn (calls : List Call) (i w : Nat) : Prop := ∃ c ∈ calls, c.index = i ∧ c.wave = w

/-- Wave `w` is the first after all waves in which dependencies of check `i` were started. -/
structure Earliest (p : Plan) (calls : List Call) (i w : Nat) : Prop where
  after {j : Nat} (hj : p.Precedes j i) : ∃ v < w, CalledIn calls j v
  attained : w = 1 ∧ (∀ j, ¬ p.Precedes j i) ∨
    ∃ j v, p.Precedes j i ∧ CalledIn calls j v ∧ w = v + 1

variable {p : Plan} {settings : Settings} {r r' : Run} {e : Event} {g : Group}
  {calls calls' : List Call} {i j w : Nat}

theorem calledIn_append {c : Call} :
    CalledIn (calls ++ [c]) i w ↔ CalledIn calls i w ∨ c.index = i ∧ c.wave = w := by
  simp [CalledIn, or_and_right, exists_or]

theorem Earliest.pos (h : Earliest p calls i w) : 0 < w := by
  rcases h.attained with ⟨rfl, -⟩ | ⟨_, _, -, -, rfl⟩
  · exact Nat.one_pos
  · exact Nat.succ_pos _

theorem Earliest.mono (h : Earliest p calls i w)
    (hcalls : ∀ j v, CalledIn calls j v → CalledIn calls' j v) : Earliest p calls' i w := by
  refine ⟨fun hj => ?_, h.attained.imp_right ?_⟩
  · obtain ⟨v, hv, hcalled⟩ := h.after hj
    exact ⟨v, hv, hcalls _ _ hcalled⟩
  · rintro ⟨j, v, hj, hcalled, hv⟩
    exact ⟨j, v, hj, hcalls _ _ hcalled, hv⟩

/-- Check `i` depends on a check of the wave that began last. -/
def Follows (r : Run) (p : Plan) (i : Nat) : Prop :=
  ∃ j, p.Precedes j i ∧ CalledIn r.calls j r.waves

/-- The rule of some check was started in the wave that began last, if any has begun. -/
def Busy (r : Run) : Prop := r.waves = 0 ∨ ∃ i, CalledIn r.calls i r.waves

/-! ## The invariant -/

/-- What holds of calls and results in every stage: calls were as early as they could be, and the
checks that were not called are those of which a dependency failed. -/
structure Punctual (r : Run) (p : Plan) : Prop where
  lt_size {c : Call} (hc : c ∈ r.calls) : c.index < p.size
  earliest {c : Call} (hc : c ∈ r.calls) : Earliest p r.calls c.index c.wave
  failed_iff {i : Nat} {e : Entry} (he : r.ledger.entry? i = some e) :
    e.result.outcome = .dependencyFailed ↔ ∀ w, ¬ CalledIn r.calls i w

/-- What group `g` of a run keeps to, with the checks of `held` started but neither done nor
asleep. -/
structure Heeds (r : Run) (p : Plan) (g : Group) (held : List Nat) : Prop where
  earliest {i : Nat} (hi : i ∈ g.ahead) : Earliest p r.calls i r.waves
  asleep {s : Sleeper} (hs : s ∈ g.asleep) : CalledIn r.calls s.index r.waves
  held_earliest {i : Nat} (hi : i ∈ held) : Earliest p r.calls i r.waves
  held_called {i : Nat} (hi : i ∈ held) : CalledIn r.calls i r.waves
  follows {i : Nat} (hi : p.Admissible r.ledger i) (hahead : i ∉ g.ahead) (hheld : i ∉ held) :
    r.Follows p i
  started : g.ahead ≠ [] ∨ ∃ i, CalledIn r.calls i r.waves

theorem heeds_nil (hearliest : ∀ i ∈ g.ahead, Earliest p r.calls i r.waves)
    (hasleep : ∀ s ∈ g.asleep, CalledIn r.calls s.index r.waves)
    (hfollows : ∀ i, p.Admissible r.ledger i → i ∉ g.ahead → r.Follows p i)
    (hstarted : g.ahead ≠ [] ∨ ∃ i, CalledIn r.calls i r.waves) : r.Heeds p g [] where
  earliest := hearliest _
  asleep := hasleep _
  held_earliest hi := absurd hi List.not_mem_nil
  held_called hi := absurd hi List.not_mem_nil
  follows hi hahead _ := hfollows _ hi hahead
  started := hstarted

/-- What the stage of a run promises of the waves to come. -/
def Heralds (r : Run) (p : Plan) : Stage → Prop
  | .between => (∀ i, p.Admissible r.ledger i → r.waves = 0 ∨ r.Follows p i) ∧ r.Busy
  | .within g => r.Heeds p g []
  | .ended _ => r.Busy

structure Prompt (r : Run) (p : Plan) : Prop extends r.Punctual p where
  stage : r.Heralds p r.stage

theorem Prompt.heeds (h : r.Prompt p) (hwithin : r.stage = .within g) : r.Heeds p g [] := by
  have hstage := h.stage
  rwa [hwithin] at hstage

theorem Prompt.between (h : r.Prompt p) (hbetween : r.stage = .between) :
    (∀ i, p.Admissible r.ledger i → r.waves = 0 ∨ r.Follows p i) ∧ r.Busy := by
  have hstage := h.stage
  rwa [hbetween] at hstage

theorem Prompt.ended {ending : Ending} (h : r.Prompt p) (hended : r.stage = .ended ending) :
    r.Busy := by
  have hstage := h.stage
  rwa [hended] at hstage

theorem Prompt.busy (h : r.Prompt p) (hover : r.ending? ≠ none) : r.Busy := by
  cases hs : r.stage with
  | ended ending => exact h.ended hs
  | between | within => exact absurd (by rw [ending?, hs]) hover

theorem start_prompt (p : Plan) (settings : Settings) (cancelled : Bool) :
    (start p settings cancelled).Prompt p := by
  refine ⟨⟨nofun, nofun, nofun⟩, ?_⟩
  rcases start_stage_cases p settings cancelled with hstage | ⟨-, hstage⟩
  · rw [hstage]
    exact ⟨fun _ _ => .inl rfl, .inl rfl⟩
  · rw [hstage]
    exact .inl rfl

/-- What a check that can be made depends on has passed, and so it was started. -/
theorem Punctual.called_of_cleared (h : r.Punctual p) (hcleared : p.Cleared r.ledger i)
    (hj : p.Precedes j i) : ∃ w, CalledIn r.calls j w := by
  obtain ⟨e, he, houtcome⟩ := Option.map_eq_some_iff.mp (hcleared.outcome? hj)
  by_contra hnone
  have hfailed := (h.failed_iff he).mpr fun w hw => hnone ⟨w, hw⟩
  rw [houtcome] at hfailed
  cases hfailed

/-! ## Carrying a rule on -/

/-- A rule that ends makes possible what depends on it, and it was started in the wave that began
last. -/
theorem Carried.prompt {a : Application} {sleeps : Nat} (h : Carried settings r g a sleeps r')
    (hr : r.Punctual p) (hg : r.Heeds p g [a.index]) (hopen : r.ledger.contains a.index = false)
    (hapart : a.index ∉ g.ahead) : r'.Prompt p := by
  have hcalled := hg.held_called (List.mem_singleton_self a.index)
  cases h with
  | ended cancelled _ answer =>
      refine ⟨⟨hr.lt_size, hr.earliest, fun {i e} he => ?_⟩,
        heeds_nil (fun _ => hg.earliest) (fun _ => hg.asleep) (fun i hi hahead => ?_) hg.started⟩
      · rcases ite_eq_iff.mp ((Ledger.entry?_record hopen _ i).symm.trans he) with
          ⟨rfl, hnew⟩ | ⟨-, hold⟩
        · obtain rfl := Option.some.inj hnew
          exact iff_of_false (Result.outcome_ofAnswer_ne answer) fun hnone => hnone _ hcalled
        · exact hr.failed_iff hold
      · have hfree := (Ledger.contains_record hopen _ i).symm.trans hi.isOpen
        obtain ⟨hne, hfree⟩ := Bool.or_eq_false_iff.mp hfree
        by_cases hafter : p.Precedes a.index i
        · exact ⟨a.index, hafter, hcalled⟩
        · exact hg.follows ⟨hfree, hi.cleared.of_record hopen hafter⟩ hahead
            (List.mem_singleton.not.mpr (of_decide_eq_false hne))
  | @asleep cancelled _ s ha =>
      subst ha
      refine ⟨⟨hr.lt_size, hr.earliest, hr.failed_iff⟩, heeds_nil (fun i hi => ?_)
        (fun s' hs => ?_) (fun i hi hahead => ?_) (.inr ⟨_, hcalled⟩)⟩
      · rcases Group.mem_ahead_sleep.mp hi with rfl | hi
        · exact hg.held_earliest (List.mem_singleton_self _)
        · exact hg.earliest hi
      · rcases List.mem_append.mp hs with hs | hs
        · exact hg.asleep hs
        · exact List.mem_singleton.mp hs ▸ hcalled
      · rw [Group.mem_ahead_sleep, not_or] at hahead
        exact hg.follows hi hahead.2 (List.mem_singleton.not.mpr hahead.1)

/-- A check that gets a permit is started in the wave that began last. -/
theorem Prompt.grant (h : r.Prompt p) (hr : r.Regular p settings) (hwithin : r.stage = .within g)
    (hturn : g.mayCall i = true) :
    ({ r with calls := r.calls ++ [r.callOf (g.call i) i] } : Run).Punctual p ∧
      ({ r with calls := r.calls ++ [r.callOf (g.call i) i] } : Run).Heeds p (g.call i) [i] := by
  have hg := h.heeds hwithin
  have hwaiting := Group.mem_waiting_of_mayCall hturn
  have hahead := Group.mem_ahead.mpr (.inl hwaiting)
  have hadmissible := (hr.tends hwithin).group.admissible hahead
  have hkeeps : ∀ j v, CalledIn r.calls j v →
      CalledIn (r.calls ++ [r.callOf (g.call i) i]) j v :=
    fun _ _ hcalled => calledIn_append.mpr (.inl hcalled)
  have hcalled : CalledIn (r.calls ++ [r.callOf (g.call i) i]) i
      r.waves := calledIn_append.mpr (.inr ⟨rfl, rfl⟩)
  refine ⟨⟨fun {c} hc => ?_, fun {c} hc => ?_, fun {j e} he => ?_⟩, fun {j} hj => ?_,
    fun {s} hs => ?_, fun {j} hj => ?_, fun {j} hj => ?_, fun {j} hj hrest hne => ?_,
    .inr ⟨i, hcalled⟩⟩
  · rcases List.mem_append.mp hc with hc | hc
    · exact h.lt_size hc
    · rw [List.mem_singleton.mp hc]
      exact hadmissible.cleared.lt_size
  · rcases List.mem_append.mp hc with hc | hc
    · exact (h.earliest hc).mono hkeeps
    · rw [List.mem_singleton.mp hc]
      exact (hg.earliest hahead).mono hkeeps
  · -- Check `i` has no entry yet, so the new call is not one of check `j`.
    refine (h.failed_iff he).trans (forall_congr' fun v => not_congr ?_)
    refine ⟨hkeeps j v, fun hcall => (calledIn_append.mp hcall).resolve_right fun hnew => ?_⟩
    rw [← show i = j from hnew.1, Ledger.contains_eq_false.mp hadmissible.isOpen] at he
    cases he
  · exact (hg.earliest (Group.ahead_call_sublist.subset hj)).mono hkeeps
  · exact hkeeps _ _ (hg.asleep hs)
  · rw [List.mem_singleton.mp hj]
    exact (hg.earliest hahead).mono hkeeps
  · exact List.mem_singleton.mp hj ▸ hcalled
  · have hnew : j ∉ g.ahead := fun hmem => by
      refine hrest (Group.mem_ahead.mpr ((Group.mem_ahead.mp hmem).imp_left fun hmem => ?_))
      exact (List.mem_erase_of_ne (List.mem_singleton.not.mp hne)).mpr hmem
    obtain ⟨k, hk, hcall⟩ := hg.follows hj hnew List.not_mem_nil
    exact ⟨k, hk, hkeeps _ _ hcall⟩

/-- A sleeper that is carried on was started in the wave that began last. -/
theorem Heeds.take {g' : Group} {s : Sleeper} (h : r.Heeds p g [])
    (hs : g.take? i = some (s, g')) : r.Heeds p g' [i] := by
  obtain ⟨hasleep, rfl, rfl⟩ := Group.take?_eq_some hs
  have hcalled := h.asleep hasleep
  refine ⟨fun hj => h.earliest (Group.ahead_awake_sublist.subset hj),
    fun hs => h.asleep (List.mem_of_mem_filter hs), fun {j} hj => ?_, fun {j} hj => ?_,
    fun {j} hj hrest hne => h.follows hj (fun hmem => hrest ?_) List.not_mem_nil,
    .inr ⟨_, hcalled⟩⟩
  · rw [List.mem_singleton.mp hj]
    exact h.earliest (Group.mem_ahead.mpr (.inr (.inl ⟨s, hasleep, rfl⟩)))
  · exact List.mem_singleton.mp hj ▸ hcalled
  · refine Group.mem_ahead.mpr ((Group.mem_ahead.mp hmem).imp_right (.imp_left ?_))
    rintro ⟨s', hs', rfl⟩
    refine ⟨s', List.mem_filter.mpr ⟨hs', ?_⟩, rfl⟩
    simpa using hne

/-! ## Surveys -/

/-- What can be made after settling has no result yet, before as after. -/
theorem admissible_of_settled (h : p.Admissible (r.settled p).ledger i) :
    p.Admissible r.ledger i :=
  ⟨(Plan.settle_settles p r.pending r.ledger).below.contains_eq_false h.isOpen,
    h.cleared.of_settle⟩

/-- Settling gives results to checks that were not started. -/
theorem Punctual.settled (h : r.Punctual p)
    (hcalls : ∀ c ∈ r.calls, r.ledger.contains c.index = true) : (r.settled p).Punctual p := by
  refine ⟨h.lt_size, h.earliest, fun {i e} he => ?_⟩
  rcases Plan.entry?_settle he with he | ⟨hopen, hfailed⟩
  · exact h.failed_iff he
  · refine iff_of_true (hfailed ▸ rfl) fun w ⟨c, hc, hci, _⟩ => ?_
    rw [← hci, hcalls c hc] at hopen
    cases hopen

/-- Between waves, the next wave is the earliest for what can be made. -/
theorem Prompt.earliest_next (h : r.Prompt p) (hr : r.Books p) (hbetween : r.stage = .between)
    (hi : p.Admissible r.ledger i) : Earliest p r.calls i (r.waves + 1) := by
  refine ⟨fun {j} hj => ?_, ?_⟩
  · obtain ⟨v, hv⟩ := h.called_of_cleared hi.cleared hj
    obtain ⟨c, hc, -, rfl⟩ := id hv
    exact ⟨c.wave, Nat.lt_succ_of_le (hr.wave_le hc), hv⟩
  · rcases (h.between hbetween).1 i hi with hzero | ⟨j, hj, hcalled⟩
    · -- Before the first wave nothing was started, and what can be made depends on nothing.
      refine .inl ⟨congrArg (· + 1) hzero, fun j hj => ?_⟩
      obtain ⟨_, c, hc, -, rfl⟩ := h.called_of_cleared hi.cleared hj
      have hle := hr.wave_le hc
      have hpos := (h.earliest hc).pos
      omega
    · exact .inr ⟨j, r.waves, hj, hcalled, rfl⟩

/-- All checks that can be made join the next wave. -/
theorem Prompt.wave (h : r.Prompt p) (hr : r.Regular p settings) (hbetween : r.stage = .between)
    (hready : (r.settled p).ready p ≠ []) :
    ({ r.settled p with
        waves := r.waves + 1
        stage := .within ((r.settled p).nextWave p settings) } : Run).Prompt p := by
  have hperm := ahead_nextWave_perm p settings (r.settled p)
  have hgroup := nextWave_regular hr.toBooks settings
  have hbooks := hr.toBooks.settled
  have hsettled := h.settled (hr.between hbetween).2.2
  refine ⟨⟨hsettled.lt_size, hsettled.earliest, hsettled.failed_iff⟩,
    heeds_nil (fun i hi => ?_) (fun s hs => absurd hs List.not_mem_nil)
      (fun i hi hahead => absurd (hperm.mem_iff.mpr ?_) hahead) (.inl fun hnil => hready ?_)⟩
  · exact h.earliest_next hr.toBooks hbetween (admissible_of_settled (hgroup.admissible hi))
  · exact List.mem_filter.mpr
      ⟨hbooks.mem_pending hi.cleared.lt_size hi.isOpen, hi.cleared.isReady⟩
  · rw [hnil] at hperm
    exact hperm.symm.eq_nil

theorem Outlook.prompt (h : Outlook p settings r r') (hr : r.Prompt p)
    (hregular : r.Regular p settings) (hbetween : r.stage = .between) (hr' : r'.cancelled = false) :
    r'.Prompt p := by
  obtain ⟨hfollows, hbusy⟩ := hr.between hbetween
  have hsettled := hr.settled (hregular.between hbetween).2.2
  cases h with
  | finished => exact ⟨⟨hr.lt_size, hr.earliest, hr.failed_iff⟩, hbusy⟩
  | cancelled _ hcancelled => exact absurd (hr'.symm.trans hcancelled) Bool.false_ne_true
  | settled =>
      refine ⟨hsettled, ?_⟩
      rw [show (r.settled p).stage = .between from hbetween]
      exact ⟨fun i hi => hfollows i (admissible_of_settled hi), hbusy⟩
  | stalled => exact ⟨⟨hsettled.lt_size, hsettled.earliest, hsettled.failed_iff⟩, hbusy⟩
  | wave _ hready => exact hr.wave hregular hbetween hready

/-! ## Ends of groups -/

theorem Prompt.turn (h : r.Prompt p) (hwithin : r.stage = .within g) (hwaiting : g.waiting = [])
    (hasleep : g.asleep = []) :
    ({ r with stage := .within { phase := .serial, waiting := g.serial } } : Run).Prompt p := by
  have hahead := Group.ahead_turn hwaiting hasleep
  have hg := h.heeds hwithin
  refine ⟨⟨h.lt_size, h.earliest, h.failed_iff⟩, heeds_nil (fun i hi => ?_)
    (fun s hs => absurd hs List.not_mem_nil) (fun i hi hrest => ?_) (hahead ▸ hg.started)⟩
  · exact hg.earliest (hahead ▸ hi)
  · exact hg.follows hi (hahead ▸ hrest) List.not_mem_nil

/-- When a wave is done, all that can be made depends on a check of it. -/
theorem Prompt.done (h : r.Prompt p) (hr : r.Regular p settings) (hwithin : r.stage = .within g)
    (hphase : g.phase = .serial) (hwaiting : g.waiting = []) (hasleep : g.asleep = []) :
    ({ r with
        pending := r.pending.filter (!r.ledger.contains ·)
        stage := .between } : Run).Prompt p := by
  have hnil : g.ahead = [] := by
    simp [Group.ahead, hwaiting, hasleep, (hr.tends hwithin).group.last hphase]
  have hg := h.heeds hwithin
  refine ⟨⟨h.lt_size, h.earliest, h.failed_iff⟩, fun i hi => .inr ?_, .inr ?_⟩
  · exact hg.follows hi (hnil ▸ List.not_mem_nil) List.not_mem_nil
  · exact hg.started.resolve_left (not_not.mpr hnil)

/-! ## Runs -/

theorem Prompt.step (h : r.Prompt p) (hr : r.Regular p settings)
    (hlimits : ∀ check ∈ p.checks, check.logic.limit ≠ .faulty)
    (hstep : Step p settings r e r') (hr' : r'.cancelled = false) : r'.Prompt p := by
  have hcancelled := not_cancelled_of_step hstep hr'
  cases hstep.effect with
  | pass =>
      refine ⟨⟨h.lt_size, h.earliest, h.failed_iff⟩, ?_⟩
      show Heralds _ p r.stage
      cases hs : r.stage with
      | between => exact h.between hs
      | within g => exact { h.heeds hs with }
      | ended ending => exact h.ended hs
  | cancel => cases hr'
  | survey hbetween houtlook => exact houtlook.prompt h hr hbetween hr'
  | @grant g i check _ hwithin hturn _ hc hgranted =>
      cases hgranted with
      | dropped _ hr | stopped _ hr => exact absurd (hcancelled.symm.trans hr) Bool.false_ne_true
      | broke _ hlimit | crashed _ hlimit =>
          exact absurd hlimit (hlimits check (List.mem_of_getElem? hc))
      | launched _ hcarried =>
          have hg := (hr.tends hwithin).group
          have hwaiting := Group.mem_waiting_of_mayCall hturn
          obtain ⟨hpunctual, hheeds⟩ := h.grant hr hwithin hturn
          exact hcarried.prompt hpunctual hheeds
            (hg.admissible (Group.mem_ahead.mpr (.inl hwaiting))).isOpen
            (Group.not_mem_ahead_call hg.nodup hwaiting)
  | wake hwithin hs ha _ hcarried =>
      subst ha
      have happlies := hr.applies_take hwithin hs
      exact hcarried.prompt h.toPunctual ((h.heeds hwithin).take hs) happlies.admissible.isOpen
        happlies.apart
  | turn hwithin _ hwaiting hasleep => exact h.turn hwithin hwaiting hasleep
  | done hwithin hphase hwaiting hasleep => exact h.done hr hwithin hphase hwaiting hasleep
  | collapse _ hbroken =>
      obtain ⟨check, hcheck, hlimit⟩ := hr.faulty hbroken
      exact absurd hlimit (hlimits check hcheck)

theorem Prompt.stepAll {es : List Event} (h : r.Prompt p) (hr : r.Regular p settings)
    (hlimits : ∀ check ∈ p.checks, check.logic.limit ≠ .faulty)
    (hsteps : r.stepAll? p settings es = some r') (hr' : r'.cancelled = false) : r'.Prompt p := by
  refine (preserved_stepAll
    (P := fun r => r.Regular p settings ∧ (r.cancelled = false → r.Prompt p))
    (fun r e r' h hstep => ?_) ⟨hr, fun _ => h⟩ hsteps).2 hr'
  exact ⟨h.1.step hstep, fun hr' =>
    (h.2 (not_cancelled_of_step hstep hr')).step h.1 hlimits hstep hr'⟩

/-! ## Chains of dependencies -/

/-- The rules of all checks of `chain` were started, and each check depends on the next. -/
structure Chained (p : Plan) (calls : List Call) (chain : List Nat) : Prop where
  linked : chain.IsChain fun i j => p.Precedes j i
  called {i : Nat} (hi : i ∈ chain) : ∃ w, CalledIn calls i w

theorem Chained.uncons {chain : List Nat} (h : Chained p calls (i :: j :: chain)) :
    p.Precedes j i ∧ Chained p calls (j :: chain) := by
  obtain ⟨hj, hrest⟩ := List.isChain_cons_cons.mp h.linked
  exact ⟨hj, hrest, fun hi => h.called (List.mem_cons_of_mem _ hi)⟩

theorem Chained.cons {chain : List Nat} (h : Chained p calls (j :: chain)) (hj : p.Precedes j i)
    (hcalled : CalledIn calls i w) : Chained p calls (i :: j :: chain) := by
  refine ⟨List.isChain_cons_cons.mpr ⟨hj, h.linked⟩, fun hi => ?_⟩
  rcases List.mem_cons.mp hi with rfl | hi
  · exact ⟨w, hcalled⟩
  · exact h.called hi

/-- A chain is no longer than the number of the wave in which its first check was started. -/
theorem Punctual.length_le (h : r.Punctual p) {chain : List Nat}
    (hchain : Chained p r.calls (i :: chain)) (hcalled : CalledIn r.calls i w) :
    chain.length < w := by
  induction chain generalizing i w with
  | nil =>
      obtain ⟨c, hc, -, rfl⟩ := hcalled
      exact (h.earliest hc).pos
  | cons j chain ih =>
      obtain ⟨c, hc, rfl, rfl⟩ := hcalled
      obtain ⟨hj, hrest⟩ := hchain.uncons
      obtain ⟨v, hv, hcalled⟩ := (h.earliest hc).after hj
      exact Nat.lt_of_le_of_lt (ih hrest hcalled) hv

/-- A chain goes back from each check that was started to one that was started in the first
wave. -/
theorem Punctual.exists_chain (h : r.Punctual p) (hcalled : CalledIn r.calls i w) :
    ∃ chain, Chained p r.calls (i :: chain) ∧ chain.length + 1 = w := by
  induction w generalizing i with
  | zero =>
      obtain ⟨c, hc, -, hzero⟩ := hcalled
      exact absurd hzero (Nat.ne_of_gt (h.earliest hc).pos)
  | succ w ih =>
      obtain ⟨c, hc, rfl, hw⟩ := id hcalled
      rcases (h.earliest hc).attained with ⟨hfirst, -⟩ | ⟨j, v, hj, hv, hlast⟩
      · refine ⟨[], ⟨List.isChain_singleton _, fun hi => ?_⟩, hfirst.symm.trans hw⟩
        exact ⟨_, List.mem_singleton.mp hi ▸ hcalled⟩
      · obtain rfl := Nat.succ.inj (hlast.symm.trans hw)
        obtain ⟨chain, hchain, hlength⟩ := ih hv
        exact ⟨j :: chain, hchain.cons hj hcalled, congrArg (· + 1) hlength⟩

/-- There are as many waves as the longest chain has checks. -/
theorem Punctual.waves_isGreatest (h : r.Punctual p) (hr : r.Books p) (hbusy : r.Busy) :
    IsGreatest {n | ∃ chain, Chained p r.calls chain ∧ chain.length = n} r.waves := by
  constructor
  · rcases hbusy with hzero | ⟨i, hcalled⟩
    · exact ⟨[], ⟨List.isChain_nil, nofun⟩, hzero.symm⟩
    · obtain ⟨chain, hchain, hlength⟩ := h.exists_chain hcalled
      exact ⟨i :: chain, hchain, hlength⟩
  · rintro n ⟨chain, hchain, rfl⟩
    cases chain with
    | nil => exact Nat.zero_le _
    | cons i chain =>
        obtain ⟨w, hw⟩ := hchain.called List.mem_cons_self
        obtain ⟨c, hc, -, rfl⟩ := id hw
        exact Nat.le_trans (h.length_le hchain hw) (hr.wave_le hc)

/-! ## Several runs of a plan -/

/-- A rule that is started once is started in one wave. -/
theorem CalledIn.unique {v : Nat} (honce : (calls.map (·.index)).Nodup)
    (hv : CalledIn calls i v) (hw : CalledIn calls i w) : v = w := by
  obtain ⟨c, hc, hci, rfl⟩ := hv
  obtain ⟨c', hc', hci', rfl⟩ := hw
  exact congrArg Call.wave (List.inj_on_of_nodup_map honce hc hc' (hci.trans hci'.symm))

/-- Runs that start the same rules start them in the same waves. The induction is on the wave: the
rule is started right after the last of its dependencies, and those were started in the same waves
before. -/
theorem Punctual.calledIn_of (h : r.Punctual p) (h' : r'.Punctual p)
    (honce : (r'.calls.map (·.index)).Nodup)
    (hcalls : ∀ i w, CalledIn r.calls i w → ∃ w', CalledIn r'.calls i w')
    (hcalled : CalledIn r.calls i w) : CalledIn r'.calls i w := by
  induction w using Nat.strong_induction_on generalizing i with
  | _ w ih =>
      obtain ⟨w', hw'⟩ := hcalls i w hcalled
      obtain ⟨c, hc, rfl, rfl⟩ := id hcalled
      obtain ⟨c', hc', hci', rfl⟩ := id hw'
      have hearliest := h.earliest hc
      have hearliest' := h'.earliest hc'
      rw [hci'] at hearliest'
      have hle : c.wave ≤ c'.wave := by
        rcases hearliest.attained with ⟨hfirst, -⟩ | ⟨j, v, hj, hv, hlast⟩
        · exact hfirst ▸ hearliest'.pos
        · obtain ⟨v', hv', hcalled'⟩ := hearliest'.after hj
          have hsame := (ih v (hlast ▸ Nat.lt_succ_self v) hv).unique honce hcalled'
          omega
      have hge : c'.wave ≤ c.wave := by
        rcases hearliest'.attained with ⟨hfirst, -⟩ | ⟨j, v', hj, hv', hlast⟩
        · exact hfirst ▸ hearliest.pos
        · obtain ⟨v, hv, hcalled⟩ := hearliest.after hj
          have hsame := (ih v hv hcalled).unique honce hv'
          omega
      exact Nat.le_antisymm hle hge ▸ hw'

/-- In a run that is over, the rules that were started are those of which no dependency fails. -/
theorem Punctual.called_iff {hp : p.Orderly} (h : r.Punctual p) (hr : r.Sound p hp)
    (hover : r.ending? ≠ none) :
    (∃ w, CalledIn r.calls i w) ↔ i < p.size ∧ (p.eval hp i).outcome ≠ .dependencyFailed := by
  have hall := (hr.finished hover).2
  have hiff : i < p.size →
      ((∃ w, CalledIn r.calls i w) ↔ (p.eval hp i).outcome ≠ .dependencyFailed) := fun hi => by
    obtain ⟨e, he⟩ := Ledger.contains_iff.mp (hall i hi)
    rw [← hr.agrees i e he, Ne, h.failed_iff he, not_forall_not]
  refine ⟨fun hcalled => ?_, fun hi => (hiff hi.1).mpr hi.2⟩
  obtain ⟨w, c, hc, rfl, -⟩ := id hcalled
  exact ⟨h.lt_size hc, (hiff (h.lt_size hc)).mp hcalled⟩

theorem Prompt.waves_le (h : r.Prompt p) (h' : r'.Prompt p) (hr' : r'.Books p)
    (hcalls : ∀ i w, CalledIn r.calls i w → ∃ w', CalledIn r'.calls i w')
    (hover : r.ending? ≠ none) : r.waves ≤ r'.waves := by
  rcases h.busy hover with hzero | ⟨i, hcalled⟩
  · exact hzero ▸ Nat.zero_le _
  · obtain ⟨c, hc, -, hwave⟩ := h.calledIn_of h'.toPunctual hr'.once hcalls hcalled
    exact hwave ▸ hr'.wave_le hc

end Run

/-- **Every rule starts as early as it can.** Take a plan in which no rule crashes when it is asked
for its time limit, any settings and any order of events, and a run that is not cancelled. No rule
is started twice; each that is started has all its dependencies started before it, and its wave is
the next after theirs, or the first if it has none. A check ends with a failed dependency if and
only if its rule is never started. Once the run is over, it had as many waves as the longest chain
of dependencies among rules that were started has checks. If dependencies are not cyclic, and there
are no more permits than there can be, every check then has a result, and every other run, with any
such settings and any order of events, starts the same rules in the same waves. -/
theorem earliest_waves (p : Plan) (hlimits : ∀ check ∈ p.checks, check.logic.limit ≠ .faulty)
    {settings : Settings} {es : List Event} {r : Run}
    (hrun : (Run.start p settings false).stepAll? p settings es = some r)
    (hcancelled : r.cancelled = false) :
    (r.calls.map (·.index)).Nodup ∧ (∀ c ∈ r.calls, Run.Earliest p r.calls c.index c.wave) ∧
      (∀ i e, r.ledger.entry? i = some e →
        (e.result.outcome = .dependencyFailed ↔ ∀ w, ¬ Run.CalledIn r.calls i w)) ∧
      (r.ending? ≠ none →
        IsGreatest {n | ∃ chain, Run.Chained p r.calls chain ∧ chain.length = n} r.waves ∧
          (p.Orderly → settings.permits ≤ Settings.permitLimit →
            (∀ i < p.size, r.ledger.contains i = true) ∧
              ∀ settings' es' r', settings'.permits ≤ Settings.permitLimit →
                (Run.start p settings' false).stepAll? p settings' es' = some r' →
                  r'.cancelled = false → r'.ending? ≠ none →
                    r'.waves = r.waves ∧
                      ∀ i w, Run.CalledIn r'.calls i w ↔ Run.CalledIn r.calls i w)) := by
  have hregular := (Run.start_regular p settings false).stepAll hrun
  have hprompt := (Run.start_prompt p settings false).stepAll (Run.start_regular p settings false)
    hlimits hrun hcancelled
  refine ⟨hregular.once, fun c hc => hprompt.earliest hc, fun i e he => hprompt.failed_iff he,
    fun hover => ⟨hprompt.waves_isGreatest hregular.toBooks (hprompt.busy hover),
      fun hp hpermits => ?_⟩⟩
  have hsound := (Run.start_sound hp hpermits false).stepAll hlimits hrun hcancelled
  refine ⟨(hsound.finished hover).2,
    fun settings' es' r' hpermits' hrun' hcancelled' hover' => ?_⟩
  have hregular' := (Run.start_regular p settings' false).stepAll hrun'
  have hprompt' := (Run.start_prompt p settings' false).stepAll
    (Run.start_regular p settings' false) hlimits hrun' hcancelled'
  have hsound' := (Run.start_sound hp hpermits' false).stepAll hlimits hrun' hcancelled'
  -- Both runs start the rules whose reference results are not failed dependencies.
  have hsame : ∀ i, (∃ w, Run.CalledIn r.calls i w) ↔ ∃ w, Run.CalledIn r'.calls i w := fun i =>
    (hprompt.called_iff hsound hover).trans (hprompt'.called_iff hsound' hover').symm
  have hcalls : ∀ i w, Run.CalledIn r.calls i w → ∃ w', Run.CalledIn r'.calls i w' :=
    fun i w h => (hsame i).mp ⟨w, h⟩
  have hcalls' : ∀ i w, Run.CalledIn r'.calls i w → ∃ w', Run.CalledIn r.calls i w' :=
    fun i w h => (hsame i).mpr ⟨w, h⟩
  refine ⟨Nat.le_antisymm ?_ ?_, fun i w => ⟨?_, ?_⟩⟩
  · exact hprompt'.waves_le hprompt hregular.toBooks hcalls' hover'
  · exact hprompt.waves_le hprompt' hregular'.toBooks hcalls hover
  · exact hprompt'.calledIn_of hprompt.toPunctual hregular.once hcalls'
  · exact hprompt.calledIn_of hprompt'.toPunctual hregular'.once hcalls

/-- Three checks that wait for each other take three waves, beside each other as well as one by
one. -/
theorem earliest_waves_locked :
    ∃ p es es',
      Plan.prepareTo (Manifest.build "Folder" lockedEdits) lockedRules .skip 6 folder = .ok p ∧
      (∀ check ∈ p.checks, check.logic.limit ≠ .faulty) ∧ p.Orderly ∧
      ∃ r r', (Run.start p {} false).stepAll? p {} es = some r ∧ r.cancelled = false ∧
        r.ending? ≠ none ∧ r.waves = 3 ∧
        IsGreatest {n | ∃ chain, Run.Chained p r.calls chain ∧ chain.length = n} r.waves ∧
        (Run.start p { concurrent := false } false).stepAll? p { concurrent := false } es' =
          some r' ∧
        r'.cancelled = false ∧ r'.ending? ≠ none ∧ r'.waves = r.waves := by
  have hsome : ((Plan.prepareTo (Manifest.build "Folder" lockedEdits) lockedRules .skip 6
      folder).toOption.any fun p => p.checks.all (·.logic.limit != .faulty) &&
        (!(Run.complete p {} false none).cancelled &&
          decide ((Run.complete p {} false none).waves = 3)) &&
        !(Run.complete p { concurrent := false } false none).cancelled) = true := by
    decide +kernel
  obtain ⟨p, hp, htest⟩ := (Option.any_eq_true _ _).mp hsome
  simp only [Bool.and_eq_true, List.all_eq_true, bne_iff_ne, Bool.not_eq_true',
    decide_eq_true_eq] at htest
  obtain ⟨⟨hlimits, hcancelled, hwaves⟩, hcancelled'⟩ := htest
  have hprepare := Fallible.eq_ok_of_toOption hp
  have horderly := Plan.orderly_of_prepareTo hprepare
  have hpermits : Settings.permits {} ≤ Settings.permitLimit := by decide
  have hpermits' : Settings.permits { concurrent := false } ≤ Settings.permitLimit := by decide
  obtain ⟨es, hrun⟩ := Run.exists_events_complete p {} false none
  obtain ⟨es', hrun'⟩ := Run.exists_events_complete p { concurrent := false } false none
  have hover := Run.over_complete horderly hlimits hpermits false none
  have hover' := Run.over_complete horderly hlimits hpermits' false none
  obtain ⟨-, -, -, hend⟩ := earliest_waves p hlimits hrun hcancelled
  obtain ⟨hgreatest, hothers⟩ := hend hover
  have hsame := ((hothers horderly hpermits).2 _ _ _ hpermits' hrun' hcancelled' hover').1
  exact ⟨p, es, es', hprepare, hlimits, horderly, _, _, hrun, hcancelled, hover, hwaves, hgreatest,
    hrun', hcancelled', hover', hsame⟩

end Vetting
