import Vetting.Proofs.Run.Steps

/-!
# What every run keeps to

`Run.Regular` holds of every run of every plan, also of one that is cancelled or in which a rule
breaks down: whatever a group still has ahead can be made (`Plan.Admissible`), the rules that were
started have results or are asleep, and a run ends the way its state tells. The dependencies of the
plan may even be cyclic.

Between an event and the next state there may be a rule that is being carried on; `Run.Applies` is
the invariant at that moment, and `Run.Carried.regular` the step out of it, which permits, sleeps
that end and sleeps that are cut short have in common.
-/

namespace Vetting

/-! ## Checks of a group -/

namespace Plan

/-- The group of its wave that a check belongs to. -/
def phaseOf (p : Plan) (settings : Settings) (i : Nat) : Phase :=
  if p.isConcurrent settings i then .concurrent else .serial

/-- A check that can be made and has not been made. -/
structure Admissible (p : Plan) (l : Ledger) (i : Nat) : Prop where
  isOpen : l.contains i = false
  cleared : p.Cleared l i

variable {p : Plan} {l : Ledger} {i j : Nat}

theorem phaseOf_eq_concurrent {settings : Settings} :
    p.phaseOf settings i = .concurrent ↔
      settings.concurrent = true ∧
        ∃ check, p.check? i = some check ∧ check.logic.parallelSafe = true := by
  rw [← Option.any_eq_true, ← Bool.and_eq_true, ← isConcurrent, phaseOf]
  split
  · exact iff_of_true rfl ‹_›
  · exact iff_of_false nofun ‹_›

theorem Cleared.lt_size (h : p.Cleared l i) : i < p.size := by
  obtain ⟨check, hc, -⟩ := h
  exact (List.getElem?_eq_some_iff.mp hc).1

theorem Admissible.record (h : p.Admissible l j) (hopen : l.contains i = false) (hne : j ≠ i)
    (e : Entry) : p.Admissible (l.record i e) j := by
  refine ⟨?_, h.cleared.mono (Ledger.below_record l i e)⟩
  rw [Ledger.contains_record hopen, h.isOpen, decide_eq_false hne, Bool.or_false]

end Plan

/-- What a group keeps to. -/
structure Group.Regular (g : Group) (p : Plan) (settings : Settings) (l : Ledger) : Prop where
  nodup : g.ahead.Nodup
  admissible {i : Nat} (hi : i ∈ g.ahead) : p.Admissible l i
  permits : g.asleep.length ≤ Run.permits settings g.phase
  waiting {i : Nat} (hi : i ∈ g.waiting) : p.phaseOf settings i = g.phase
  serial {i : Nat} (hi : i ∈ g.serial) : p.phaseOf settings i = .serial
  /-- Nothing comes after the serial group. -/
  last (h : g.phase = .serial) : g.serial = []
  ascending : g.waiting.Pairwise (· < ·) ∧ g.serial.Pairwise (· < ·)

namespace Group.Regular

variable {g g' : Group} {p : Plan} {settings : Settings} {l : Ledger} {i : Nat} {s : Sleeper}

theorem call (h : g.Regular p settings l) (i : Nat) : (g.call i).Regular p settings l where
  nodup := h.nodup.sublist ahead_call_sublist
  admissible hi := h.admissible (ahead_call_sublist.subset hi)
  permits := h.permits
  waiting hi := h.waiting (List.mem_of_mem_erase hi)
  serial := h.serial
  last := h.last
  ascending := ⟨h.ascending.1.sublist List.erase_sublist, h.ascending.2⟩

theorem awake (h : g.Regular p settings l) (i : Nat) :
    ({ g with asleep := g.asleep.filter (·.index != i) } : Group).Regular p settings l where
  nodup := h.nodup.sublist ahead_awake_sublist
  admissible hi := h.admissible (ahead_awake_sublist.subset hi)
  permits := Nat.le_trans (List.length_filter_le _ _) h.permits
  waiting := h.waiting
  serial := h.serial
  last := h.last
  ascending := h.ascending

theorem record (h : g.Regular p settings l) (hopen : l.contains i = false) (hi : i ∉ g.ahead)
    (e : Entry) : g.Regular p settings (l.record i e) where
  nodup := h.nodup
  admissible hj := (h.admissible hj).record hopen (fun heq => hi (heq ▸ hj)) e
  permits := h.permits
  waiting := h.waiting
  serial := h.serial
  last := h.last
  ascending := h.ascending

theorem sleep (h : g.Regular p settings l) (hnew : s.index ∉ g.ahead)
    (hs : p.Admissible l s.index) (hpermit : g.asleep.length < Run.permits settings g.phase) :
    ({ g with asleep := g.asleep ++ [s] } : Group).Regular p settings l := by
  refine ⟨nodup_ahead_sleep h.nodup hnew, fun {i} hi => ?_, ?_, h.waiting, h.serial, h.last,
    h.ascending⟩
  · rcases mem_ahead_sleep.mp hi with rfl | hi
    · exact hs
    · exact h.admissible hi
  · rw [List.length_append]
    exact hpermit

/-- The serial group starts where the concurrent one has ended. -/
theorem next (h : g.Regular p settings l) (hwaiting : g.waiting = []) (hasleep : g.asleep = []) :
    ({ phase := .serial, waiting := g.serial } : Group).Regular p settings l := by
  have hahead := ahead_turn hwaiting hasleep
  exact
    { nodup := hahead ▸ h.nodup
      admissible := fun hi => h.admissible (hahead ▸ hi)
      permits := Nat.zero_le _
      waiting := h.serial
      serial := fun hi => absurd hi List.not_mem_nil
      last := fun _ => rfl
      ascending := ⟨h.ascending.2, .nil⟩ }

/-- In the serial group the check whose turn it is comes before all that wait after it. -/
theorem lt_of_mayCall (h : g.Regular p settings l) (hphase : g.phase = .serial)
    (hturn : g.mayCall i = true) : ∀ j ∈ (g.call i).waiting, i < j := by
  have hhead : g.waiting.head? = some i := by simpa [mayCall, hphase] using hturn
  obtain ⟨rest, hrest⟩ := List.head?_eq_some_iff.mp hhead
  have hascending := h.ascending.1
  rw [hrest] at hascending
  intro j hj
  rw [Group.call, hrest, List.erase_cons_head] at hj
  exact List.rel_of_pairwise_cons hascending hj

end Group.Regular

/-! ## The invariant -/

namespace Run

/-- What holds of a run in every stage. -/
structure Books (r : Run) (p : Plan) : Prop where
  nodup : r.ledger.keys.Nodup
  lt_size {i : Nat} (h : r.ledger.contains i = true) : i < p.size
  pending : r.pending.Sublist (List.range p.size)
  mem_pending {i : Nat} (hi : i < p.size) (hopen : r.ledger.contains i = false) : i ∈ r.pending
  faulty (h : r.broken = true) : ∃ check ∈ p.checks, check.logic.limit = .faulty
  /-- No check is started twice. -/
  once : (r.calls.map (·.index)).Nodup
  wave_le {c : Call} (hc : c ∈ r.calls) : c.wave ≤ r.waves

/-- A run within a wave, with group `g` in progress and the checks of `running` started. -/
structure Tends (r : Run) (p : Plan) (settings : Settings) (g : Group) (running : List Nat) :
    Prop where
  group : g.Regular p settings r.ledger
  unbroken (h : g.phase = .serial) : r.broken = false
  accounted {c : Call} (hc : c ∈ r.calls) :
    r.ledger.contains c.index = true ∨ c.index ∈ running
  /-- Serial checks come after those that were made. -/
  behind {c : Call} (hc : c ∈ r.calls) (hwave : c.wave = r.waves) (hphase : c.phase = .serial) :
    g.phase = .serial ∧ ∀ i ∈ g.waiting, c.index < i

/-- A run in which the rule of check `i` is being carried on, beside those of the sleepers. -/
structure Applies (r : Run) (p : Plan) (settings : Settings) (g : Group) (i : Nat) : Prop
    extends r.Books p, r.Tends p settings g (i :: g.asleep.map (·.index)) where
  admissible : p.Admissible r.ledger i
  apart : i ∉ g.ahead
  permit : g.asleep.length < permits settings g.phase

/-- What the end of a run tells. -/
def Tells (r : Run) (p : Plan) (settings : Settings) : Ending → Prop
  | .finished => ∀ i < p.size, r.ledger.contains i = true
  | .stalled _ => ¬ p.Orderly
  | .cancelled completed =>
    r.cancelled = true ∧ completed = r.ledger.size ∧ ∃ i < p.size, r.ledger.contains i = false
  | .taskFailed => ∃ check ∈ p.checks, check.logic.limit = .faulty
  | .crashed =>
    (∃ check ∈ p.checks, check.logic.limit = .faulty) ∨ Settings.permitLimit < settings.permits

/-- What the stage of a run tells. -/
def Assures (r : Run) (p : Plan) (settings : Settings) : Stage → Prop
  | .between =>
    r.broken = false ∧ (∀ i ∈ r.pending, r.ledger.contains i = false) ∧
      ∀ c ∈ r.calls, r.ledger.contains c.index = true
  | .within g => r.Tends p settings g (g.asleep.map (·.index))
  | .ended ending => r.Tells p settings ending

structure Regular (r : Run) (p : Plan) (settings : Settings) : Prop extends r.Books p where
  stage : r.Assures p settings r.stage

variable {p : Plan} {settings : Settings} {r r' : Run} {e : Event} {g : Group}

theorem Regular.tends (h : r.Regular p settings) (hwithin : r.stage = .within g) :
    r.Tends p settings g (g.asleep.map (·.index)) := by
  have hstage := h.stage
  rwa [hwithin] at hstage

theorem Regular.between (h : r.Regular p settings) (hbetween : r.stage = .between) :
    r.broken = false ∧ (∀ i ∈ r.pending, r.ledger.contains i = false) ∧
      ∀ c ∈ r.calls, r.ledger.contains c.index = true := by
  have hstage := h.stage
  rwa [hbetween] at hstage

theorem Regular.whole (h : r.Regular p settings) (hover : r.ending? = some .finished) :
    ∀ i < p.size, r.ledger.contains i = true := by
  have hstage := h.stage
  cases hs : r.stage with
  | between | within => simp [ending?, hs] at hover
  | ended ending =>
      rw [ending?, hs] at hover
      rw [hs, Option.some.inj hover] at hstage
      exact hstage

theorem start_regular (p : Plan) (settings : Settings) (cancelled : Bool) :
    (start p settings cancelled).Regular p settings where
  nodup := List.nodup_nil
  lt_size := nofun
  pending := List.Sublist.refl _
  mem_pending hi _ := List.mem_range.mpr hi
  faulty := nofun
  once := List.nodup_nil
  wave_le := nofun
  stage := by
    rcases start_stage_cases p settings cancelled with hstage | ⟨hpermits, hstage⟩
    · rw [hstage]
      exact ⟨rfl, fun _ _ => rfl, nofun⟩
    · rw [hstage]
      exact .inr hpermits

theorem Books.size_eq (h : r.Books p) :
    r.ledger.size = (List.range p.size).countP r.ledger.contains :=
  Ledger.size_eq_countP h.nodup fun _ => h.lt_size

theorem Books.size_le (h : r.Books p) : r.ledger.size ≤ p.size := by
  rw [h.size_eq]
  exact Nat.le_trans List.countP_le_length (Nat.le_of_eq List.length_range)

/-! ## Carrying a rule on -/

theorem Carried.regular {a : Application} {sleeps : Nat}
    (h : Carried settings r g a sleeps r') (hr : r.Applies p settings g a.index) :
    r'.Regular p settings := by
  have hopen := hr.admissible.isOpen
  cases h with
  | ended cancelled _ answer =>
      refine ⟨⟨Ledger.nodup_keys_record hr.nodup _ _, fun {i} hi => ?_, hr.pending,
        fun {i} hi hi' => ?_, hr.faulty, hr.once, hr.wave_le⟩, ?_⟩
      · rcases Bool.or_eq_true _ _ ▸ (Ledger.contains_record hopen _ i).symm.trans hi with hi | hi
        · exact of_decide_eq_true hi ▸ hr.admissible.cleared.lt_size
        · exact hr.lt_size hi
      · exact hr.mem_pending hi ((Ledger.below_record _ _ _).contains_eq_false hi')
      · refine ⟨hr.group.record hopen hr.apart _, hr.unbroken, fun {c} hc => ?_, hr.behind⟩
        rcases hr.accounted hc with hc | hc
        · exact .inl ((Ledger.below_record _ _ _).contains hc)
        · rcases List.mem_cons.mp hc with heq | hc
          · exact .inl (heq ▸ Ledger.contains_record_self _ _ _)
          · exact .inr hc
  | @asleep cancelled _ s ha =>
      subst ha
      refine { hr.toBooks with stage := ⟨?_, hr.unbroken, fun {c} hc => ?_, hr.behind⟩ }
      · exact hr.group.sleep hr.apart hr.admissible hr.permit
      · refine (hr.accounted hc).imp_right fun hc => ?_
        rw [List.map_append]
        rcases List.mem_cons.mp hc with heq | hc
        · exact List.mem_append_right _ (List.mem_singleton.mpr heq)
        · exact List.mem_append_left _ hc

/-- A permit takes its check from those that wait. -/
theorem Regular.applies_grant {i : Nat} (h : r.Regular p settings) (hwithin : r.stage = .within g)
    (hturn : g.mayCall i = true) (hpermit : g.asleep.length < permits settings g.phase) :
    ({ r with calls := r.calls ++ [r.callOf (g.call i) i] } : Run).Applies p settings (g.call i)
      i := by
  have ht := h.tends hwithin
  have hwaiting := Group.mem_waiting_of_mayCall hturn
  have hi := Group.mem_ahead.mpr (.inl hwaiting)
  have hadmissible := ht.group.admissible hi
  refine
    { h.toBooks with
      once := ?_, wave_le := fun {c} hc => ?_, group := ht.group.call i, unbroken := ht.unbroken,
      accounted := fun {c} hc => ?_, behind := fun {c} hc hwave hphase => ?_,
      admissible := hadmissible, apart := Group.not_mem_ahead_call ht.group.nodup hwaiting,
      permit := hpermit }
  · -- A check that was called before has a result or sleeps, and one that waits does neither.
    rw [List.map_append]
    refine List.nodup_append.mpr ⟨h.once, List.nodup_singleton _, fun j hj k hk heq => ?_⟩
    obtain ⟨c, hc, rfl⟩ := List.mem_map.mp hj
    obtain rfl := List.mem_singleton.mp hk
    rcases ht.accounted hc with hdone | hasleep
    · rw [heq, hadmissible.isOpen] at hdone
      cases hdone
    · refine Group.not_mem_ahead_call ht.group.nodup hwaiting (Group.mem_ahead.mpr ?_)
      exact .inr (.inl (List.mem_map.mp (heq ▸ hasleep)))
  · rcases List.mem_append.mp hc with hc | hc
    · exact h.wave_le hc
    · exact Nat.le_of_eq (congrArg Call.wave (List.mem_singleton.mp hc))
  · rcases List.mem_append.mp hc with hc | hc
    · exact (ht.accounted hc).imp_right (List.mem_cons_of_mem _)
    · exact .inr (List.mem_singleton.mp hc ▸ List.mem_cons_self)
  · rcases List.mem_append.mp hc with hc | hc
    · obtain ⟨hserial, hbehind⟩ := ht.behind hc hwave hphase
      exact ⟨hserial, fun j hj => hbehind j (List.mem_of_mem_erase hj)⟩
    · obtain rfl := List.mem_singleton.mp hc
      exact ⟨hphase, ht.group.lt_of_mayCall hphase hturn⟩

/-- A sleeper that is carried on leaves those that sleep. -/
theorem Regular.applies_take {g' : Group} {i : Nat} {s : Sleeper} (h : r.Regular p settings)
    (hwithin : r.stage = .within g) (hs : g.take? i = some (s, g')) :
    r.Applies p settings g' i := by
  have ht := h.tends hwithin
  obtain ⟨hasleep, rfl, rfl⟩ := Group.take?_eq_some hs
  refine
    { h.toBooks with
      group := ht.group.awake s.index, unbroken := ht.unbroken, accounted := fun {c} hc => ?_,
      behind := ht.behind,
      admissible := ht.group.admissible (Group.mem_ahead.mpr (.inr (.inl ⟨s, hasleep, rfl⟩)))
      apart := Group.not_mem_ahead_awake ht.group.nodup hasleep rfl, permit := ?_ }
  · refine (ht.accounted hc).imp_right fun hc => ?_
    obtain ⟨s', hs', heq⟩ := List.mem_map.mp hc
    by_cases hsame : s'.index = s.index
    · exact List.mem_cons.mpr (.inl (heq ▸ hsame))
    · refine List.mem_cons_of_mem _ (List.mem_map.mpr ⟨s', List.mem_filter.mpr ⟨hs', ?_⟩, heq⟩)
      simpa using hsame
  · refine Nat.lt_of_lt_of_le ?_ ht.group.permits
    exact List.length_filter_lt_length_iff_exists.mpr ⟨s, hasleep, by simp⟩

theorem Granted.regular {i : Nat} {check : Check} (h : Granted p settings r (g.call i) i check r')
    (hr : r.Regular p settings) (hwithin : r.stage = .within g) (hturn : g.mayCall i = true)
    (hpermit : g.asleep.length < permits settings g.phase) (hc : p.check? i = some check) :
    r'.Regular p settings := by
  have ht := hr.tends hwithin
  have hwaiting := Group.mem_waiting_of_mayCall hturn
  have hcheck := List.mem_of_getElem? hc
  have hbehind : ∀ {c : Call}, c ∈ r.calls → c.wave = r.waves → c.phase = .serial →
      (g.call i).phase = .serial ∧ ∀ j ∈ (g.call i).waiting, c.index < j := fun hc hwave hserial =>
    have hafter := ht.behind hc hwave hserial
    ⟨hafter.1, fun j hj => hafter.2 j (List.mem_of_mem_erase hj)⟩
  cases h with
  | dropped =>
      exact { hr.toBooks with
        stage := ⟨ht.group.call i, ht.unbroken, ht.accounted, hbehind⟩ }
  | stopped _ hcancelled =>
      have hadmissible := ht.group.admissible (Group.mem_ahead.mpr (.inl hwaiting))
      exact { hr.toBooks with
        stage := ⟨hcancelled, rfl, i, hadmissible.cleared.lt_size, hadmissible.isOpen⟩ }
  | broke hphase hlimit =>
      refine { hr.toBooks with
        faulty := fun _ => ⟨check, hcheck, hlimit⟩
        stage := ⟨ht.group.call i, fun hserial => ?_, ht.accounted, hbehind⟩ }
      rw [hphase] at hserial
      cases hserial
  | crashed _ hlimit => exact { hr.toBooks with stage := .inl ⟨check, hcheck, hlimit⟩ }
  | launched _ hcarried => exact hcarried.regular (hr.applies_grant hwithin hturn hpermit)

/-! ## Surveys and ends of groups -/

/-- Leaving out the checks that have results changes nothing of what is kept. -/
theorem Books.filter (h : r.Books p) {l : Ledger} (hkeys : l.keys.Nodup)
    (hbelow : r.ledger.Below l) (hlt : ∀ {i}, l.contains i = true → i < p.size) :
    ({ r with ledger := l, pending := r.pending.filter (!l.contains ·) } : Run).Books p := by
  refine { h with
    nodup := hkeys, lt_size := hlt, pending := ?_, mem_pending := fun {i} hi hi' => ?_ }
  · exact List.filter_sublist.trans h.pending
  · exact List.mem_filter.mpr
      ⟨h.mem_pending hi (hbelow.contains_eq_false hi'), (Bool.not_eq_true' _).mpr hi'⟩

theorem Books.settled (h : r.Books p) : (r.settled p).Books p := by
  have hsettles := Plan.settle_settles p r.pending r.ledger
  refine h.filter (hsettles.nodup h.nodup) hsettles.below fun {i} hi => ?_
  cases hc : r.ledger.contains i with
  | true => exact h.lt_size hc
  | false => exact List.mem_range.mp (h.pending.subset (hsettles.of_pending hc hi))

/-- A wave begins with all that is ready. -/
theorem nextWave_regular (h : r.Books p) (settings : Settings) :
    ((r.settled p).nextWave p settings).Regular p settings (r.settled p).ledger := by
  have hperm := ahead_nextWave_perm p settings (r.settled p)
  have hsub : ((r.settled p).ready p).Sublist (List.range p.size) :=
    List.filter_sublist.trans h.settled.pending
  refine
    { nodup := hperm.nodup_iff.mpr (hsub.nodup List.nodup_range), admissible := fun {i} hi => ?_,
      permits := Nat.zero_le _, waiting := fun {i} hi => ?_, serial := fun {i} hi => ?_,
      last := nofun, ascending := ?_ }
  · obtain ⟨hpending, hready⟩ := List.mem_filter.mp (hperm.mem_iff.mp hi)
    have hopen := open_of_settled hpending
    have hfree := Plan.not_isBlocked_settle (List.mem_of_mem_filter hpending) hopen
    exact ⟨hopen, Plan.cleared_of_isReady hready hfree⟩
  · exact if_pos (List.mem_filter.mp hi).2
  · refine if_neg ?_
    simpa using (List.mem_filter.mp hi).2
  · have hascending := List.pairwise_lt_range.sublist hsub
    exact ⟨hascending.filter _, hascending.filter _⟩

theorem Outlook.regular (h : Outlook p settings r r') (hr : r.Regular p settings)
    (hbetween : r.stage = .between) : r'.Regular p settings := by
  obtain ⟨hunbroken, hopen, hcalls⟩ := hr.between hbetween
  have hbooks := hr.toBooks.settled
  have hsettled : ∀ c ∈ r.calls, (r.settled p).ledger.contains c.index = true := fun c hc =>
    (Plan.settle_settles p r.pending r.ledger).below.contains (hcalls c hc)
  have hpromise : ∀ i ∈ r.pending, i < p.size ∧ r.ledger.contains i = false := fun i hi =>
    ⟨List.mem_range.mp (hr.pending.subset hi), hopen i hi⟩
  cases h with
  | finished hpending =>
      refine { hr.toBooks with stage := fun i hi => ?_ }
      refine Bool.of_not_eq_false fun hc => ?_
      have hmem := hr.mem_pending hi hc
      rw [hpending] at hmem
      cases hmem
  | cancelled hpending hcancelled =>
      obtain ⟨i, hi⟩ := List.exists_mem_of_ne_nil _ hpending
      exact { hr.toBooks with stage := ⟨hcancelled, rfl, i, hpromise i hi⟩ }
  | settled =>
      refine { hbooks with stage := ?_ }
      rw [show (r.settled p).stage = .between from hbetween]
      exact ⟨hunbroken, fun i hi => open_of_settled hi, hsettled⟩
  | stalled hpending _ hready hsize =>
      refine { hbooks with stage := fun hp => ?_ }
      exact ready_ne_nil hp hpending hpromise (fun _ => hr.mem_pending) hsize hready
  | wave =>
      refine { hbooks with
        wave_le := fun hc => Nat.le_succ_of_le (hr.wave_le hc)
        stage := ⟨nextWave_regular hr.toBooks settings, fun _ => hunbroken,
          fun hc => .inl (hsettled _ hc), fun hc hwave => ?_⟩ }
      have hle := hr.wave_le hc
      rw [show _ = r.waves + 1 from hwave] at hle
      exact absurd hle (Nat.not_succ_le_self _)

theorem Regular.turn (h : r.Regular p settings) (hwithin : r.stage = .within g)
    (hphase : g.phase = .concurrent) (hwaiting : g.waiting = []) (hasleep : g.asleep = [])
    (hbroken : r.broken = false) :
    ({ r with stage := .within { phase := .serial, waiting := g.serial } } : Run).Regular p
      settings := by
  have ht := h.tends hwithin
  refine { h.toBooks with stage := ⟨ht.group.next hwaiting hasleep, fun _ => hbroken,
    fun {c} hc => ?_, fun hc hwave hserial => ?_⟩ }
  · simpa [hasleep] using ht.accounted hc
  · -- Before the serial group the wave has started no serial check.
    have hafter := (ht.behind hc hwave hserial).1
    rw [hphase] at hafter
    cases hafter

theorem Regular.done (h : r.Regular p settings) (hwithin : r.stage = .within g)
    (hasleep : g.asleep = []) (hbroken : r.broken = false) :
    ({ r with
        pending := r.pending.filter (!r.ledger.contains ·)
        stage := .between } : Run).Regular p settings := by
  have ht := h.tends hwithin
  refine { h.toBooks.filter h.nodup (.refl _) h.lt_size with
    stage := ⟨hbroken, fun i hi => ?_, fun c hc => ?_⟩ }
  · exact (Bool.not_eq_true' _).mp (List.mem_filter.mp hi).2
  · simpa [hasleep] using ht.accounted hc

/-! ## Runs -/

theorem Regular.step (h : r.Regular p settings) (hstep : Step p settings r e r') :
    r'.Regular p settings := by
  cases hstep.effect with
  | pass _ hopen | cancel hopen =>
      refine { h.toBooks with stage := ?_ }
      show Run.Assures _ p settings r.stage
      cases hs : r.stage with
      | between => exact h.between hs
      | within g => exact { h.tends hs with }
      | ended ending => rw [ending?, hs] at hopen; cases hopen
  | survey hbetween houtlook => exact houtlook.regular h hbetween
  | grant hwithin hturn hpermit hc hgranted => exact hgranted.regular h hwithin hturn hpermit hc
  | wake hwithin hs ha _ hcarried => exact hcarried.regular (ha ▸ h.applies_take hwithin hs)
  | turn hwithin hphase hwaiting hasleep hbroken =>
      exact h.turn hwithin hphase hwaiting hasleep hbroken
  | done hwithin _ _ hasleep hbroken => exact h.done hwithin hasleep hbroken
  | collapse _ hbroken => exact { h.toBooks with stage := h.faulty hbroken }

theorem Regular.stepAll {es : List Event} (h : r.Regular p settings)
    (hsteps : r.stepAll? p settings es = some r') : r'.Regular p settings :=
  preserved_stepAll (P := fun r => r.Regular p settings) (fun _ _ _ h hstep => h.step hstep) h
    hsteps

end Run

end Vetting
