import Vetting.Proofs.Run.Unwinding

/-!
# Runs against a clock come to an end

The clock picks one order of events (`Run.next?`). It always finds one that can occur: an event that
comes from the run, the cancellation from outside, or the passing of time to a moment at which
something is due (`Run.Regular.next`). So at most every second event is the passing of time, and
`Run.complete` is over before it runs out of steps, whenever it is cancelled (`Run.over_complete`).
-/

namespace Vetting.Run

variable {p : Plan} {hp : p.Orderly} {settings : Settings} {r r' : Run} {e : Event} {g : Group}
  {cancelAt : Option Nat}

/-! ## What the clock does is a run -/

theorem exists_events_play (p : Plan) (settings : Settings) (cancelAt : Option Nat) (steps : Nat)
    (r : Run) : ∃ es, r.stepAll? p settings es = some (r.play p settings cancelAt steps) := by
  induction steps generalizing r with
  | zero => exact ⟨[], rfl⟩
  | succ steps ih =>
      rw [play]
      cases hnext : (r.next? settings cancelAt).bind (r.step? p settings) with
      | none => exact ⟨[], rfl⟩
      | some r' =>
          obtain ⟨e, -, hstep⟩ := Option.bind_eq_some_iff.mp hnext
          obtain ⟨es, hes⟩ := ih r'
          exact ⟨e :: es, by rw [stepAll?, hstep]; exact hes⟩

/-- The run of a plan to its end is one of its runs. -/
theorem exists_events_complete (p : Plan) (settings : Settings) (cancelled : Bool)
    (cancelAt : Option Nat) :
    ∃ es, (start p settings cancelled).stepAll? p settings es =
      some (complete p settings cancelled cancelAt) :=
  exists_events_play p settings cancelAt _ _

/-! ## The next event -/

/-- The time of the cancellation from outside, if it is still to come. -/
def coming? (cancelAt : Option Nat) (r : Run) : Option Nat := if r.cancelled then none else cancelAt

/-- Whether the cancellation from outside is due. -/
def isCancelDue (cancelAt : Option Nat) (r : Run) : Bool :=
  (r.coming? cancelAt).any fun t => decide (t ≤ r.now)

/-- Whether the cancellation from outside is due, or some sleeper. -/
def isDue (cancelAt : Option Nat) (r : Run) : Bool :=
  r.isCancelDue cancelAt ||
    match r.stage with
    | .within g => g.asleep.any fun s => s.due ≤ r.now
    | _ => false

theorem nextDue_eq_some {first : Option Nat} {asleep : List Sleeper} {t : Nat}
    (h : nextDue first asleep = some t) : first = some t ∨ ∃ s ∈ asleep, s.due = t := by
  induction asleep generalizing first with
  | nil => exact .inl h
  | cons s asleep ih =>
      rcases ih h with hfirst | ⟨s', hs', ht⟩
      · cases first with
        | none => exact .inr ⟨s, List.mem_cons_self, by simpa using hfirst⟩
        | some n =>
            have hmin : min s.due n = t := Option.some.inj hfirst
            rcases Nat.le_total s.due n with hle | hle
            · exact .inr ⟨s, List.mem_cons_self, by omega⟩
            · exact .inl (congrArg some (by omega))
      · exact .inr ⟨s', List.mem_cons_of_mem _ hs', ht⟩

theorem exists_nextDue {first : Option Nat} {asleep : List Sleeper}
    (h : first.isSome ∨ asleep ≠ []) : ∃ t, nextDue first asleep = some t := by
  induction asleep generalizing first with
  | nil => exact Option.isSome_iff_exists.mp (h.resolve_right fun hne => hne rfl)
  | cons s asleep ih => exact ih (.inl rfl)

/-- A sleeper is found by its number. -/
theorem take?_of_mem {s : Sleeper} (hnodup : g.ahead.Nodup) (hs : s ∈ g.asleep) :
    g.take? s.index = some (s, { g with asleep := g.asleep.filter (·.index != s.index) }) := by
  cases hfind : g.asleep.find? (·.index == s.index) with
  | none => exact absurd (List.find?_eq_none.mp hfind s hs) (by simp)
  | some s' =>
      have hindex : s'.index = s.index := by simpa using List.find?_some hfind
      have hmap : (g.asleep.map (·.index)).Nodup :=
        (List.nodup_append.mp (List.nodup_append.mp hnodup).1).2.1
      obtain rfl := List.inj_on_of_nodup_map hmap (List.mem_of_find?_eq_some hfind) hs hindex
      rw [Group.take?, hfind]
      rfl

/-- What the clock finds next. -/
inductive Finds (p : Plan) (settings : Settings) (cancelAt : Option Nat) (r : Run) : Event → Prop
  | advance {e : Event} {r' : Run} (hadvances : e.advances = true)
      (hstep : Step p settings r e r') : Finds p settings cancelAt r e
  | cancel (hopen : r.ending? = none) (hdue : r.isCancelDue cancelAt = true) :
      Finds p settings cancelAt r .cancel
  | pass {millis : Nat} (hopen : r.ending? = none) (hidle : r.isDue cancelAt = false)
      (hdue : ({ r with now := r.now + millis } : Run).isDue cancelAt = true) :
      Finds p settings cancelAt r (.pass millis)

theorem Finds.exists_step (h : Finds p settings cancelAt r e) : ∃ r', Step p settings r e r' := by
  cases h with
  | advance _ hstep => exact ⟨_, hstep⟩
  | cancel hopen => exact ⟨_, .cancel hopen⟩
  | pass hopen => exact ⟨_, .pass _ hopen⟩

/-- Time passes to a moment at which something is due. -/
theorem finds_pass (hwithin : r.stage = .within g) (hidle : r.isDue cancelAt = false) {t : Nat}
    (ht : nextDue (r.coming? cancelAt) g.asleep = some t) :
    Finds p settings cancelAt r (.pass (t - r.now)) := by
  have hle : t ≤ r.now + (t - r.now) := by omega
  refine .pass (by rw [ending?, hwithin]) hidle (Bool.or_eq_true _ _ ▸ ?_)
  rcases nextDue_eq_some ht with hcoming | ⟨s, hs, hdue⟩
  · left
    show (r.coming? cancelAt).any _ = true
    rw [hcoming]
    exact decide_eq_true hle
  · right
    rw [hwithin]
    exact List.any_eq_true.mpr ⟨s, hs, decide_eq_true (hdue ▸ hle)⟩

theorem Regular.next (h : r.Regular p settings) (cancelAt : Option Nat) (hopen : r.ending? = none) :
    ∃ e, r.next? settings cancelAt = some e ∧ Finds p settings cancelAt r e := by
  unfold next?
  rw [show (if r.cancelled = true then none else cancelAt) = r.coming? cancelAt from rfl]
  dsimp only
  rw [show ((r.coming? cancelAt).any fun t => decide (t ≤ r.now)) = r.isCancelDue cancelAt from rfl]
  cases hs : r.stage with
  | ended ending =>
      rw [ending?, hs] at hopen
      cases hopen
  | between =>
      cases hcancel : r.isCancelDue cancelAt with
      | true => exact ⟨.cancel, rfl, .cancel hopen hcancel⟩
      | false => exact ⟨.survey, rfl, .advance rfl (.survey hs)⟩
  | within g =>
      have hnodup := (h.tends hs).group.nodup
      dsimp only
      split
      · rename_i s hfind
        have htake := take?_of_mem hnodup (List.mem_of_find?_eq_some hfind)
        exact ⟨_, rfl, .advance rfl (.resume hs htake)⟩
      rename_i hawake
      split
      · exact ⟨_, rfl, .cancel hopen ‹_›⟩
      rename_i hcancel
      split
      · rename_i s hfind
        obtain ⟨hr, hdeaf⟩ := Bool.and_eq_true _ _ ▸ List.find?_some hfind
        have htake := take?_of_mem hnodup (List.mem_of_find?_eq_some hfind)
        exact ⟨_, rfl, .advance rfl (.interrupt hs htake hr (by simpa using hdeaf))⟩
      split
      · rename_i i hwaiting
        obtain ⟨hhead, hpermit⟩ := Option.filter_eq_some_iff.mp hwaiting
        have hturn := Group.mayCall_of_head? hhead
        obtain ⟨check, hc⟩ := h.listed g hs i (Group.mem_waiting_of_mayCall hturn)
        exact ⟨_, rfl, .advance rfl (.grant hs hturn (of_decide_eq_true hpermit) hc)⟩
      rename_i hfull
      split
      · exact ⟨_, rfl, .advance rfl (.collapse hs ‹_›)⟩
      rename_i hbroken
      split
      · -- Nobody is at work, so there are permits, and what waited would have got one.
        rename_i hasleep
        have hasleep := List.isEmpty_iff.mp hasleep
        have hwaiting : g.waiting = [] := by
          cases hw : g.waiting with
          | nil => rfl
          | cons i rest => simp [hw, hasleep, permits_pos] at hfull
        exact ⟨_, rfl, .advance rfl (.close hs hwaiting hasleep (by simpa using hbroken))⟩
      · rename_i hasleep
        have hnext : ∃ t, nextDue (r.coming? cancelAt) g.asleep = some t :=
          exists_nextDue (.inr (mt List.isEmpty_iff.mpr hasleep))
        obtain ⟨t, ht⟩ := hnext
        refine ⟨.pass (t - r.now), by rw [ht]; rfl, finds_pass hs ?_ ht⟩
        rw [isDue, hs, Bool.eq_false_iff.mpr hcancel, Bool.false_or]
        exact List.any_eq_false.mpr (List.find?_eq_none.mp hawake)

/-! ## Enough steps -/

/-- The events that the clock may still need: every second one may be the passing of time. The
cancellation from outside counts as an event of the run. -/
def patience (p : Plan) (cancelAt : Option Nat) (r : Run) : Nat :=
  2 * (r.left p + (r.coming? cancelAt).isSome.toNat) + (!r.isDue cancelAt).toNat

theorem coming?_of_step (hstep : Step p settings r e r') (cancelAt : Option Nat) :
    r'.coming? cancelAt = r.coming? cancelAt ∨ r'.coming? cancelAt = none := by
  unfold coming?
  cases hr : r.cancelled with
  | true => exact .inl (by rw [hstep.cancelled hr])
  | false => cases r'.cancelled <;> simp

theorem Steady.patience_lt (h : r.Steady p hp settings)
    (hlimits : ∀ check ∈ p.checks, check.logic.limit ≠ .faulty)
    (hfinds : Finds p settings cancelAt r e) (hstep : Step p settings r e r') :
    r'.patience p cancelAt < r.patience p cancelAt := by
  have hleft := h.left_add_le hlimits hstep
  have hidle := Bool.toNat_le (!r'.isDue cancelAt)
  have hcoming : (r'.coming? cancelAt).isSome.toNat ≤ (r.coming? cancelAt).isSome.toNat := by
    rcases coming?_of_step hstep cancelAt with heq | heq <;> simp [heq]
  unfold patience
  cases hfinds with
  | advance hadvances =>
      rw [hadvances, if_pos rfl] at hleft
      omega
  | cancel _ hdue =>
      obtain ⟨t, ht, -⟩ := (Option.any_eq_true _ _).mp hdue
      cases hstep
      have hnone : ({ r with cancelled := true } : Run).coming? cancelAt = none := rfl
      rw [hnone, ht, Option.isSome_none, Option.isSome_some, Bool.toNat_false, Bool.toNat_true]
      omega
  | pass _ hnow hdue =>
      cases hstep
      rw [hnow, hdue, Bool.not_true, Bool.not_false, Bool.toNat_false, Bool.toNat_true]
      omega

theorem over_of_left (h : r.left p = 0) : r.ending? ≠ none := by
  have hsteps : r.stage.steps = 0 := by
    unfold left unwinding remaining at h
    split at h <;> omega
  unfold ending?
  cases hs : r.stage with
  | ended ending => simp
  | between => simp [hs, Stage.steps] at hsteps
  | within g => cases hphase : g.phase <;> simp [hs, Stage.steps, hphase] at hsteps

theorem next?_of_over (h : r.ending? ≠ none) : r.next? settings cancelAt = none := by
  unfold next?
  cases hs : r.stage with
  | between | within => simp [ending?, hs] at h
  | ended => rfl

theorem Steady.over_play (h : r.Steady p hp settings)
    (hlimits : ∀ check ∈ p.checks, check.logic.limit ≠ .faulty) {steps : Nat}
    (hsteps : r.patience p cancelAt ≤ steps) :
    (r.play p settings cancelAt steps).ending? ≠ none := by
  induction steps generalizing r with
  | zero =>
      have hleft : r.left p = 0 := by
        unfold patience at hsteps
        omega
      exact over_of_left hleft
  | succ steps ih =>
      rw [play]
      by_cases hopen : r.ending? = none
      · obtain ⟨e, hnext, hfinds⟩ := h.next cancelAt hopen
        obtain ⟨r₁, hstep⟩ := hfinds.exists_step
        have hlt := h.patience_lt hlimits hfinds hstep
        rw [hnext, Option.bind_some, step?_eq_some.mpr hstep]
        exact ih (h.step hlimits hstep) (by omega)
      · rw [next?_of_over hopen, Option.bind_none]
        exact hopen

/-- A run against the clock is over before its steps run out. -/
theorem over_complete (hp : p.Orderly)
    (hlimits : ∀ check ∈ p.checks, check.logic.limit ≠ .faulty)
    (hpermits : settings.permits ≤ Settings.permitLimit) (cancelled : Bool)
    (cancelAt : Option Nat) : (complete p settings cancelled cancelAt).ending? ≠ none := by
  refine (start_steady hp hpermits cancelled).over_play hlimits ?_
  have hleft := left_start_le hp hpermits cancelled
  have hcoming := Bool.toNat_le ((start p settings cancelled).coming? cancelAt).isSome
  have hidle := Bool.toNat_le (!(start p settings cancelled).isDue cancelAt)
  unfold Plan.stepBound at hleft
  unfold patience eventBound
  omega

end Vetting.Run
