import Vetting.Proofs.Run.Regular
import Vetting.Proofs.Run.Waves
import Vetting.Run.Tokens

/-!
# No rule learns of the time limits of others

A run with a token for each rule goes as the one without (`Tokened.stepAll?_map_run`): a token that
is fired is that of a rule whose time limit was reached (`Tokened.Owned`), and that rule has a
result and asks no more.
-/

namespace Vetting

/-- An activity whose own token is not fired goes as one that has none. -/
theorem Activity.burstUnder_false (activity : Activity) (cancelled : Bool) :
    activity.burstUnder false cancelled = activity.burst cancelled := by
  induction activity generalizing cancelled with
  | answer | crash => rfl
  | cancelRun next ih => exact ih true
  | poll next ih =>
      rw [burstUnder, Bool.or_false]
      exact ih cancelled cancelled
  | sleep millis deaf next ih =>
      cases millis with
      | zero => exact ih false cancelled
      | succ millis => rfl

/-- Check `i` has the result that its time limit was reached. -/
def Ledger.TimedOut (l : Ledger) (i : Nat) : Prop :=
  ∃ entry n, l.entry? i = some entry ∧ entry.result = .errored (.timeout (.ofMillis n))

namespace Ledger.TimedOut

variable {l l' : Ledger} {i : Nat}

theorem mono (h : l.TimedOut i) (hle : l.Below l') : l'.TimedOut i := by
  obtain ⟨entry, n, he, hresult⟩ := h
  exact ⟨entry, n, hle i entry he, hresult⟩

theorem contains (h : l.TimedOut i) : l.contains i = true := by
  obtain ⟨entry, n, he, -⟩ := h
  exact Ledger.contains_iff.mpr ⟨entry, he⟩

end Ledger.TimedOut

namespace Tokened

variable {p : Plan} {settings : Settings} {t t' : Tokened} {g : Group} {a : Application}
  {s : Sleeper} {i : Nat} {e : Event}

/-! ## Carrying a rule on -/

theorem proceed_run (activity : Activity) (h : a.index ∉ t.fired) :
    (t.proceed settings g a activity).run = t.run.proceed settings g a activity := by
  have hfree : t.fired.contains a.index = false := by simpa using h
  unfold proceed Run.proceed
  rw [hfree, Activity.burstUnder_false]
  generalize activity.burst t.run.cancelled = outcome
  obtain ⟨cancelled, pause⟩ := outcome
  cases pause <;> rfl

theorem proceed_fired (activity : Activity) :
    (t.proceed settings g a activity).fired = t.fired := by
  unfold proceed
  generalize activity.burstUnder _ _ = outcome
  obtain ⟨cancelled, pause⟩ := outcome
  cases pause <;> rfl

/-- The token of a rule that starts is new. -/
theorem launch_run (g : Group) (i : Nat) (check : Check) (limit : Option Nat) :
    (t.launch p settings g i check limit).run = t.run.launch p settings g i check limit :=
  proceed_run _ (by simp)

theorem launch_fired (g : Group) (i : Nat) (check : Check) (limit : Option Nat) :
    (t.launch p settings g i check limit).fired ⊆ t.fired := by
  rw [launch, proceed_fired]
  exact fun _ => List.mem_of_mem_filter

theorem grant_run (g : Group) (i : Nat) (check : Check) :
    (t.grant p settings g i check).run = t.run.grant p settings g i check := by
  unfold grant
  split
  · rename_i hr hlimit
    rw [launch_run, Run.grant_eq g i hr (by rw [hlimit]; exact nofun), hlimit]
    rfl
  · rename_i hr hlimit
    rw [launch_run, Run.grant_eq g i hr (by rw [hlimit]; exact nofun), hlimit]
    rfl
  · rfl

theorem grant_fired (g : Group) (i : Nat) (check : Check) :
    (t.grant p settings g i check).fired ⊆ t.fired := by
  unfold grant
  split
  · exact launch_fired _ _ _ _
  · exact launch_fired _ _ _ _
  · exact fun _ => id

theorem resume_run (g : Group) (h : s.index ∉ t.fired) :
    (t.resume settings g s).run = t.run.resume settings g s := by
  unfold resume Run.resume
  cases s.overruns with
  | false => exact proceed_run _ h
  | true =>
      cases s.limit with
      | none => exact proceed_run _ h
      | some limit => rfl

/-- The only token that is fired when a sleeper wakes is its own, and then it is timed out. -/
theorem timedOut_resume (g : Group) (hopen : t.run.ledger.contains s.index = false)
    (hi : i ∈ (t.resume settings g s).fired) :
    i ∈ t.fired ∨ (t.resume settings g s).run.ledger.TimedOut i := by
  unfold resume at hi ⊢
  split at hi
  · rename_i limit _ _
    rcases List.mem_cons.mp hi with rfl | hi
    · refine .inr ⟨_, limit, (Ledger.entry?_record hopen _ _).trans (if_pos rfl), rfl⟩
    · exact .inl hi
  · rw [proceed_fired] at hi
    exact .inl hi

/-! ## Steps -/

/-- All tokens that are fired are those of rules whose time limit was reached. -/
def Owned (t : Tokened) : Prop := ∀ i ∈ t.fired, t.run.ledger.TimedOut i

/-- A rule without a result has a token that is not fired. -/
theorem Owned.not_fired (h : t.Owned) (hopen : t.run.ledger.contains i = false) :
    i ∉ t.fired := fun hi =>
  Bool.false_ne_true (hopen.symm.trans (h i hi).contains)

theorem Owned.reports (h : t.Owned) (hopen : t.run.ledger.contains i = false) :
    t.reports i = t.run.cancelled := by
  have hfree : t.fired.contains i = false := by simpa using h.not_fired hopen
  rw [Tokened.reports, hfree, Bool.or_false]

theorem open_of_take? {g' : Group} (hr : t.run.Regular p settings) (hs : t.run.stage = .within g)
    (htake : g.take? i = some (s, g')) :
    t.run.ledger.contains s.index = false ∧ s.index = i := by
  have hi := (Group.take?_eq_some htake).2.1
  exact ⟨hi ▸ (hr.applies_take hs htake).admissible.isOpen, hi⟩

/-- With the tokens there, all events do what they do without. -/
theorem step?_map_run (h : t.Owned) (hr : t.run.Regular p settings) (e : Event) :
    (t.step? p settings e).map run = t.run.step? p settings e := by
  unfold step?
  split
  · rename_i g i hs
    unfold Run.step?
    rw [hs]
    dsimp only
    split
    · rw [Option.map_map]
      exact congrArg (Option.map · _) (funext fun check => grant_run _ _ _)
    · rfl
  · rename_i g i hs
    unfold Run.step?
    rw [hs]
    dsimp only
    cases htake : g.take? i with
    | none => rfl
    | some taken =>
        have hopen := (open_of_take? hr hs htake).1
        exact congrArg some (resume_run _ (h.not_fired hopen))
  · rename_i g i hs
    unfold Run.step?
    rw [hs]
    dsimp only
    cases htake : g.take? i with
    | none => rfl
    | some taken =>
        obtain ⟨hopen, hi⟩ := open_of_take? hr hs htake
        have hreports := h.reports hopen
        rw [hi] at hreports
        simp only [Option.bind_eq_bind, Option.bind_some, hreports]
        split
        · exact congrArg some (proceed_run _ (h.not_fired hopen))
        · rfl
  · rw [Option.map_map]
    exact Option.map_id'

theorem Owned.step (h : t.Owned) (hr : t.run.Regular p settings)
    (hstep : t.step? p settings e = some t') : t'.Owned := by
  have hrun : t.run.step? p settings e = some t'.run := by
    rw [← step?_map_run h hr, hstep, Option.map_some]
  have hbelow := (Run.step?_eq_some.mp hrun).below
  have hkept : ∀ i ∈ t.fired, t'.run.ledger.TimedOut i := fun i hi => (h i hi).mono hbelow
  unfold step? at hstep
  split at hstep
  · split at hstep
    · obtain ⟨check, -, rfl⟩ := Option.map_eq_some_iff.mp hstep
      exact fun i hi => hkept i (grant_fired _ _ _ hi)
    · cases hstep
  · rename_i g i hs
    obtain ⟨⟨s, g'⟩, htake, rfl⟩ := Option.map_eq_some_iff.mp hstep
    have hopen := (open_of_take? hr hs htake).1
    exact fun i hi => (timedOut_resume g' hopen hi).elim (hkept i) id
  · obtain ⟨⟨s, g'⟩, -, hstep⟩ := Option.bind_eq_some_iff.mp hstep
    dsimp only at hstep
    split at hstep
    · cases hstep
      exact fun i hi => hkept i (proceed_fired _ ▸ hi)
    · cases hstep
  · obtain ⟨r, -, rfl⟩ := Option.map_eq_some_iff.mp hstep
    exact hkept

/-! ## Runs -/

theorem Owned.stepAll {es : List Event} (h : t.Owned) (hr : t.run.Regular p settings)
    (hsteps : t.stepAll? p settings es = some t') : t'.Owned := by
  induction es generalizing t with
  | nil => exact Option.some.inj hsteps ▸ h
  | cons e es ih =>
      obtain ⟨between, hfirst, hrest⟩ := Option.bind_eq_some_iff.mp hsteps
      have hrun := (step?_map_run h hr e).symm.trans (congrArg _ hfirst)
      exact ih (h.step hr hfirst) (hr.step (Run.step?_eq_some.mp hrun)) hrest

/-- With the tokens there, a run goes as it goes without. -/
theorem stepAll?_map_run (h : t.Owned) (hr : t.run.Regular p settings) (es : List Event) :
    (t.stepAll? p settings es).map run = t.run.stepAll? p settings es := by
  induction es generalizing t with
  | nil => rfl
  | cons e es ih =>
      rw [stepAll?, Run.stepAll?, ← step?_map_run h hr e]
      cases hfirst : t.step? p settings e with
      | none => rfl
      | some between =>
          have hrun := (step?_map_run h hr e).symm.trans (congrArg _ hfirst)
          exact ih (h.step hr hfirst) (hr.step (Run.step?_eq_some.mp hrun))

theorem start_owned (p : Plan) (settings : Settings) (cancelled : Bool) :
    (start p settings cancelled).Owned := nofun

end Tokened

end Vetting
