import Vetting.Proofs.Plan.Projection

/-!
# The reference results of a plan

What each check of a plan comes to says `Plan.eval`, without waves, permits or time: a check that
is unsatisfiable or has a dependency that does not pass is not made, and every other check comes to
what its rule answers on its own. The definition recurs along the dependencies of a plan, which are
well-founded in every plan that was prepared (`orderly_of_prepareTo`).
-/

namespace Vetting

/-! ## What a rule comes to on its own -/

/-- The answer of a rule that is never cancelled, which has taken `spent` so far: its own, or that
it crashed, or that its time limit was reached. -/
def Activity.conclusion (limit : Option Nat) : Nat → Activity → Answer
  | _, answer a => a
  | _, crash message => .error (.crashed (message.getD unspokenCrash))
  | spent, cancelRun next => next.conclusion limit spent
  | spent, poll next => (next false).conclusion limit spent
  | spent, sleep millis _ next =>
    match limit.filter fun n => n < spent + millis with
    | some n => .error (.timeout (.ofMillis n))
    | none => (next false).conclusion limit (spent + millis)

/-- A time limit that is passed cuts an activity off. -/
theorem Activity.cut {limit asked : Nat} (h : limit < asked) :
    (some limit).filter (fun n => n < asked) = some limit := by
  simp [h]

/-- A time limit that is not passed cuts nothing off. -/
theorem Activity.uncut {limit : Option Nat} {asked : Nat}
    (h : ∀ n, limit = some n → asked ≤ n) : limit.filter (fun n => n < asked) = none :=
  Option.filter_eq_none_iff.mpr fun n hn => by simpa using h n hn

def TimeLimit.millis? : TimeLimit → Option Nat
  | .millis n => some n
  | _ => none

namespace Plan

/-- What the rule of a check answers on its own. -/
def answerOf (p : Plan) (check : Check) : Answer :=
  (p.activityOf check).conclusion check.logic.limit.millis? 0

/-! ## Dependencies of a plan -/

/-- Check `j` is a dependency of check `i`. -/
def Precedes (p : Plan) (j i : Nat) : Prop :=
  ∃ check, p.check? i = some check ∧ j ∈ check.dependencies

/-- Dependencies are checks of the plan, and no check depends on itself, however indirectly. -/
structure Orderly (p : Plan) : Prop where
  lt_size {i j : Nat} (h : p.Precedes j i) : j < p.size
  wellFounded : WellFounded p.Precedes

/-- The result of check `i` of a plan. -/
def eval (p : Plan) (hp : p.Orderly) (i : Nat) : Result :=
  match _hc : p.check? i with
  | none => .dependencyFailed
  | some check =>
    if check.unsatisfiable ||
        check.dependencies.attach.any fun ⟨j, _⟩ => !(p.eval hp j).isPassed then .dependencyFailed
    else .ofAnswer (p.answerOf check)
termination_by hp.wellFounded.wrap i
decreasing_by exact ⟨check, _hc, by assumption⟩

theorem eval_eq {p : Plan} (hp : p.Orderly) {i : Nat} {check : Check}
    (hc : p.check? i = some check) :
    p.eval hp i =
      if check.unsatisfiable || check.dependencies.any fun j => !(p.eval hp j).isPassed then
        .dependencyFailed
      else .ofAnswer (p.answerOf check) := by
  rw [eval]
  split
  · rename_i hnone
    rw [hc] at hnone
    cases hnone
  · rename_i check' hc'
    obtain rfl := Option.some.inj (hc.symm.trans hc')
    simp

theorem eval_of_none {p : Plan} (hp : p.Orderly) {i : Nat} (hc : p.check? i = none) :
    p.eval hp i = .dependencyFailed := by
  rw [eval]
  split
  · rfl
  · rename_i check hc'
    rw [hc] at hc'
    cases hc'

/-- A check that is satisfiable and whose dependencies pass comes to what its rule answers. -/
theorem eval_of_passed {p : Plan} (hp : p.Orderly) {i : Nat} {check : Check}
    (hc : p.check? i = some check) (hsat : check.unsatisfiable = false)
    (hpassed : ∀ j ∈ check.dependencies, (p.eval hp j).isPassed = true) :
    p.eval hp i = .ofAnswer (p.answerOf check) := by
  rw [eval_eq hp hc, hsat, Bool.false_or, if_neg]
  simpa using hpassed

theorem eval_of_unsatisfiable {p : Plan} (hp : p.Orderly) {i : Nat} {check : Check}
    (hc : p.check? i = some check) (hunsat : check.unsatisfiable = true) :
    p.eval hp i = .dependencyFailed := by
  rw [eval_eq hp hc, hunsat, Bool.true_or, if_pos rfl]

theorem eval_of_not_passed {p : Plan} (hp : p.Orderly) {i j : Nat} {check : Check}
    (hc : p.check? i = some check) (hj : j ∈ check.dependencies)
    (hfailed : (p.eval hp j).isPassed = false) : p.eval hp i = .dependencyFailed := by
  rw [eval_eq hp hc, if_pos]
  rw [Bool.or_eq_true, List.any_eq_true]
  exact .inr ⟨j, hj, by rw [hfailed]; rfl⟩

end Plan

/-! ## Plans that were prepared are orderly -/

theorem Check.wellFounded_of_acyclic {checks : List Check} (h : Check.acyclic checks = .ok ()) :
    WellFounded (Check.graph checks).Edge := by
  refine Digraph.wellFounded_edge (Check.graph_bounded checks) fun v hv => ?_
  exact Digraph.not_reaches_self (Check.graph_bounded checks) (Check.acyclic_eq_ok.mp h) hv

theorem Plan.orderly_of_acyclic {p : Plan}
    (hdeps : ∀ check ∈ p.checks, ∀ j ∈ check.dependencies, j < p.size)
    (h : Check.acyclic p.checks = .ok ()) : p.Orderly := by
  refine ⟨fun {i j} ⟨check, hc, hj⟩ => hdeps check (List.mem_of_getElem? hc) j hj, ?_⟩
  exact Subrelation.wf (fun hji => Check.mem_dependents.mpr hji) (Check.wellFounded_of_acyclic h)

theorem Plan.orderly_of_prepareTo {m : Manifest} {registry : RuleRegistry}
    {policy : FailurePolicy} {depth : Nat} {document : Json} {p : Plan}
    (h : Plan.prepareTo m registry policy depth document = .ok p) : p.Orderly := by
  obtain ⟨-, -, cs, hcs, hresolve, hacyclic⟩ := Plan.prepareTo_eq_ok.mp h
  have hfresh : ∀ c ∈ cs, c.dependencies = [] := fun c hc =>
    ((Manifest.checks_pairs hcs).2 c hc).dependencies
  refine Plan.orderly_of_acyclic (fun check hcheck j hj => ?_) hacyclic
  obtain ⟨s, hs, -⟩ := Manifest.refersTo_of_resolve hresolve hfresh hcheck hj
  exact (List.getElem?_eq_some_iff.mp hs).1

end Vetting
