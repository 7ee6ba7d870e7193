import Vetting.Manifest.WellFormed
import Vetting.Plan.Cycles
import Vetting.ValueTree.Numbering

/-!
# Plans

A plan holds all that is settled before the first rule is applied: the values of a document, the
checks to be made, and which checks wait for which. `Plan.prepare` makes the plan of a manifest
that is fit for use, unless a value cannot be read, a rule cannot be made, or checks wait for each
other.
-/

namespace Vetting

structure Plan where
  tree : ValueTree
  checks : List Check

namespace Plan

def size (p : Plan) : Nat := p.checks.length

def check? (p : Plan) (index : Nat) : Option Check := p.checks[index]?

/-- The number of dependencies between checks. -/
def edges (p : Plan) : Nat := (p.checks.flatMap (·.dependencies)).length

/-- The plan of a document whose values have at most `depth` levels. -/
def prepareTo (m : Manifest) (registry : RuleRegistry) (policy : FailurePolicy) (depth : Nat)
    (document : Json) : Except SetupError Plan := do
  SetupError.ofManifest m.validate
  let tree ← m.materializeTo policy depth document
  let checks ← m.resolve tree (← m.checks registry tree)
  Check.acyclic checks
  .ok { tree, checks }

/-- The plan of a document. -/
def prepare (m : Manifest) (registry : RuleRegistry) (policy : FailurePolicy) (document : Json) :
    Except SetupError Plan :=
  prepareTo m registry policy (m.reach document) document

/-- What a rule sees of the place where it is applied. -/
def contextOf (p : Plan) (check : Check) : Context where
  label := check.label
  interface := check.logic.interface
  ancestors := (p.tree.ancestors check.value).filterMap fun id =>
    (p.tree.node? id).map fun node => (node.identity, node.value)
  arrivalOrder := (p.tree.node? check.value).bind (·.order)

/-- What making a check comes to. -/
def activityOf (p : Plan) (check : Check) : Activity :=
  match p.tree.value? check.value with
  | some value =>
    let parent := (p.tree.logicalParent? check.value).bind p.tree.value?
    check.logic.start value parent (p.contextOf check)
  | none => .answer (.error (.logic (check.value.text ++ " is not part of the value tree")))

end Plan

end Vetting
