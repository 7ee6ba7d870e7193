import Vetting.Rule.Registry
import Vetting.ValueTree.Basic

/-!
# Checks

A check is one rule to be applied to one value. A value is checked by the rules of every item that
applies to it. Checks are numbered by their place in the list: values come in the order of the tree,
the items of a value in the order in which they apply, and the rules of an item as declared.
-/

namespace Vetting

structure Check where
  label : RuleLabel
  rule : RuleId
  value : ValueId
  logic : Logic
  /-- The numbers of the checks that must pass first. -/
  dependencies : List Nat := []
  /-- Whether something that the rule depends on has no counterpart among the checks. -/
  unsatisfiable : Bool := false

namespace Manifest

def getRule (m : Manifest) (id : RuleId) : Except ManifestError RuleDecl :=
  match m.rule? id with
  | some rule => .ok rule
  | none => .error (.unknownRule id)

/-- The check of a value by a rule. -/
def check (m : Manifest) (registry : RuleRegistry) (value : ValueId) (identity : Option String)
    (rule : RuleId) : Except SetupError Check := do
  let decl ← SetupError.ofManifest (m.getRule rule)
  let logic ← registry.create decl
  .ok { label := ⟨decl.key, identity⟩, rule, value, logic }

/-- The checks of a value by the rules of one item. -/
def checksOfItem (m : Manifest) (registry : RuleRegistry) (value : ValueId)
    (identity : Option String) (item : ItemId) : Except SetupError (List Check) := do
  let owner ← SetupError.ofManifest (m.get item)
  owner.rules.mapM (m.check registry value identity)

/-- The checks of a value. -/
def checksOfValue (m : Manifest) (registry : RuleRegistry) (t : ValueTree) (id : ValueId) :
    Except SetupError (List Check) :=
  match t.node? id with
  | some node => List.flatten <$> node.applied.mapM (m.checksOfItem registry id node.identity)
  | none => .ok []

/-- The checks of all values, without their dependencies. -/
def checks (m : Manifest) (registry : RuleRegistry) (t : ValueTree) :
    Except SetupError (List Check) :=
  List.flatten <$> t.ids.mapM (m.checksOfValue registry t)

end Manifest

end Vetting
