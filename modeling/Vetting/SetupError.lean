import Vetting.Manifest.Basic
import Vetting.Rule.Finding

/-!
# What can go wrong before the first rule is applied
-/

namespace Vetting

/-- Why a run cannot start. -/
inductive SetupError where
  | manifest (error : ManifestError)
  | unreadable (item : ItemId) (failure : ReadFailure)
  | unknownRuleType (ruleType : String)
  /-- A rule could not be made from its settings. -/
  | rejectedConfig (rule : RuleKey) (error : RuleError)
  /-- A reference leads above the root of the value tree. -/
  | noAncestor (rule : RuleLabel) (target : RuleRef)
  | circular (rules : List RuleLabel)
  /-- The values below an item do not end. Only a reader that makes up values can bring this
  about. -/
  | endless (item : ItemId)
deriving Repr

namespace SetupError

def message : SetupError → String
  | manifest error => "manifest error: " ++ error.message
  | unreadable item failure => "cannot read value for " ++ item.text ++ ": " ++ failure.message
  | unknownRuleType ruleType => "no rule registered for type `" ++ ruleType ++ "`"
  | rejectedConfig rule error => "cannot create rule " ++ rule.text ++ ": " ++ error.text
  | noAncestor rule target =>
    "dependency of " ++ rule.text ++ " on " ++ target.key.text ++ " at " ++ target.item.text ++
      " has no ancestor to resolve against"
  | circular rules =>
    "circular dependency between rules: " ++ " -> ".intercalate (rules.map RuleLabel.text)
  | endless item => "values below " ++ item.text ++ " do not end"

/-- Whether the fault lies in manifest and rules rather than in the data. -/
def isConfiguration : SetupError → Bool
  | unreadable _ _ | endless _ => false
  | _ => true

/-- An error of the manifest, met on the way. -/
def ofManifest (x : Except ManifestError α) : Except SetupError α := x.mapError manifest

end SetupError

end Vetting
