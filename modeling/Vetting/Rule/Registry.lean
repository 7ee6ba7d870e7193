import Vetting.Rule.Activity
import Vetting.SetupError
import Vetting.Text.Quoted

/-!
# Registries of rules

A manifest names rules by type. A registry knows for each type the factory that makes the rule from
the settings in the manifest. Types are kept in ascending order, each with one factory.
-/

namespace Vetting

/-- Makes a rule from its settings. -/
abbrev RuleFactory := Fields → Except RuleError Logic

structure RuleRegistry where
  factories : List (String × RuleFactory) := []

namespace RuleRegistry

def empty : RuleRegistry := {}

def size (r : RuleRegistry) : Nat := r.factories.length

def ruleTypes (r : RuleRegistry) : List String := r.factories.map (·.1)

def factory? (r : RuleRegistry) (ruleType : String) : Option RuleFactory :=
  r.factories.lookup ruleType

def contains (r : RuleRegistry) (ruleType : String) : Bool := (r.factory? ruleType).isSome

/-- Enters a factory in a list that ascends by type. -/
def insertFactory (ruleType : String) (factory : RuleFactory) :
    List (String × RuleFactory) → List (String × RuleFactory)
  | [] => [(ruleType, factory)]
  | (t, f) :: rest =>
    if ruleType < t then (ruleType, factory) :: (t, f) :: rest
    else if ruleType = t then (ruleType, factory) :: rest
    else (t, f) :: insertFactory ruleType factory rest

/-- Enters a factory; one that is there for the type gives way. -/
def register (r : RuleRegistry) (ruleType : String) (factory : RuleFactory) : RuleRegistry :=
  ⟨insertFactory ruleType factory r.factories⟩

def remove (r : RuleRegistry) (ruleType : String) : RuleRegistry :=
  ⟨r.factories.filter (·.1 != ruleType)⟩

/-- Makes a rule that a manifest declares. -/
def create (r : RuleRegistry) (rule : RuleDecl) : Except SetupError Logic :=
  match r.factory? rule.key.ruleType with
  | none => .error (.unknownRuleType rule.key.ruleType)
  | some factory => (factory rule.config).mapError (.rejectedConfig rule.key)

/-- A short description that lists the types. -/
def describe (r : RuleRegistry) : String :=
  "RuleRegistry \x7b rule_types: [" ++ ", ".intercalate (r.ruleTypes.map Text.quoted) ++ "] \x7d"

end RuleRegistry

end Vetting
