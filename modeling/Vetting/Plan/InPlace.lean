import Vetting.Manifest.InPlace
import Vetting.Plan.Dependencies

/-!
# Checks in place

How checks are made and resolved where they are stored, every check together with the number that it
was given. The bench on which they are made also keeps the logic of the rules: a rule that is needed
again is not made again. Making a rule may leave traces in a memory, so it matters how often and in
which order rules are made.

Resolving changes one stored check after the other. A reference appends what it finds to the
dependencies and has found nothing if they are no longer than before; they are put in order at the
end. A resolution that fails leaves behind what it has changed so far.
-/

namespace Vetting

/-- Makes the logic of a rule. What was made before can be remembered in a memory. -/
abbrev RuleMaker (σ : Type) := RuleDecl → EStateM SetupError σ Logic

/-- A registry makes rules without a memory. -/
def RuleRegistry.maker {σ : Type} (r : RuleRegistry) : RuleMaker σ := fun rule =>
  MonadExcept.ofExcept (r.create rule)

/-- The checks made so far, and the rules made for them. -/
structure Bench where
  made : List (RuleId × Logic) := []
  checks : List (Numbered Nat Check) := []

namespace Bench

def keep (b : Bench) (rule : RuleId) (logic : Logic) : Bench :=
  { b with made := b.made ++ [(rule, logic)] }

/-- Adds a check, which gets the next number. -/
def add (b : Bench) (check : Check) : Bench :=
  { b with checks := b.checks ++ [⟨b.checks.length, check⟩] }

end Bench

/-- Steps that add checks to a bench. The bench is given up if one of them fails, the memory is
not. -/
abbrev Making (σ : Type) := StateT Bench (EStateM SetupError σ)

namespace Making

variable {σ : Type} (m : Manifest) (make : RuleMaker σ)

def ask {α : Type} (answer : Except ManifestError α) : Making σ α :=
  MonadExcept.ofExcept (SetupError.ofManifest answer)

/-- The logic of a rule, which is made when it is needed for the first time. -/
def logicOf (id : RuleId) (rule : RuleDecl) : Making σ Logic := do
  match (← get).made.lookup id with
  | some logic => return logic
  | none => do
    let logic ← make rule
    modify (·.keep id logic)
    return logic

/-- Adds the check of a value by a rule. -/
def addCheck (value : ValueId) (identity : Option String) (id : RuleId) : Making σ Unit := do
  let rule ← ask (m.getRule id)
  let logic ← logicOf make id rule
  modify (·.add { label := ⟨rule.key, identity⟩, rule := id, value, logic })

/-- Adds the checks of all values. -/
def addChecks (t : ValueTree) : Making σ Unit :=
  t.ids.forM fun value => (t.node? value).forM fun node =>
    node.applied.forM fun item => do
      let owner ← ask (m.get item)
      owner.rules.forM (addCheck m make value node.identity)

end Making

/-- The checks of all values, without their dependencies. -/
def Manifest.checksInPlace {σ : Type} (m : Manifest) (make : RuleMaker σ) (t : ValueTree) :
    EStateM SetupError σ (List (Numbered Nat Check)) := do
  let ((), bench) ← (Making.addChecks m make t).run {}
  return bench.checks

namespace Check

/-- The number stored with the last check of a value by a rule. -/
def bound? (stored : List (Numbered Nat Check)) (rule : RuleId) (value : ValueId) : Option Nat :=
  (stored.reverse.find? fun entry =>
    entry.content.rule == rule && entry.content.value == value).map (·.id)

end Check

/-- Steps that change one stored check and may fail in between. -/
abbrev Linking := EStateM SetupError Check

namespace Linking

variable (m : Manifest) (t : ValueTree) (bound? : RuleId → ValueId → Option Nat)

/-- Appends what a reference finds to the dependencies. -/
def link (decl : RuleDecl) (ref : RuleRef) : Linking Unit := do
  let target ← MonadExcept.ofExcept (SetupError.ofManifest (m.target decl.key ref))
  let values ← MonadExcept.ofExcept (m.meant t (← get) decl ref)
  let before := (← get).dependencies.length
  modify fun check =>
    { check with dependencies := check.dependencies ++ values.filterMap (bound? target) }
  if (← get).dependencies.length = before then modify ({ · with unsatisfiable := true })

/-- Adds the dependencies that the manifest gives to the check. -/
def linkAll : Linking Unit := do
  let decl ← MonadExcept.ofExcept (SetupError.ofManifest (m.getRule (← get).rule))
  decl.dependencies.forM (link m t bound? decl)
  modify fun check => { check with dependencies := ascending check.dependencies }

end Linking

/-- Takes the steps for one stored check after the other, up to the first that fails. -/
def Check.sweep (steps : Linking Unit) :
    List (Numbered Nat Check) → EStateM.Result SetupError (List (Numbered Nat Check)) Unit
  | [] => .ok () []
  | entry :: later =>
    match steps.run entry.content with
    | .error e check => .error e ({ entry with content := check } :: later)
    | .ok () check =>
      match sweep steps later with
      | .error e rest => .error e ({ entry with content := check } :: rest)
      | .ok () rest => .ok () ({ entry with content := check } :: rest)

/-- Adds the dependencies that the manifest gives to the stored checks. -/
def Manifest.resolveInPlace (m : Manifest) (t : ValueTree) :
    EStateM SetupError (List (Numbered Nat Check)) Unit := fun stored =>
  Check.sweep (Linking.linkAll m t (Check.bound? stored)) stored

end Vetting
