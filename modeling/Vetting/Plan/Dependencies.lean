import Vetting.Manifest.Position
import Vetting.Plan.Check

/-!
# Dependencies between checks

A rule refers to another rule by item and key. For a check of value `v` by a rule of item `M`, the
values meant by a reference to item `T` lie around `v`: from `v` as many levels up as `M` lies below
the meeting point of `M` and `T`, then down again along the path to `T`. On the way down a member or
element leads to all values read through it, and a variant keeps the values to which it applies. A
reference that finds no check makes the check unsatisfiable.

Resolving adds to the dependencies that are there, so several resolutions add up.
-/

namespace Vetting

/-- Adds a number to an ascending list, unless it is there. -/
def insertAscending (n : Nat) : List Nat → List Nat
  | [] => [n]
  | k :: ks => if n < k then n :: k :: ks else if n = k then k :: ks else k :: insertAscending n ks

/-- The numbers of a list in ascending order, each once. -/
def ascending (ns : List Nat) : List Nat := ns.foldr insertAscending []

/-- The number of the check of a value by a rule. -/
def Check.find? (checks : List Check) (rule : RuleId) (value : ValueId) : Option Nat :=
  checks.findIdx? fun check => check.rule == rule && check.value == value

namespace Manifest

/-- The values that one step down to an item leads to. -/
def stepDown (m : Manifest) (t : ValueTree) (values : List ValueId) (item : ItemId) :
    List ValueId :=
  if m.isVariant item then values.filter (t.applies item)
  else values.flatMap fun value => (t.children value).filter (t.readThrough item)

/-- The values that a path leads to. -/
def descend (m : Manifest) (t : ValueTree) (start : ValueId) (path : List ItemId) : List ValueId :=
  path.foldl (m.stepDown t) [start]

/-- The rule that a reference names. -/
def target (m : Manifest) (rule : RuleKey) (ref : RuleRef) : Except ManifestError RuleId :=
  match m.findRule? ref with
  | some target => .ok target
  | none => .error (.undeclaredReference rule ref)

/-- The way from a rule to an item: the number of levels up, and the path down. -/
def route (m : Manifest) (decl : RuleDecl) (item : ItemId) :
    Except ManifestError (Nat × List ItemId) :=
  match m.meet? decl.item item with
  | none => .error (.danglingReference decl.key item)
  | some common =>
    match m.path? common item with
    | none => .error (.danglingReference decl.key item)
    | some path => .ok (m.depth decl.item - m.depth common, path)

/-- The values that a reference of a check means. -/
def meant (m : Manifest) (t : ValueTree) (check : Check) (decl : RuleDecl) (ref : RuleRef) :
    Except SetupError (List ValueId) := do
  let (levels, path) ← SetupError.ofManifest (m.route decl ref.item)
  match t.climb? levels check.value with
  | none => .error (.noAncestor check.label ref)
  | some start => .ok (m.descend t start path)

/-- The numbers of the checks that a reference of a check means. -/
def prerequisites (m : Manifest) (t : ValueTree) (checks : List Check) (check : Check)
    (decl : RuleDecl) (ref : RuleRef) : Except SetupError (List Nat) := do
  let target ← SetupError.ofManifest (m.target decl.key ref)
  let values ← m.meant t check decl ref
  .ok (values.filterMap (Check.find? checks target))

/-- Adds the dependencies that the manifest gives to one check. -/
def resolveCheck (m : Manifest) (t : ValueTree) (checks : List Check) (check : Check) :
    Except SetupError Check := do
  let decl ← SetupError.ofManifest (m.getRule check.rule)
  let found ← decl.dependencies.mapM (m.prerequisites t checks check decl)
  .ok { check with
    dependencies := ascending (check.dependencies ++ found.flatten)
    unsatisfiable := check.unsatisfiable || found.any List.isEmpty }

/-- Adds the dependencies that the manifest gives to the checks. -/
def resolve (m : Manifest) (t : ValueTree) (checks : List Check) :
    Except SetupError (List Check) :=
  checks.mapM (m.resolveCheck t checks)

end Manifest

end Vetting
