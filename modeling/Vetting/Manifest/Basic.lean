import Vetting.Manifest.Naming
import Vetting.Manifest.Reading

/-!
# Manifests

A manifest says how objects of one type are validated. It is a tree of items: the root, members
read from a value, elements of a collection, and variants, which add members and rules to the same
value when the value has a certain type. A member or element may be recursive: it has no
definition of its own and is validated like an item some levels above it. Rules belong to items
and may depend on rules of other items.

Items and rules are found by number. A parent comes before its items, so every walk towards the root
ends; the functions that walk check this on the way.
-/

namespace Vetting

/-- How an item comes by its values. `levels` is set for a recursive item: it is validated like the
item that many levels above it. -/
inductive Source where
  | root
  | member (name : String) (reader : Reader) (levels : Option Nat)
  | element (enumerator : Enumerator) (levels : Option Nat)
  | variant (recognizer : Recognizer)

namespace Source

def levels? : Source → Option Nat
  | .member _ _ levels | .element _ levels => levels
  | _ => none

def isRecursive (s : Source) : Bool := s.levels?.isSome

def isVariant : Source → Bool
  | .variant _ => true
  | _ => false

def isElement : Source → Bool
  | .element _ _ => true
  | _ => false

def name? : Source → Option String
  | .member name _ _ => some name
  | _ => none

end Source

structure Item where
  source : Source
  validatedType : String
  /-- The item that this one belongs to; only the root has none. -/
  parent : Option ItemId := none
  identity : Option IdentityReader := none
  /-- What stands in for a value that cannot be read. -/
  fallback : Json := .null
  /-- Overrides the policy of the run. -/
  onFailure : Option FailurePolicy := none
  members : List ItemId := []
  element : Option ItemId := none
  variants : List ItemId := []
  rules : List RuleId := []

namespace Item

def identityOf (item : Item) (value : Json) : Option String :=
  item.identity.bind fun reader => reader.identity? value

/-- The items that take further values out of a value of this item. -/
def slots (item : Item) : List ItemId := item.members ++ item.element.toList

end Item

/-- A rule that an item declares. -/
structure RuleDecl where
  key : RuleKey
  item : ItemId
  config : Fields := []
  dependencies : List RuleRef := []

structure Manifest where
  items : Array Item
  rules : Array RuleDecl

/-- Why a manifest cannot be changed as asked, or is not fit for use. -/
inductive ManifestError where
  | unknownItem (item : ItemId)
  | unknownRule (rule : RuleId)
  | elementAlreadySet (owner : ItemId)
  | recursiveOwner (owner : ItemId)
  | noSuchAncestor (item : ItemId) (levels : Nat)
  | duplicateRule (item : ItemId) (key : RuleKey)
  | danglingReference (rule : RuleKey) (target : ItemId)
  | undeclaredReference (rule : RuleKey) (target : RuleRef)
deriving DecidableEq, Repr

def ManifestError.message : ManifestError → String
  | unknownItem item => "unknown manifest item: " ++ item.text
  | unknownRule rule => "unknown rule definition: " ++ rule.text
  | elementAlreadySet owner => owner.text ++ " already has a collection item"
  | recursiveOwner owner => "recursive node " ++ owner.text ++ " cannot own sub-nodes or rules"
  | noSuchAncestor item levels =>
    "recursive node " ++ item.text ++ " asks for ancestor depth " ++ toString levels ++
      ", which does not exist"
  | duplicateRule item key =>
    item.text ++ " already has rule " ++ key.text ++ "; name one of them to tell them apart"
  | danglingReference rule target =>
    "rule " ++ rule.text ++ " depends on unknown item " ++ target.text
  | undeclaredReference rule target =>
    "rule " ++ rule.text ++ " depends on " ++ target.key.text ++ " at " ++ target.item.text ++
      ", which is not declared there"

namespace Manifest

/-- The manifest of a type that has no members and no rules yet. -/
def ofType (rootType : String) : Manifest where
  items := #[{ source := .root, validatedType := rootType }]
  rules := #[]

def root : ItemId := ⟨0⟩

def item? (m : Manifest) (id : ItemId) : Option Item := m.items[id.index]?

def rule? (m : Manifest) (id : RuleId) : Option RuleDecl := m.rules[id.index]?

def get (m : Manifest) (id : ItemId) : Except ManifestError Item :=
  match m.item? id with
  | some item => .ok item
  | none => .error (.unknownItem id)

/-- The first rule of an item with the given key. -/
def findRule? (m : Manifest) (target : RuleRef) : Option RuleId := do
  let item ← m.item? target.item
  item.rules.find? fun id => (m.rule? id).any (·.key == target.key)

/-- The reference by which other rules can depend on a rule. -/
def refOf? (m : Manifest) (id : RuleId) : Option RuleRef :=
  (m.rule? id).map fun rule => ⟨rule.item, rule.key⟩

end Manifest

end Vetting
