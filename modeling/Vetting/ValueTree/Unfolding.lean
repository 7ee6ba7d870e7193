import Vetting.Manifest.Position
import Vetting.SetupError
import Vetting.ValueTree.Basic

/-!
# Unfolding a manifest over a document

Every value takes in its definition and the variants that accept it (`Manifest.applied`), and each
item so applied reads further values through its members and its element. A null has nothing below
it. A recursive item could read for ever, so it drops a value that repeats one of its ancestors
(`Reading.repeats`).

`Manifest.unfold` bounds the depth of the tree by `Manifest.reach`, which counts the items and the
values that can turn up in a reading. It is no limit on readers that return parts of their argument,
null, or one of the constants that they list.
-/

namespace Vetting

/-- A value with the values read from it. -/
inductive Branch where
  | node (reading : Reading) (children : List Branch)

namespace Branch

def reading : Branch → Reading
  | node reading _ => reading

def children : Branch → List Branch
  | node _ children => children

end Branch

/-- Whether `later`, read below `earlier`, is the same object over again: its definition is the same
and so is its identity or, where one of them has none, its value. -/
def Reading.repeats (later earlier : Reading) : Bool :=
  later.definition == earlier.definition &&
    match later.identity, earlier.identity with
    | some identity, some seen => identity == seen
    | _, _ => later.value.same earlier.value

namespace Manifest

def variants (m : Manifest) (id : ItemId) : List ItemId := ((m.item? id).map (·.variants)).getD []

/-- Whether an item is a variant that accepts the value. -/
def recognizes (m : Manifest) (id : ItemId) (value : Json) : Bool :=
  match m.item? id with
  | some { source := .variant recognizer, .. } => recognizer.accepts value
  | _ => false

/-- `id` and the variants below it that accept the value, each followed by its own variants. -/
def applied (m : Manifest) (value : Json) (id : ItemId) : List ItemId :=
  id :: (m.variants id).flatMap fun variant =>
    if id.index < variant.index ∧ variant.index < m.items.size then
      if m.recognizes variant value then m.applied value variant else []
    else []
termination_by m.items.size - id.index

/-- A value as `item` yields it. -/
def reading (m : Manifest) (item : ItemId) (order : Option Nat) (value : Json) :
    Except ManifestError Reading := do
  let definition ← m.definition item
  let defining ← m.get definition
  let applied := if value.isNull then [definition] else m.applied value definition
  .ok { item, definition, applied, value, identity := defining.identityOf value, order }

/-- The values that an item reads out of the value of its owner. Elements come with their places. -/
def offered (m : Manifest) (policy : FailurePolicy) (value : Json) (id : ItemId) :
    Except SetupError (List (Option Nat × Json)) := do
  let item ← SetupError.ofManifest (m.get id)
  let policy := item.onFailure.getD policy
  match item.source with
  | .member _ reader _ =>
    match reader.read value, policy with
    | .ok found, _ => .ok [(none, found)]
    | .error failure, .propagate => .error (.unreadable id failure)
    | .error _, .useDefault => .ok [(none, item.fallback)]
    | .error _, .skip => .ok []
  | .element enumerator _ =>
    match enumerator.elements value, policy with
    | .ok elements, _ => .ok (elements.zipIdx.map fun (element, place) => (some place, element))
    | .error failure, .propagate => .error (.unreadable id failure)
    | .error _, _ => .ok []
  | _ => .ok []

def isRecursive (m : Manifest) (id : ItemId) : Bool := (m.item? id).any (·.source.isRecursive)

/-- The items that read further values out of a value to which `item` applies. -/
def slots (m : Manifest) (item : ItemId) : List ItemId := ((m.item? item).map (·.slots)).getD []

/-- Whether a slot keeps a reading below a lineage. Only a recursive slot drops any. -/
def keeps (m : Manifest) (lineage : List Reading) (slot : ItemId) (below : Reading) : Bool :=
  !(m.isRecursive slot && lineage.any below.repeats)

/-- The branch of a value that a slot offers, if the slot keeps it. `expand` makes the branch of a
reading. -/
def sprout (m : Manifest) (expand : Reading → Except SetupError Branch) (lineage : List Reading)
    (slot : ItemId) (offer : Option Nat × Json) : Except SetupError (Option Branch) := do
  let below ← SetupError.ofManifest (m.reading slot offer.1 offer.2)
  if m.keeps lineage slot below then some <$> expand below else .ok none

/-- The branches that a slot reads out of a value. -/
def fill (m : Manifest) (policy : FailurePolicy) (expand : Reading → Except SetupError Branch)
    (lineage : List Reading) (value : Json) (slot : ItemId) : Except SetupError (List Branch) := do
  let offered ← m.offered policy value slot
  let sprouted ← offered.mapM (m.sprout expand lineage slot)
  .ok (sprouted.filterMap id)

/-- The tree below a reading, down to `depth` levels. The ancestors of the reading come the closest
first; with the reading itself before them they are the lineage of what is read below. -/
def grow (m : Manifest) (policy : FailurePolicy) : Nat → List Reading → Reading →
    Except SetupError Branch
  | 0, _, reading => .error (.endless reading.item)
  | depth + 1, ancestors, reading =>
    if reading.value.isNull then .ok (.node reading [])
    else do
      let lineage := reading :: ancestors
      let groups ← (reading.applied.flatMap m.slots).mapM
        (m.fill policy (m.grow policy depth lineage) lineage reading.value)
      .ok (.node reading groups.flatten)

/-- The constants that an item may yield. -/
def constants (item : Item) : List Json :=
  item.fallback ::
    match item.source with
    | .member _ reader _ => reader.fixed
    | .element enumerator _ => enumerator.fixed
    | _ => []

/-- The number of values, counted with their parts, that can turn up below a document. -/
def supply (m : Manifest) (document : Json) : Nat :=
  1 + document.size + Json.sizeItems (m.items.toList.flatMap constants)

/-- A depth that no value tree of a document gets to: between two recursive steps lie fewer steps
than there are items, and each recursive step brings an item and a value that did not meet before.
-/
def reach (m : Manifest) (document : Json) : Nat :=
  (m.items.size + 1) * (m.items.size * m.supply document + 2)

/-- The tree of values that the manifest finds in a document, if it has at most `depth` levels. -/
def unfoldTo (m : Manifest) (policy : FailurePolicy) (depth : Nat) (document : Json) :
    Except SetupError Branch := do
  let reading ← SetupError.ofManifest (m.reading root none document)
  m.grow policy depth [] reading

/-- The tree of values that the manifest finds in a document. -/
def unfold (m : Manifest) (policy : FailurePolicy) (document : Json) : Except SetupError Branch :=
  m.unfoldTo policy (m.reach document) document

end Manifest

end Vetting
