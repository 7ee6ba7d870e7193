import Vetting.Manifest.Basic

/-!
# Value trees

The values that a manifest finds in a document, as a tree. A value is a `Reading`: what was read,
through which item, and whose definition applies to it. Values are numbered in pre-order, so a
parent has a smaller number than its children, and the walk towards the root checks this on the
way.
-/

namespace Vetting

/-- The position of a value in its tree. -/
structure ValueId where
  index : Nat
deriving DecidableEq, Repr

def ValueId.text (id : ValueId) : String := s!"value#{id.index}"

/-- A value as an item of a manifest yields it. -/
structure Reading where
  /-- The item through which the value was read. -/
  item : ItemId
  /-- The item whose members and rules apply to the value. -/
  definition : ItemId
  /-- The definition and the variants that accept the value. -/
  applied : List ItemId
  value : Json
  identity : Option String
  /-- The place among the elements of a collection. -/
  order : Option Nat
deriving Repr

/-- A reading in its place in a tree. -/
structure ValueNode extends Reading where
  parent : Option ValueId
  children : List ValueId
deriving Repr

structure ValueTree where
  nodes : Array ValueNode

namespace ValueTree

def root : ValueId := ⟨0⟩

def size (t : ValueTree) : Nat := t.nodes.size

def node? (t : ValueTree) (id : ValueId) : Option ValueNode := t.nodes[id.index]?

def ids (t : ValueTree) : List ValueId := (List.range t.size).map ValueId.mk

def parent? (t : ValueTree) (id : ValueId) : Option ValueId := (t.node? id).bind (·.parent)

def children (t : ValueTree) (id : ValueId) : List ValueId :=
  ((t.node? id).map (·.children)).getD []

/-- Whether a value was read through `item`. -/
def readThrough (t : ValueTree) (item : ItemId) (id : ValueId) : Bool :=
  (t.node? id).any (·.item == item)

/-- Whether the rules of `item` apply to a value. -/
def applies (t : ValueTree) (item : ItemId) (id : ValueId) : Bool :=
  (t.node? id).any (·.applied.contains item)

/-- The values that were read through `item`. -/
def valuesOf (t : ValueTree) (item : ItemId) : List ValueId := t.ids.filter (t.readThrough item)

/-- The values on the way to the root, the closest first. -/
def ancestors (t : ValueTree) (id : ValueId) : List ValueId :=
  match t.parent? id with
  | some parent => if parent.index < id.index then parent :: t.ancestors parent else []
  | none => []
termination_by id.index

/-- The value a number of levels above `id`, if there are so many. -/
def climb? (t : ValueTree) : Nat → ValueId → Option ValueId
  | 0, id => some id
  | levels + 1, id => (t.parent? id).bind (t.climb? levels)

/-- The object that a value belongs to: that of an element is the owner of the collection, not the
collection. -/
def logicalParent? (t : ValueTree) (id : ValueId) : Option ValueId := do
  let node ← t.node? id
  let parent ← node.parent
  if node.order.isSome then t.parent? parent else some parent

/-- The actual value. -/
def value? (t : ValueTree) (id : ValueId) : Option Json := (t.node? id).map (·.value)

end ValueTree

end Vetting
