import Vetting.Manifest.InPlace
import Vetting.ValueTree.Unfolding

/-!
# Finding values in place

How the values of a document are found where they are stored. The arena keeps every value together
with the number that it was given. A value is appended as soon as it is read and entered in the list
of its parent, while the parent is still being expanded: the members and the element of an item come
first, and then each variant that accepts the value adds itself to the items that apply and goes on
in the same way.
-/

namespace Vetting

structure ValueArena where
  values : Array (Numbered ValueId ValueNode)

/-- The tree that is stored. -/
def ValueArena.tree (a : ValueArena) : ValueTree := ⟨a.values.map (·.content)⟩

/-- Whether a reading below `id` is the value there or one of its ancestors over again. -/
def ValueTree.repeatedAt (t : ValueTree) (id : ValueId) (below : Reading) : Bool :=
  (id :: t.ancestors id).any fun above =>
    (t.node? above).any fun node => below.repeats node.toReading

/-- A value as `item` yields it, before any variant is looked at. -/
def Manifest.outset (m : Manifest) (item : ItemId) (order : Option Nat) (value : Json) :
    Except ManifestError Reading := do
  let definition ← m.definition item
  let defining ← m.get definition
  .ok { item, definition, applied := [definition], value,
        identity := defining.identityOf value, order }

/-- Steps that add values to an arena. The arena is given up if one of them fails. -/
abbrev Filling := StateT ValueArena (Except SetupError)

namespace Filling

def modifyNode (id : ValueId) (f : ValueNode → ValueNode) : Filling Unit :=
  modify fun a => { a with
    values := a.values.modify id.index fun entry => { entry with content := f entry.content } }

/-- Appends a value, which gets the next number, and enters it in the list of its parent. -/
def push (parent : Option ValueId) (reading : Reading) : Filling ValueId := do
  let id : ValueId := ⟨(← get).values.size⟩
  modify fun a => { a with
    values := a.values.push ⟨id, { reading with parent, children := [] }⟩ }
  parent.forM fun parent =>
    modifyNode parent fun node => { node with children := node.children ++ [id] }
  return id

variable (m : Manifest) (policy : FailurePolicy) (expand : ValueId → Filling Unit)

/-- Stores a value that a slot offers and expands it, unless the slot is recursive and the value is
found above it already. -/
def place (parent : ValueId) (slot : ItemId) (offer : Option Nat × Json) : Filling Unit := do
  let below ← SetupError.ofManifest (m.outset slot offer.1 offer.2)
  if m.isRecursive slot && (← get).tree.repeatedAt parent below then return ()
  expand (← push (some parent) below)

/-- Stores what a slot reads out of the value of its owner. -/
def fill (parent : ValueId) (value : Json) (slot : ItemId) : Filling Unit := do
  let offered ← m.offered policy value slot
  offered.forM (place m expand parent slot)

/-- Stores what an item that applies reads out of a value, and what the variants below the item that
accept the value read out of it. -/
def expandDefinition (id : ValueId) (value : Json) (definition : ItemId) : Filling Unit := do
  let item ← SetupError.ofManifest (m.get definition)
  item.slots.forM (fill m policy expand id value)
  item.variants.forM fun variant =>
    if definition.index < variant.index ∧ variant.index < m.items.size then do
      if m.recognizes variant value then
        modifyNode id fun node => { node with applied := node.applied ++ [variant] }
        expandDefinition id value variant
    else return ()
termination_by m.items.size - definition.index

/-- Stores what is found below a stored value, down to `depth` levels. -/
def expandTo : Nat → ValueId → Filling Unit
  | 0, id => do
    ((← get).tree.node? id).forM fun node => throw (.endless node.item)
  | depth + 1, id => do
    ((← get).tree.node? id).forM fun node =>
      if node.value.isNull then return ()
      else expandDefinition m policy (expandTo depth) id node.value node.definition

/-- Stores all values that the manifest finds in a document. -/
def findValues (depth : Nat) (document : Json) : Filling Unit := do
  let reading ← SetupError.ofManifest (m.outset Manifest.root none document)
  expandTo m policy depth (← push none reading)

end Filling

/-- The arena that is left when all values of a document have been found, if they have at most
`depth` levels. -/
def Manifest.materializeInPlace (m : Manifest) (policy : FailurePolicy) (depth : Nat)
    (document : Json) : Except SetupError ValueArena := do
  let ((), found) ← (Filling.findValues m policy depth document).run ⟨#[]⟩
  .ok found

end Vetting
