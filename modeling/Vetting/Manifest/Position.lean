import Vetting.Manifest.Basic

/-!
# Positions in a manifest

Variants share the position of the item that they belong to: the `anchor` of an item is the item
whose value it applies to. One level above an item stands the anchor of its anchor's parent
(`above?`), and the levels lead to the root. From this come the `depth` of an item, the item whose
definition a recursive item borrows (`definition`), the deepest position above two items
(`meet?`), and the way down from one item to another (`path?`).
-/

namespace Vetting.Manifest

def isVariant (m : Manifest) (id : ItemId) : Bool := (m.item? id).any (·.source.isVariant)

/-- The item whose value `id` applies to: the nearest item upwards that is no variant. -/
def anchor (m : Manifest) (id : ItemId) : ItemId :=
  match m.item? id with
  | some item =>
    match item.source.isVariant, item.parent with
    | true, some parent => if parent.index < id.index then m.anchor parent else id
    | _, _ => id
  | none => id
termination_by id.index

/-- The position one level above `id`. -/
def above? (m : Manifest) (id : ItemId) : Option ItemId := do
  let item ← m.item? (m.anchor id)
  let parent ← item.parent
  some (m.anchor parent)

/-- The number of levels between `id` and the root. -/
def depth (m : Manifest) (id : ItemId) : Nat :=
  match m.above? id with
  | some up => if up.index < id.index then m.depth up + 1 else 0
  | none => 0
termination_by id.index

/-- The position a number of levels above `id`, if there are so many. -/
def climb? (m : Manifest) : Nat → ItemId → Option ItemId
  | 0, id => some id
  | levels + 1, id => (m.above? id).bind (m.climb? levels)

/-- The item whose members, variants and rules apply to the values of `id`: an item above for a
recursive item, otherwise `id`. -/
def definition (m : Manifest) (id : ItemId) : Except ManifestError ItemId := do
  let item ← m.get id
  match item.source.levels? with
  | none => .ok id
  | some 0 => .error (.noSuchAncestor id 0)
  | some levels =>
    match m.climb? levels id with
    | some target => .ok target
    | none => .error (.noSuchAncestor id levels)

/-- Climbs from two items of one depth until they meet. -/
def join? (m : Manifest) : Nat → ItemId → ItemId → Option ItemId
  | 0, a, b => if a = b then some a else none
  | levels + 1, a, b =>
    if a = b then some a
    else do m.join? levels (← m.above? a) (← m.above? b)

/-- The deepest position above both items, each item counting as above itself. -/
def meet? (m : Manifest) (a b : ItemId) : Option ItemId := do
  let a := m.anchor a
  let b := m.anchor b
  let _ ← m.item? a
  let _ ← m.item? b
  let depthA := m.depth a
  let depthB := m.depth b
  let a ← m.climb? (depthA - depthB) a
  let b ← m.climb? (depthB - depthA) b
  m.join? (min depthA depthB) a b

/-- The items on the way down from `ancestor`, which is left out, to `id`. -/
def path? (m : Manifest) (ancestor id : ItemId) : Option (List ItemId) :=
  if id = ancestor then some []
  else
    match (m.item? id).bind (·.parent) with
    | some parent =>
      if parent.index < id.index then (m.path? ancestor parent).map (· ++ [id]) else none
    | none => none
termination_by id.index

end Vetting.Manifest
