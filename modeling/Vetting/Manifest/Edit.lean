import Vetting.Manifest.Position

/-!
# Building a manifest

A manifest is built from the root by edits. An edit that cannot be carried out leaves no manifest
behind, only the error. A recursive item takes the type of the item that it borrows from; where its
levels do not reach an item, it takes the type of its owner and the manifest is not fit for use
(`Vetting.Manifest.WellFormed`).
-/

namespace Vetting

/-- One step in building a manifest. -/
inductive Edit where
  | addMember (parent : ItemId) (name : String) (validatedType : String) (reader : Reader)
  | setElement (owner : ItemId) (validatedType : String) (enumerator : Enumerator)
  | addVariant (owner : ItemId) (recognizer : Recognizer)
  | addRecursiveMember (parent : ItemId) (name : String) (reader : Reader) (levels : Nat)
  | setRecursiveElement (owner : ItemId) (enumerator : Enumerator) (levels : Nat)
  | setIdentity (item : ItemId) (identity : IdentityReader)
  | setFallback (item : ItemId) (value : Json)
  | setPolicy (item : ItemId) (policy : FailurePolicy)
  | addRule (item : ItemId) (ruleType : String) (name : Option String) (config : Fields)
      (dependencies : List RuleRef)
  | addDependency (rule : RuleId) (target : RuleRef)

/-- What an edit has added. -/
inductive Receipt where
  | item (id : ItemId)
  | rule (id : RuleId)
  | nothing
deriving DecidableEq, Repr

namespace Manifest

def modifyItem (m : Manifest) (id : ItemId) (f : Item → Item) : Manifest :=
  { m with items := m.items.modify id.index f }

/-- Changes an item that must exist. -/
def alterItem (m : Manifest) (id : ItemId) (f : Item → Item) :
    Except ManifestError (Manifest × Receipt) := do
  let _ ← m.get id
  .ok (m.modifyItem id f, .nothing)

/-- Adds an item to an owner, which enters it among its own with `attach`. -/
def addItem (m : Manifest) (owner : ItemId) (source : Source) (validatedType : String)
    (attach : ItemId → Item → Item) : Except ManifestError (Manifest × Receipt) := do
  let ownerItem ← m.get owner
  if ownerItem.source.isRecursive then throw (.recursiveOwner owner)
  let id : ItemId := ⟨m.items.size⟩
  let extended := { m with items := m.items.push { source, validatedType, parent := some owner } }
  .ok (extended.modifyItem owner (attach id), .item id)

/-- Adds the element item of a collection, of which there is at most one. -/
def addElement (m : Manifest) (owner : ItemId) (source : Source) (validatedType : String) :
    Except ManifestError (Manifest × Receipt) := do
  let ownerItem ← m.get owner
  if ownerItem.element.isSome then throw (.elementAlreadySet owner)
  m.addItem owner source validatedType fun id item => { item with element := some id }

def attachMember (id : ItemId) (item : Item) : Item := { item with members := item.members ++ [id] }

def attachVariant (id : ItemId) (item : Item) : Item :=
  { item with variants := item.variants ++ [id] }

/-- The type of a recursive item below `owner`: that of the item `levels` above the new item, if
there is one, otherwise that of the owner. -/
def borrowedType (m : Manifest) (owner : ItemId) (levels : Nat) (ownerItem : Item) : String :=
  let target? := match levels with
    | 0 => none
    | above + 1 => (m.climb? above (m.anchor owner)).bind m.item?
  (target?.getD ownerItem).validatedType

def addRule (m : Manifest) (item : ItemId) (ruleType : String) (name : Option String)
    (config : Fields) (dependencies : List RuleRef) :
    Except ManifestError (Manifest × Receipt) := do
  let owner ← m.get item
  if owner.source.isRecursive then throw (.recursiveOwner item)
  let key : RuleKey := ⟨ruleType, owner.validatedType, name⟩
  if (m.findRule? ⟨item, key⟩).isSome then throw (.duplicateRule item key)
  let id : RuleId := ⟨m.rules.size⟩
  let extended := { m with rules := m.rules.push { key, item, config, dependencies } }
  .ok (extended.modifyItem item fun owner => { owner with rules := owner.rules ++ [id] }, .rule id)

def addDependency (m : Manifest) (rule : RuleId) (target : RuleRef) :
    Except ManifestError (Manifest × Receipt) :=
  match m.rule? rule with
  | none => .error (.unknownRule rule)
  | some _ =>
    let extend (decl : RuleDecl) := { decl with dependencies := decl.dependencies ++ [target] }
    .ok ({ m with rules := m.rules.modify rule.index extend }, .nothing)

/-- Carries out an edit. -/
def apply (m : Manifest) : Edit → Except ManifestError (Manifest × Receipt)
  | .addMember parent name validatedType reader =>
    m.addItem parent (.member name reader none) validatedType attachMember
  | .setElement owner validatedType enumerator =>
    m.addElement owner (.element enumerator none) validatedType
  | .addVariant owner recognizer =>
    m.addItem owner (.variant recognizer) recognizer.typeName attachVariant
  | .addRecursiveMember parent name reader levels => do
    let owner ← m.get parent
    m.addItem parent (.member name reader (some levels)) (m.borrowedType parent levels owner)
      attachMember
  | .setRecursiveElement owner enumerator levels => do
    let ownerItem ← m.get owner
    m.addElement owner (.element enumerator (some levels)) (m.borrowedType owner levels ownerItem)
  | .setIdentity item identity => m.alterItem item ({ · with identity := some identity })
  | .setFallback item value => m.alterItem item ({ · with fallback := value })
  | .setPolicy item policy => m.alterItem item ({ · with onFailure := some policy })
  | .addRule item ruleType name config dependencies =>
    m.addRule item ruleType name config dependencies
  | .addDependency rule target => m.addDependency rule target

/-- The manifest after an edit; an edit that fails changes nothing. -/
def edit (m : Manifest) (e : Edit) : Manifest :=
  match m.apply e with
  | .ok (m, _) => m
  | .error _ => m

/-- The manifest that edits, some of which may fail, build from the bare root. -/
def build (rootType : String) (edits : List Edit) : Manifest :=
  edits.foldl edit (ofType rootType)

end Manifest

end Vetting
