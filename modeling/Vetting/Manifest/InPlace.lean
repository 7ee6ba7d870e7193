import Vetting.Manifest.Edit

/-!
# Editing in place

How edits change a manifest where it is stored. The arena keeps every item and every rule together
with the number that it was given, and an edit changes it in steps: a new entry is appended first
and then entered in the list of its owner. Nothing is undone when an edit fails; whether it leaves
anything behind depends on the order of its checks and its changes.
-/

namespace Vetting

/-- An item or a rule with the number that it was given. -/
structure Numbered (Id Content : Type) where
  id : Id
  content : Content

structure Arena where
  items : Array (Numbered ItemId Item)
  rules : Array (Numbered RuleId RuleDecl)

namespace Arena

def ofType (rootType : String) : Arena where
  items := #[⟨Manifest.root, { source := .root, validatedType := rootType }⟩]
  rules := #[]

/-- The manifest that is stored. -/
def manifest (a : Arena) : Manifest where
  items := a.items.map (·.content)
  rules := a.rules.map (·.content)

end Arena

/-- Steps that change an arena and may fail in between. -/
abbrev Editing := EStateM ManifestError Arena

namespace Editing

/-- Reads from the manifest as it stands. -/
def read {α : Type} (query : Manifest → Except ManifestError α) : Editing α := do
  MonadExcept.ofExcept (query (← get).manifest)

/-- Appends an item, which gets the next number. -/
def appendItem (item : Item) : Editing ItemId := do
  let id : ItemId := ⟨(← get).items.size⟩
  modify fun a => { a with items := a.items.push ⟨id, item⟩ }
  return id

/-- Appends a rule, which gets the next number. -/
def appendRule (rule : RuleDecl) : Editing RuleId := do
  let id : RuleId := ⟨(← get).rules.size⟩
  modify fun a => { a with rules := a.rules.push ⟨id, rule⟩ }
  return id

def modifyItem (id : ItemId) (f : Item → Item) : Editing Unit :=
  modify fun a => { a with
    items := a.items.modify id.index fun entry => { entry with content := f entry.content } }

def modifyRule (id : RuleId) (f : RuleDecl → RuleDecl) : Editing Unit :=
  modify fun a => { a with
    rules := a.rules.modify id.index fun entry => { entry with content := f entry.content } }

/-- Appends an item below an owner, which does not list it yet. -/
def pushItem (owner : ItemId) (source : Source) (validatedType : String) : Editing ItemId := do
  let ownerItem ← read (·.get owner)
  if ownerItem.source.isRecursive then throw (.recursiveOwner owner)
  appendItem { source, validatedType, parent := some owner }

def addItem (owner : ItemId) (source : Source) (validatedType : String)
    (attach : ItemId → Item → Item) : Editing Receipt := do
  let id ← pushItem owner source validatedType
  modifyItem owner (attach id)
  return .item id

def addElement (owner : ItemId) (source : Source) (validatedType : String) :
    Editing Receipt := do
  let ownerItem ← read (·.get owner)
  if ownerItem.element.isSome then throw (.elementAlreadySet owner)
  addItem owner source validatedType fun id item => { item with element := some id }

def addRule (item : ItemId) (ruleType : String) (name : Option String) (config : Fields)
    (dependencies : List RuleRef) : Editing Receipt := do
  let owner ← read (·.get item)
  if owner.source.isRecursive then throw (.recursiveOwner item)
  let key : RuleKey := ⟨ruleType, owner.validatedType, name⟩
  if ((← get).manifest.findRule? ⟨item, key⟩).isSome then throw (.duplicateRule item key)
  let id ← appendRule { key, item, config, dependencies }
  modifyItem item fun owner => { owner with rules := owner.rules ++ [id] }
  return .rule id

def alterItem (id : ItemId) (f : Item → Item) : Editing Receipt := do
  let _ ← read (·.get id)
  modifyItem id f
  return .nothing

def addDependency (rule : RuleId) (target : RuleRef) : Editing Receipt := do
  read fun m => if (m.rule? rule).isSome then .ok () else .error (.unknownRule rule)
  modifyRule rule fun decl => { decl with dependencies := decl.dependencies ++ [target] }
  return .nothing

end Editing

/-- The steps of an edit. -/
def Edit.inPlace : Edit → Editing Receipt
  | .addMember parent name validatedType reader =>
    Editing.addItem parent (.member name reader none) validatedType Manifest.attachMember
  | .setElement owner validatedType enumerator =>
    Editing.addElement owner (.element enumerator none) validatedType
  | .addVariant owner recognizer =>
    Editing.addItem owner (.variant recognizer) recognizer.typeName Manifest.attachVariant
  | .addRecursiveMember parent name reader levels => do
    let owner ← Editing.read (·.get parent)
    let validatedType := (← get).manifest.borrowedType parent levels owner
    Editing.addItem parent (.member name reader (some levels)) validatedType Manifest.attachMember
  | .setRecursiveElement owner enumerator levels => do
    let ownerItem ← Editing.read (·.get owner)
    let validatedType := (← get).manifest.borrowedType owner levels ownerItem
    Editing.addElement owner (.element enumerator (some levels)) validatedType
  | .setIdentity item identity => Editing.alterItem item ({ · with identity := some identity })
  | .setFallback item value => Editing.alterItem item ({ · with fallback := value })
  | .setPolicy item policy => Editing.alterItem item ({ · with onFailure := some policy })
  | .addRule item ruleType name config dependencies =>
    Editing.addRule item ruleType name config dependencies
  | .addDependency rule target => Editing.addDependency rule target

namespace Arena

/-- The arena that an edit leaves behind, whether or not it fails. -/
def edit (a : Arena) (e : Edit) : Arena :=
  match e.inPlace.run a with
  | .ok _ a | .error _ a => a

/-- The arena that edits, some of which may fail, build from the bare root. -/
def build (rootType : String) (edits : List Edit) : Arena :=
  edits.foldl edit (ofType rootType)

end Arena

end Vetting
