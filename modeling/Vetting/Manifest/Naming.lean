/-!
# Names in a manifest

Items and rules are numbered in the order in which they are added. A rule is also known by its key:
the kind of rule, the type that it validates and, to tell rules of one item apart, a name. A
reference names a rule from elsewhere by its item and its key.
-/

namespace Vetting

/-- The position of an item in its manifest. -/
structure ItemId where
  index : Nat
deriving DecidableEq, Repr

/-- The position of a rule in its manifest. -/
structure RuleId where
  index : Nat
deriving DecidableEq, Repr

def ItemId.text (id : ItemId) : String := s!"item#{id.index}"

def RuleId.text (id : RuleId) : String := s!"rule#{id.index}"

structure RuleKey where
  ruleType : String
  validatedType : String
  name : Option String := none
deriving DecidableEq, Repr

/-- A name in brackets, as it ends a key. -/
def bracketed : Option String → String
  | some name => "[" ++ name ++ "]"
  | none => ""

/-- Writes `Rule<Type>[name]`. -/
def RuleKey.text (key : RuleKey) : String :=
  key.ruleType ++ "<" ++ key.validatedType ++ ">" ++ bracketed key.name

/-- A rule named by the item that owns it and its key. -/
structure RuleRef where
  item : ItemId
  key : RuleKey
deriving DecidableEq, Repr

/-- A rule as it was applied: its key and the identity of the object that it was applied to. -/
structure RuleLabel where
  key : RuleKey
  identity : Option String := none
deriving DecidableEq, Repr

/-- Writes `Rule<Type>@identity[name]`. -/
def RuleLabel.text (label : RuleLabel) : String :=
  let identity := match label.identity with
    | some identity => "@" ++ identity
    | none => ""
  label.key.ruleType ++ "<" ++ label.key.validatedType ++ ">" ++ identity ++
    bracketed label.key.name

end Vetting
