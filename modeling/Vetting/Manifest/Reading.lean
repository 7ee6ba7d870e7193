import Vetting.Json.Basic

/-!
# Reading values

What an item of a manifest does with a value: a `Reader` takes one value out of the value of the
parent, an `Enumerator` takes the elements of a collection, an `IdentityReader` names an object,
and a `Recognizer` tells whether a value has a certain type. Each is an arbitrary function; the
stock ones below read fields of JSON objects.

Readers and enumerators also list the constants (`fixed`) that they may return besides parts of
their argument. The lists only bound how deep a value tree can grow.
-/

namespace Vetting

/-- Why a value could not be read. -/
structure ReadFailure where
  message : String
deriving DecidableEq, Repr

/-- What becomes of a value that cannot be read. -/
inductive FailurePolicy where
  /-- Nothing is validated; the failure is the answer. -/
  | propagate
  /-- The item's default value stands in. A collection counts as empty. -/
  | useDefault
  /-- There is no value, and nothing below it. -/
  | skip
deriving DecidableEq, Repr

structure Reader where
  read : Json → Except ReadFailure Json
  fixed : List Json := []

structure Enumerator where
  elements : Json → Except ReadFailure (List Json)
  fixed : List Json := []

structure IdentityReader where
  identity? : Json → Option String

structure Recognizer where
  typeName : String
  accepts : Json → Bool

namespace Reader

/-- Reads a field of an object; a missing field is null. -/
def field (name : String) : Reader where
  read
    | .object fields => .ok ((fields.lookup name).getD .null)
    | other => .error ⟨"cannot read member `" ++ name ++ "` of " ++ other.kind⟩

/-- Reads a field that must be there. -/
def requiredField (name : String) : Reader where
  read value :=
    match value.field? name with
    | some found => .ok found
    | none => .error ⟨"missing `" ++ name ++ "`"⟩

def itself : Reader where
  read value := .ok value

def const (value : Json) : Reader where
  read _ := .ok value
  fixed := [value]

def failing (message : String) : Reader where
  read _ := .error ⟨message⟩

end Reader

namespace IdentityReader

/-- The text of a string, number or truth value in a field of an object. -/
def field (name : String) : IdentityReader where
  identity? value := (value.field? name).bind Json.scalarText?

def const (identity : String) : IdentityReader where
  identity? _ := some identity

def never : IdentityReader where
  identity? _ := none

/-- A string is its own identity. -/
def ownText : IdentityReader where
  identity? := Json.text?

end IdentityReader

namespace Enumerator

/-- The elements of an array, or the values of an object by ascending key; null has none. -/
def standard : Enumerator where
  elements
    | .array items => .ok items
    | .object fields => .ok (fields.map (·.2))
    | .null => .ok []
    | other => .error ⟨other.kind ++ " is not enumerable"⟩

def reversed : Enumerator where
  elements value := (standard.elements value).map List.reverse

def const (items : List Json) : Enumerator where
  elements _ := .ok items
  fixed := items

def failing (message : String) : Enumerator where
  elements _ := .error ⟨message⟩

end Enumerator

namespace Recognizer

/-- Accepts objects whose field holds one of the tags. -/
def tagged (typeName field : String) (tags : List String) : Recognizer where
  typeName
  accepts value :=
    match (value.field? field).bind Json.text? with
    | some tag => tags.contains tag
    | none => false

/-- Accepts objects that have the field, whatever it holds. -/
def withField (typeName field : String) : Recognizer where
  typeName
  accepts value := (value.field? field).isSome

def always (typeName : String) : Recognizer where
  typeName
  accepts _ := true

def never (typeName : String) : Recognizer where
  typeName
  accepts _ := false

end Recognizer

end Vetting
