import Vetting.Json.Document

/-!
# Records in documents

A record is written as an object or as an array of its fields in order. In an object unknown keys
are skipped, and a known key must not stand twice; in an array the last fields may be missing, and
there must be no more items than fields (`Document.fieldsOf?`). A choice among names is written as
the name or as an object with the name as its only key and null behind it (`Document.choice?`).
-/

namespace Vetting.Document

def text? : Document → Option String
  | .string s => s
  | _ => none

def flag? : Document → Option Bool
  | .bool b => some b
  | _ => none

/-- A natural that fits in 64 bits, written as an integer. -/
def natural? : Document → Option Nat
  | .number n => n.toJson?.bind Json.natural?
  | _ => none

/-- A value that may be null. -/
def optional? (decode : Document → Option α) : Document → Option (Option α)
  | .null => some none
  | d => (decode d).map some

/-- The value among `choices` that a document names. -/
def choice? (choices : List (String × α)) : Document → Option α
  | .string s => s.bind (List.lookup · choices)
  | .object [(key, .null)] => key.bind (List.lookup · choices)
  | _ => none

/-- A value of any form, inside `level` arrays and objects. -/
def value? (level : Nat) (d : Document) : Option Json :=
  if level + d.depth ≤ nestingLimit then d.toJson? else none

/-- An object of any fields, inside `level` arrays and objects. -/
def anyFields? (level : Nat) (d : Document) : Option Fields :=
  match d.value? level with
  | some (.object fields) => some fields
  | _ => none

/-- The only one of some documents; none of none. Two are an error. -/
def atMostOne : List Document → Option (Option Document)
  | [] => some none
  | [d] => some (some d)
  | _ => none

/-- The documents under the known keys of an object. Every key must have a text. -/
def fieldsOfObject? (names : List String) (fields : List (Option String × Document)) :
    Option (List (Option Document)) := do
  let fields ← fields.mapM fun (key, d) => key.map (·, d)
  names.mapM fun name => atMostOne ((fields.filter (·.1 == name)).map (·.2))

/-- The fields of a record, one for each name, in the order of the names. -/
def fieldsOf? (names : List String) : Document → Option (List (Option Document))
  | .object fields => fieldsOfObject? names fields
  | .array items =>
    if items.length ≤ names.length then
      some (items.map some ++ List.replicate (names.length - items.length) none)
    else none
  | _ => none

/-- A field that must be there. -/
def required? (decode : Document → Option α) (field : Option Document) : Option α :=
  field.bind decode

/-- A field with a value in its absence. Null is no absence. -/
def withDefault? (decode : Document → Option α) (default : α) : Option Document → Option α
  | some d => decode d
  | none => some default

end Vetting.Document
