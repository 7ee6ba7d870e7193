import Vetting.Json.Shortest

/-!
# JSON values

The values under validation. Integers and doubles are kept apart: `1` and `1.0` are different
values, while `0.0` and `-0.0` are the same one (`Json.same`). The fields of an object are kept in
ascending order of their keys, one field a key; `Fields.insert` and `Json.ofFields` keep them so.
-/

namespace Vetting

inductive Json where
  | null
  | bool (b : Bool)
  | int (n : Int)
  | float (x : Binary64)
  | string (s : String)
  | array (items : List Json)
  | object (fields : List (String × Json))
deriving Repr, Inhabited

/-- The fields of an object, in ascending order of their keys. -/
abbrev Fields := List (String × Json)

/-- Sets one field; a field of that key is replaced. -/
def Fields.insert (key : String) (value : Json) : Fields → Fields
  | [] => [(key, value)]
  | (k, v) :: rest =>
    if key < k then (key, value) :: (k, v) :: rest
    else if key = k then (key, value) :: rest
    else (k, v) :: Fields.insert key value rest

/-- The fields of a list of pairs, in which the last pair of a key counts. -/
def Fields.ofList (pairs : List (String × Json)) : Fields :=
  pairs.foldl (fun fields (key, value) => Fields.insert key value fields) []

namespace Json

def ofFields (pairs : List (String × Json)) : Json := .object (Fields.ofList pairs)

def isNull : Json → Bool
  | .null => true
  | _ => false

/-- The field of an object; nothing else has fields. -/
def field? : Json → String → Option Json
  | .object fields, key => fields.lookup key
  | _, _ => none

def text? : Json → Option String
  | .string s => some s
  | _ => none

def flag? : Json → Option Bool
  | .bool b => some b
  | _ => none

/-- The least natural that does not fit in 64 bits. -/
def wordBound : Nat := 18446744073709551616

/-- A natural that fits in 64 bits, written as an integer. -/
def natural? : Json → Option Nat
  | .int (.ofNat n) => if n < wordBound then some n else none
  | _ => none

/-- Any number, as the nearest double. -/
def number? : Json → Option Binary64
  | .int n => Binary64.ofInt? n
  | .float x => some x
  | _ => none

/-- The text of a number or truth value, as it stands in a document; the text of a string itself. -/
def scalarText? : Json → Option String
  | .string s => some s
  | .int n => some (toString n)
  | .float x => some x.text
  | .bool b => some (if b then "true" else "false")
  | _ => none

/-- What a value is, for messages. -/
def kind : Json → String
  | .null => "null"
  | .bool _ => "a boolean"
  | .int _ | .float _ => "a number"
  | .string _ => "a string"
  | .array _ => "an array"
  | .object _ => "an object"

mutual

/-- Equality of values: structural, with doubles compared as numbers. -/
def same : Json → Json → Bool
  | .null, .null => true
  | .bool a, .bool b => a == b
  | .int m, .int n => m == n
  | .float x, .float y => x.same y
  | .string s, .string t => s == t
  | .array as, .array bs => sameItems as bs
  | .object fs, .object gs => sameFields fs gs
  | _, _ => false

def sameItems : List Json → List Json → Bool
  | [], [] => true
  | a :: as, b :: bs => a.same b && sameItems as bs
  | _, _ => false

def sameFields : List (String × Json) → List (String × Json) → Bool
  | [], [] => true
  | (k, v) :: fs, (l, w) :: gs => k == l && v.same w && sameFields fs gs
  | _, _ => false

end

mutual

/-- The number of values in a value, itself included. -/
def size : Json → Nat
  | .array items => sizeItems items + 1
  | .object fields => sizeFields fields + 1
  | _ => 1

def sizeItems : List Json → Nat
  | [] => 0
  | a :: as => a.size + sizeItems as

def sizeFields : List (String × Json) → Nat
  | [] => 0
  | (_, v) :: fs => v.size + sizeFields fs

end

/-! ### Optional values -/

/-- The value, or null in place of none. -/
def ofOption (f : α → Json) : Option α → Json
  | some a => f a
  | none => .null

def ofNat (n : Nat) : Json := .int n

def ofText? (s : Option String) : Json := ofOption .string s

end Json

end Vetting
