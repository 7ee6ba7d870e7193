import Vetting.Json.Basic

/-!
# JSON documents

A `Document` is a JSON text as it was written: numerals keep their digits, objects keep every field
in the order in which it stands, and a string that escapes half of a surrogate pair is kept without
a text. `Document.parse` reads a text; what a document means is decided afterwards, by `toJson?` for
a value of any form and by `Vetting.Json.Decoding` for records. So a part that nobody asks for may
hold numerals that are too large and strings that have no text.
-/

namespace Vetting

/-- A numeral as it was written: sign, digits, digits after the point, exponent. -/
structure Numeral where
  negative : Bool
  whole : List Nat
  fraction : Option (List Nat)
  exponent : Option Int
deriving DecidableEq, Repr

namespace Numeral

/-- Reads digits into a 64-bit significand. The first digit that does not fit stops the reading; the
digits from there on are returned unread. -/
def accumulate : Nat → List Nat → Nat × List Nat
  | significand, [] => (significand, [])
  | significand, d :: ds =>
    if significand * 10 + d < Json.wordBound then accumulate (significand * 10 + d) ds
    else (significand, d :: ds)

/-- The double nearest to `10 ^ k`. -/
def powerOfTen (k : Nat) : Option Binary64 := Binary64.ofQuotient false (Nat.pow 10 k) 1

/-- A significand scaled by a power of ten. The significand is rounded to a double first, then one
multiplication or division scales it; below `10 ^ -308` a division by `10 ^ 308` goes before. -/
def scale (significand : Nat) (exponent : Int) : Option Binary64 := do
  let x ← Binary64.ofInt? significand
  if significand = 0 ∨ exponent < -616 then some (Binary64.zero false)
  else if 308 < exponent then none
  else if 0 ≤ exponent then x.mul? (← powerOfTen exponent.toNat)
  else if -308 ≤ exponent then x.div? (← powerOfTen (-exponent).toNat)
  else
    let small ← x.div? (← powerOfTen 308)
    small.div? (← powerOfTen (-exponent - 308).toNat)

/-- The double that a numeral stands for, unless it is too large. -/
def toBinary64? (n : Numeral) : Option Binary64 := do
  let (significand, unread) := accumulate 0 n.whole
  let fraction := n.fraction.getD []
  let (significand, dropped) := accumulate significand fraction
  let shift : Int := unread.length - (fraction.length - dropped.length : Nat)
  let x ← scale significand (shift + n.exponent.getD 0)
  if n.negative then some x.neg else some x

/-- The number that a numeral stands for. Without point and exponent it is an integer, if that fits
in 64 bits, signed or unsigned, and is not a negative zero; otherwise it is a double. -/
def toJson? (n : Numeral) : Option Json :=
  let magnitude : Nat := n.whole.foldl (fun acc d => acc * 10 + d) 0
  let integral := n.fraction.isNone && n.exponent.isNone
  if integral && !n.negative && magnitude < Json.wordBound then some (.int magnitude)
  else if integral && n.negative && 0 < magnitude && magnitude * 2 ≤ Json.wordBound then
    some (.int (-magnitude))
  else n.toBinary64?.map .float

end Numeral

/-- A JSON text as it was written. -/
inductive Document where
  | null
  | bool (b : Bool)
  | number (n : Numeral)
  | string (text : Option String)
  | array (items : List Document)
  | object (fields : List (Option String × Document))
deriving Repr, Inhabited

namespace Document

/-! ## Reading a text -/

def isBlank (c : Char) : Bool := c == ' ' || c == '\n' || c == '\t' || c == '\r'

def skipBlanks (cs : List Char) : List Char := cs.dropWhile isBlank

def digit? (c : Char) : Option Nat := if c.isDigit then some (c.toNat - '0'.toNat) else none

def hexDigit? (c : Char) : Option Nat :=
  if c.isDigit then some (c.toNat - '0'.toNat)
  else if 'a' ≤ c ∧ c ≤ 'f' then some (c.toNat - 'a'.toNat + 10)
  else if 'A' ≤ c ∧ c ≤ 'F' then some (c.toNat - 'A'.toNat + 10)
  else none

/-- The leading digits and what follows them. -/
def takeDigits (cs : List Char) : List Nat × List Char :=
  ((cs.takeWhile Char.isDigit).filterMap digit?, cs.dropWhile Char.isDigit)

/-- Four hexadecimal digits: one unit of UTF-16. -/
def unit? : List Char → Option (Nat × List Char)
  | a :: b :: c :: d :: rest => do
    let n := (← hexDigit? a) * 4096 + (← hexDigit? b) * 256 + (← hexDigit? c) * 16 + (← hexDigit? d)
    some (n, rest)
  | _ => none

/-- The characters of a string up to its closing quotation mark. They are `none` after an escape
that stands for half of a surrogate pair without the other half. -/
def readText : Nat → Option (List Char) → List Char → Option (Option String × List Char)
  | 0, _, _ => none
  | fuel + 1, acc, cs =>
    let push (c : Char) (rest : List Char) := readText fuel (acc.map (c :: ·)) rest
    match cs with
    | '"' :: rest => some (acc.map fun chars => String.ofList chars.reverse, rest)
    | '\\' :: '"' :: rest => push '"' rest
    | '\\' :: '\\' :: rest => push '\\' rest
    | '\\' :: '/' :: rest => push '/' rest
    | '\\' :: 'b' :: rest => push '\x08' rest
    | '\\' :: 'f' :: rest => push '\x0c' rest
    | '\\' :: 'n' :: rest => push '\n' rest
    | '\\' :: 'r' :: rest => push '\r' rest
    | '\\' :: 't' :: rest => push '\t' rest
    | '\\' :: 'u' :: rest =>
      match unit? rest with
      | none => none
      | some (high, rest) =>
        if 0xD800 ≤ high ∧ high < 0xDC00 then
          match rest with
          | '\\' :: 'u' :: next =>
            match unit? next with
            | none => none
            | some (low, after) =>
              if 0xDC00 ≤ low ∧ low < 0xE000 then
                push (Char.ofNat (0x10000 + (high - 0xD800) * 1024 + (low - 0xDC00))) after
              else readText fuel none rest
          | _ => readText fuel none rest
        else if 0xDC00 ≤ high ∧ high < 0xE000 then readText fuel none rest
        else push (Char.ofNat high) rest
    | '\\' :: _ => none
    | c :: rest => if c.toNat < 32 then none else push c rest
    | [] => none

/-- The digits before the point: a single zero, or digits that do not begin with one. -/
def readWhole : List Char → Option (List Nat × List Char)
  | '0' :: rest => if (rest.head?.map Char.isDigit).getD false then none else some ([0], rest)
  | cs =>
    match takeDigits cs with
    | ([], _) => none
    | (digits, rest) => some (digits, rest)

def readFraction : List Char → Option (Option (List Nat) × List Char)
  | '.' :: cs =>
    match takeDigits cs with
    | ([], _) => none
    | (digits, rest) => some (some digits, rest)
  | cs => some (none, cs)

def readExponent : List Char → Option (Option Int × List Char)
  | c :: cs =>
    if c == 'e' || c == 'E' then
      let (negative, cs) := match cs with
        | '+' :: rest => (false, rest)
        | '-' :: rest => (true, rest)
        | _ => (false, cs)
      match takeDigits cs with
      | ([], _) => none
      | (digits, rest) =>
        let n : Nat := digits.foldl (fun acc d => acc * 10 + d) 0
        some (some (if negative then -n else n), rest)
    else some (none, c :: cs)
  | [] => some (none, [])

def readNumeral (cs : List Char) : Option (Numeral × List Char) := do
  let (negative, cs) := match cs with
    | '-' :: rest => (true, rest)
    | _ => (false, cs)
  let (whole, cs) ← readWhole cs
  let (fraction, cs) ← readFraction cs
  let (exponent, cs) ← readExponent cs
  some (⟨negative, whole, fraction, exponent⟩, cs)

mutual

/-- One document at the head of a text, and the text that follows it. -/
def read : Nat → List Char → Option (Document × List Char)
  | 0, _ => none
  | fuel + 1, cs =>
    match skipBlanks cs with
    | 'n' :: 'u' :: 'l' :: 'l' :: rest => some (.null, rest)
    | 't' :: 'r' :: 'u' :: 'e' :: rest => some (.bool true, rest)
    | 'f' :: 'a' :: 'l' :: 's' :: 'e' :: rest => some (.bool false, rest)
    | '"' :: rest =>
      (readText (rest.length + 1) (some []) rest).map fun (s, rest) => (.string s, rest)
    | '[' :: rest =>
      match skipBlanks rest with
      | ']' :: rest => some (.array [], rest)
      | rest => (readItems fuel [] rest).map fun (items, rest) => (.array items, rest)
    | '\x7b' :: rest =>
      match skipBlanks rest with
      | '\x7d' :: rest => some (.object [], rest)
      | rest => (readFields fuel [] rest).map fun (fields, rest) => (.object fields, rest)
    | cs => (readNumeral cs).map fun (n, rest) => (.number n, rest)

/-- The items of an array up to its bracket, after those already read. -/
def readItems : Nat → List Document → List Char → Option (List Document × List Char)
  | 0, _, _ => none
  | fuel + 1, before, cs =>
    match read fuel cs with
    | none => none
    | some (item, rest) =>
      match skipBlanks rest with
      | ',' :: rest => readItems fuel (item :: before) rest
      | ']' :: rest => some ((item :: before).reverse, rest)
      | _ => none

/-- The fields of an object up to its brace, after those already read. -/
def readFields : Nat → List (Option String × Document) → List Char →
    Option (List (Option String × Document) × List Char)
  | 0, _, _ => none
  | fuel + 1, before, cs =>
    match skipBlanks cs with
    | '"' :: rest =>
      match readText (rest.length + 1) (some []) rest with
      | none => none
      | some (key, rest) =>
        match skipBlanks rest with
        | ':' :: rest =>
          match read fuel rest with
          | none => none
          | some (value, rest) =>
            match skipBlanks rest with
            | ',' :: rest => readFields fuel ((key, value) :: before) rest
            | '\x7d' :: rest => some (((key, value) :: before).reverse, rest)
            | _ => none
        | _ => none
    | _ => none

end

/-- Reads a text that holds one document, blanks around it allowed. Each step of the reading takes
at least one character, which bounds their number. -/
def parse (text : String) : Option Document :=
  let cs := text.toList
  match read (cs.length + 1) cs with
  | some (document, rest) => if (skipBlanks rest).isEmpty then some document else none
  | none => none

/-! ## What a document means -/

mutual

/-- The number of arrays and objects around the innermost part. -/
def depth : Document → Nat
  | .array items => depthItems items + 1
  | .object fields => depthFields fields + 1
  | _ => 0

def depthItems : List Document → Nat
  | [] => 0
  | d :: ds => max d.depth (depthItems ds)

def depthFields : List (Option String × Document) → Nat
  | [] => 0
  | (_, d) :: ds => max d.depth (depthFields ds)

end

mutual

/-- The value of a document. There is none for a numeral that is too large or a string without a
text; of several fields with one key the last counts. -/
def toJson? : Document → Option Json
  | .null => some .null
  | .bool b => some (.bool b)
  | .number n => n.toJson?
  | .string s => s.map .string
  | .array items => (itemsToJson? items).map .array
  | .object fields => (fieldsToJson? fields).map .ofFields

def itemsToJson? : List Document → Option (List Json)
  | [] => some []
  | d :: ds => do
    let v ← d.toJson?
    let vs ← itemsToJson? ds
    some (v :: vs)

def fieldsToJson? : List (Option String × Document) → Option (List (String × Json))
  | [] => some []
  | (key, d) :: ds => do
    let k ← key
    let v ← d.toJson?
    let vs ← fieldsToJson? ds
    some ((k, v) :: vs)

end

/-- The deepest nesting of arrays and objects in a value that is kept. -/
def nestingLimit : Nat := 127

end Document

/-- Reads a text that holds one value. -/
def Json.parse (text : String) : Option Json := do
  let document ← Document.parse text
  if document.depth ≤ Document.nestingLimit then document.toJson? else none

end Vetting
