import Vetting.Json.Basic

/-!
# Writing JSON

Values are written without blanks. In a string, quotation marks, backslashes and control characters
are escaped, the common ones by a letter; every other character stands for itself.
-/

namespace Vetting.Json

/-- The escape of a character in a string, if it has one. -/
def escape? : Char → Option String
  | '"' => some "\\\""
  | '\\' => some "\\\\"
  | '\n' => some "\\n"
  | '\r' => some "\\r"
  | '\t' => some "\\t"
  | '\x08' => some "\\b"
  | '\x0c' => some "\\f"
  | c =>
    if c.toNat < 32 then
      some ("\\u00" ++ String.ofList [Nat.digitChar (c.toNat / 16), Nat.digitChar (c.toNat % 16)])
    else none

/-- A string with its quotation marks. -/
def quote (s : String) : String :=
  s.foldl (fun out c => match escape? c with | some e => out ++ e | none => out.push c) "\"" ++ "\""

mutual

def render : Json → String
  | .null => "null"
  | .bool b => if b then "true" else "false"
  | .int n => toString n
  | .float x => x.text
  | .string s => quote s
  | .array items => "[" ++ ",".intercalate (renderItems items) ++ "]"
  | .object fields => "\x7b" ++ ",".intercalate (renderFields fields) ++ "\x7d"

def renderItems : List Json → List String
  | [] => []
  | a :: as => a.render :: renderItems as

def renderFields : List (String × Json) → List String
  | [] => []
  | (k, v) :: fs => (quote k ++ ":" ++ v.render) :: renderFields fs

end

end Vetting.Json
