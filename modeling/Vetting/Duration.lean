import Vetting.Json.Basic

/-!
# Durations

A duration is a number of nanoseconds. Its text uses the greatest unit of which it has at least one,
with the exact fraction behind a point: `1.5s`, `250ms`, `1.5µs`, `0ns`.
-/

namespace Vetting

structure Duration where
  nanos : Nat
deriving DecidableEq, Repr

namespace Duration

def ofMillis (n : Nat) : Duration := ⟨n * 1000000⟩

/-- Seconds and the nanoseconds left over. -/
def parts (d : Duration) : Nat × Nat := (d.nanos / 1000000000, d.nanos % 1000000000)

def ofParts (secs nanos : Nat) : Duration := ⟨secs * 1000000000 + nanos⟩

@[simp] theorem ofParts_parts (d : Duration) : ofParts d.parts.1 d.parts.2 = d := by
  cases d
  simp only [parts, ofParts, Duration.mk.injEq]
  omega

/-- The decimals of `rest / 10 ^ places` behind a point, without trailing zeros. -/
def fraction (rest places : Nat) : String :=
  let digits := toString rest
  let padded := List.replicate (places - digits.length) '0' ++ digits.toList
  let kept := (padded.reverse.dropWhile (· == '0')).reverse
  if kept.isEmpty then "" else "." ++ String.ofList kept

/-- A duration counted in a unit of `10 ^ places` nanoseconds. -/
def inUnit (d : Duration) (places : Nat) (unit : String) : String :=
  toString (d.nanos / Nat.pow 10 places) ++ fraction (d.nanos % Nat.pow 10 places) places ++ unit

def text (d : Duration) : String :=
  if 1000000000 ≤ d.nanos then d.inUnit 9 "s"
  else if 1000000 ≤ d.nanos then d.inUnit 6 "ms"
  else if 1000 ≤ d.nanos then d.inUnit 3 "µs"
  else d.inUnit 0 "ns"

def toJson (d : Duration) : Json :=
  .ofFields [("secs", .ofNat d.parts.1), ("nanos", .ofNat d.parts.2)]

end Duration

end Vetting
