import Vetting.Json.Binary64

/-!
# The text of a double

A double is written with the fewest digits that read back as that double, and of those with the
digits nearest to it. `Decimal.shortest` finds the digits in exact arithmetic: the reals that round
to `mantissa · 2 ^ exponent` form an interval, and the first decimal grid `10 ^ k` that has a point
in it, tried from coarse to fine, gives the answer. How the digits are laid out (`Decimal.layout`)
is decided apart from that.
-/

namespace Vetting

/-- The decimal `digits · 10 ^ exponent`. -/
structure Decimal where
  digits : Nat
  exponent : Int
deriving DecidableEq, Repr

namespace Decimal

/-- Compares `a · 10 ^ i` with `n · 2 ^ j`, exactly. -/
def compareScaled (a : Nat) (i : Int) (n : Nat) (j : Int) : Ordering :=
  compare (a * Nat.pow 10 i.toNat * Nat.pow 2 (-j).toNat)
    (n * Nat.pow 2 j.toNat * Nat.pow 10 (-i).toNat)

/-- Whether a decimal lies among the reals that round to the magnitude of `x`.

The ends of the interval are halfway to the neighbouring doubles; they belong to it when the
mantissa is even. Below a power of two the neighbour is half as far away. -/
def ReadsBack (d : Decimal) (x : Binary64) : Prop :=
  let narrow := x.mantissa = Nat.pow 2 52 ∧ Binary64.leastExponent < x.exponent
  let low := compareScaled d.digits d.exponent
    (if narrow then 4 * x.mantissa - 1 else 4 * x.mantissa - 2) (x.exponent - 2)
  let high := compareScaled d.digits d.exponent (4 * x.mantissa + 2) (x.exponent - 2)
  (low = .gt ∨ (x.mantissa % 2 = 0 ∧ low = .eq)) ∧ (high = .lt ∨ (x.mantissa % 2 = 0 ∧ high = .eq))

instance (d : Decimal) (x : Binary64) : Decidable (d.ReadsBack x) := by
  unfold ReadsBack; infer_instance

/-- The least `k` with `mantissa · 2 ^ exponent < 10 ^ k`, for a positive mantissa. -/
def scale (x : Binary64) : Int :=
  let guess := ((x.mantissa.log2 + x.exponent) * 30103).fdiv 100000
  ([guess - 1, guess, guess + 1, guess + 2].find? fun k =>
    compareScaled 1 k x.mantissa x.exponent == .gt).getD (guess + 2)

/-- The point of the grid `10 ^ k` that reads back as `x` and is nearest to it, if there is one. -/
def onGrid? (x : Binary64) (k : Int) : Option Decimal :=
  let below := x.mantissa * Nat.pow 2 x.exponent.toNat * Nat.pow 10 (-k).toNat /
    (Nat.pow 2 (-x.exponent).toNat * Nat.pow 10 k.toNat)
  let low : Decimal := ⟨below, k⟩
  let high : Decimal := ⟨below + 1, k⟩
  match decide (low.ReadsBack x), decide (high.ReadsBack x) with
  | false, false => none
  | true, false => some low
  | false, true => some high
  | true, true =>
    match compareScaled (2 * below + 1) k (2 * x.mantissa) x.exponent with
    | .gt => some low
    | .lt => some high
    | .eq => some (if below % 2 = 0 then low else high)

/-- Moves trailing zeros of the digits into the exponent. -/
def strip : Nat → Decimal → Decimal
  | 0, d => d
  | fuel + 1, d =>
    if d.digits % 10 = 0 ∧ d.digits ≠ 0 then strip fuel ⟨d.digits / 10, d.exponent + 1⟩ else d

/-- The shortest decimal that reads back as the magnitude of `x`, for `x` other than zero. -/
def shortest (x : Binary64) : Decimal :=
  let k := scale x
  let found := (List.range 17).findSome? fun n => onGrid? x (k - 1 - (n : Nat))
  strip 17 (found.getD ⟨x.mantissa * Nat.pow 2 x.exponent.toNat * Nat.pow 5 (-x.exponent).toNat,
    if x.exponent < 0 then x.exponent else 0⟩)

example : shortest ⟨false, 1, -1074⟩ = ⟨5, -324⟩ := by decide +kernel
example : shortest ⟨false, 0x1999999999999a, -56⟩ = ⟨1, -1⟩ := by decide +kernel

/-- Lays out the digits: positionally, with a point, while the leading digit stands between the
fifth decimal place and `10 ^ 15`, and otherwise with a signed exponent. -/
def layout (d : Decimal) : String :=
  let digits := toString d.digits
  let lead := d.exponent + digits.length - 1
  let zeros (n : Int) := String.ofList (List.replicate n.toNat '0')
  let cut (n : Nat) := (String.ofList (digits.toList.take n), String.ofList (digits.toList.drop n))
  if -5 ≤ lead ∧ lead ≤ 15 then
    if 0 ≤ d.exponent then digits ++ zeros d.exponent ++ ".0"
    else if 0 ≤ lead then
      let (whole, fraction) := cut (lead + 1).toNat
      whole ++ "." ++ fraction
    else "0." ++ zeros (-lead - 1) ++ digits
  else
    let (first, rest) := cut 1
    let fraction := if rest.isEmpty then "" else "." ++ rest
    let sign := if lead < 0 then "-" else "+"
    first ++ fraction ++ "e" ++ sign ++ toString lead.natAbs

end Decimal

/-- The text of a double: its sign, then its shortest digits. -/
def Binary64.text (x : Binary64) : String :=
  (if x.negative then "-" else "") ++
    (if x.isZero then "0.0" else (Decimal.shortest x).layout)

end Vetting
