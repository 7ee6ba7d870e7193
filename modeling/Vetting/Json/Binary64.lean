/-!
# Finite doubles

A finite double is a sign and a magnitude `mantissa · 2 ^ exponent`, kept as integers, so that
equality of doubles can be decided and reasoned about. Each operation computes its exact result and
rounds it once, to the nearest double, a tie going to the even mantissa (`ofQuotient`). Infinities
and "not a number" are no values here: an operation whose result is too large has no result.
-/

namespace Vetting

/-- A finite double, `mantissa · 2 ^ exponent` with a sign.

A double has one representation: `mantissa < 2 ^ 53`, `-1074 ≤ exponent`, and the mantissa is at
least `2 ^ 52` unless the exponent is `-1074`. -/
structure Binary64 where
  negative : Bool
  mantissa : Nat
  exponent : Int
deriving DecidableEq, Repr

namespace Binary64

/-- The exponent of the least positive double. -/
def leastExponent : Int := -1074

/-- The exponent of the greatest double. -/
def greatestExponent : Int := 971

/-- Zero with a sign. -/
def zero (negative : Bool) : Binary64 := ⟨negative, 0, leastExponent⟩

/-- The exact value in units of `2 ^ -1074`, the least positive double. The two zeros agree. -/
def units (x : Binary64) : Int :=
  let magnitude : Nat := x.mantissa * Nat.pow 2 (x.exponent - leastExponent).toNat
  if x.negative then -magnitude else magnitude

/-- The natural nearest to `num / den`; a tie goes to the even neighbour. -/
def roundQuotient (num den : Nat) : Nat :=
  let quotient := num / den
  let rest := num % den
  if 2 * rest < den then quotient
  else if den < 2 * rest then quotient + 1
  else if quotient % 2 = 0 then quotient
  else quotient + 1

/-- Numerator and denominator of `num / den / 2 ^ exponent`. -/
def scaled (num den : Nat) (exponent : Int) : Nat × Nat :=
  (num * Nat.pow 2 (-exponent).toNat, den * Nat.pow 2 exponent.toNat)

/-- The exponent at which `num / den` has a mantissa of 53 bits, or the least one. -/
def exponentFor (num den : Nat) : Int :=
  -- `num / den` lies strictly between `2 ^ (guess + 52)` and `2 ^ (guess + 54)`
  let guess : Int := (num.log2 : Int) - den.log2 - 53
  let (n, d) := scaled num den guess
  max leastExponent (if Nat.pow 2 53 ≤ n / d then guess + 1 else guess)

/-- The double nearest to `num / den`, unless it is too large. -/
def ofQuotient (negative : Bool) (num den : Nat) : Option Binary64 :=
  if den = 0 then none
  else if num = 0 then some (zero negative)
  else
    let exponent := exponentFor num den
    let (n, d) := scaled num den exponent
    let mantissa := roundQuotient n d
    -- rounding up can reach the next power of two
    let (mantissa, exponent) :=
      if mantissa = Nat.pow 2 53 then (Nat.pow 2 52, exponent + 1) else (mantissa, exponent)
    if exponent ≤ greatestExponent then some ⟨negative, mantissa, exponent⟩ else none

/-- The double nearest to an integer, unless it is too large. -/
def ofInt? (n : Int) : Option Binary64 := ofQuotient (n < 0) n.natAbs 1

def mul? (x y : Binary64) : Option Binary64 :=
  let exponent := x.exponent + y.exponent
  ofQuotient (x.negative != y.negative)
    (x.mantissa * y.mantissa * Nat.pow 2 exponent.toNat) (Nat.pow 2 (-exponent).toNat)

/-- The rounded quotient; there is none for a zero divisor. -/
def div? (x y : Binary64) : Option Binary64 :=
  let exponent := x.exponent - y.exponent
  ofQuotient (x.negative != y.negative)
    (x.mantissa * Nat.pow 2 exponent.toNat) (y.mantissa * Nat.pow 2 (-exponent).toNat)

def neg (x : Binary64) : Binary64 := { x with negative := !x.negative }

def isZero (x : Binary64) : Bool := x.mantissa == 0

instance : LE Binary64 := ⟨fun x y => x.units ≤ y.units⟩

instance (x y : Binary64) : Decidable (x ≤ y) := inferInstanceAs (Decidable (x.units ≤ y.units))

/-- Numeric equality: the two zeros are equal. -/
def same (x y : Binary64) : Bool := x.units == y.units

@[simp] theorem same_iff {x y : Binary64} : x.same y = true ↔ x.units = y.units := by
  simp [same]

example : ofQuotient false 1 10 = some ⟨false, 0x1999999999999a, -56⟩ := by decide +kernel
example : (zero true).same (zero false) = true := by decide

end Binary64

end Vetting
