import Laminate.Decimal.Literal

/-!
# Binary64 numbers

Rounding of a decimal literal to the nearest 64-bit binary number, in exact arithmetic on natural
numbers. A finite number is `significand * 2 ^ exponent` with a significand below `2 ^ 53`; it is
at least `2 ^ 52` unless the exponent is the least one.

## How rounding finds the exponent

The quotient `num / den` lies between `2 ^ (k - 1)` and `2 ^ (k + 1)` for `k` the difference of
the two binary logarithms, so one exact comparison fixes its binary logarithm. The exponent is 52
below it, and not below the least one; the significand is the quotient over that power of two,
rounded half to even.
-/

namespace Laminate.Decimal

/-- A 64-bit binary number; the sign of a zero is kept. -/
inductive Binary64
  | finite (negative : Bool) (significand : Nat) (exponent : Int)
  | infinite (negative : Bool)
  | nan
deriving DecidableEq, Repr

namespace Binary64

/-- The least exponent of a finite number. -/
def minExponent : Int := -1074

/-- The greatest exponent of a finite number. -/
def maxExponent : Int := 971

/-- The fraction `num / den` over `2 ^ exponent`, as numerator and denominator. -/
def overPower (num den : Nat) (exponent : Int) : Nat × Nat :=
  if 0 ≤ exponent then (num, den * Nat.pow 2 exponent.toNat)
  else (num * Nat.pow 2 (-exponent).toNat, den)

/-- The nearest whole number to `num / den`; halves go to the even neighbour. -/
def roundHalfEven (num den : Nat) : Nat :=
  let q := num / den
  let r := num % den
  if 2 * r < den then q
  else if den < 2 * r then q + 1
  else if q % 2 = 0 then q else q + 1

/-- The binary logarithm of `num / den`, rounded down. -/
def logRatio (num den : Nat) : Int :=
  let k : Int := (Nat.log2 num : Int) - Nat.log2 den
  let (n, d) := overPower num den k
  if d ≤ n then k else k - 1

/-- The binary number nearest to the positive fraction `num / den`. -/
def ofFraction (negative : Bool) (num den : Nat) : Binary64 :=
  let e := max (logRatio num den - 52) minExponent
  let (n, d) := overPower num den e
  let m := roundHalfEven n d
  let (m, e) := if m = Nat.pow 2 53 then (Nat.pow 2 52, e + 1) else (m, e)
  if maxExponent < e then .infinite negative else .finite negative m e

/-- Decimal numbers of at least `10 ^ 310` round to infinity. -/
def overflowDigits : Int := 310

/-- Decimal numbers below `10 ^ -330` round to zero. -/
def underflowDigits : Int := -330

/-- The binary number nearest to a decimal number. Numbers far out of range are settled by the
position of their first digit, so no power of ten with a large exponent is ever built. -/
def ofScaled (negative : Bool) (s : Scaled) : Binary64 :=
  let position := s.exponent + (Numeral.digits s.coefficient).length
  if s.coefficient = 0 ∨ position < underflowDigits then .finite negative 0 minExponent
  else if overflowDigits < position then .infinite negative
  else if 0 ≤ s.exponent then ofFraction negative (s.coefficient * Nat.pow 10 s.exponent.toNat) 1
  else ofFraction negative s.coefficient (Nat.pow 10 (-s.exponent).toNat)

/-- The binary number that a literal is read as. -/
def ofLiteral (l : Literal) : Binary64 :=
  match l.magnitude with
  | .finite s => ofScaled l.negative s
  | .infinity => .infinite l.negative
  | .nan => .nan

end Binary64

end Laminate.Decimal
