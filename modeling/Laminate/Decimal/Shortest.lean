import Laminate.Decimal.Binary64

/-!
# Shortest decimal digits

The fewest decimal digits that read back as a given binary number. All numbers strictly between
the midpoints to the two neighbours round to it, and the midpoints do as well when its significand
is even. On the grid of `n` significant digits only the two points around the number itself have
to be tested: if any point of the grid lies in the interval, one of these two does. The first grid
with a hit wins; of two hits the nearer one, and of two equally near ones the even one.
-/

namespace Laminate.Decimal

namespace Binary64

/-- The open or closed interval of numbers that round to a binary number, all three of its points
given in units of `2 ^ unit`. -/
structure Neighbourhood where
  unit : Int
  low : Nat
  value : Nat
  high : Nat
  closed : Bool
deriving Repr

/-- The neighbourhood of `significand * 2 ^ exponent`. The gap below a power of two is half the
gap above it, except at the least exponent. -/
def neighbourhood (significand : Nat) (exponent : Int) : Neighbourhood where
  unit := exponent - 2
  low := if significand = Nat.pow 2 52 ∧ minExponent < exponent then 4 * significand - 1
    else 4 * significand - 2
  value := 4 * significand
  high := 4 * significand + 2
  closed := significand % 2 = 0

/-- A fraction of natural numbers. -/
abbrev Fraction := Nat × Nat

/-- Whether the whole number of units `n` lies in the neighbourhood, where the unit of the grid is
`scale` units of the neighbourhood. -/
def Neighbourhood.admits (h : Neighbourhood) (scale : Fraction) (n : Nat) : Bool :=
  let x := n * scale.1
  if h.closed then h.low * scale.2 ≤ x && x ≤ h.high * scale.2
  else h.low * scale.2 < x && x < h.high * scale.2

/-- The size of `10 ^ place` in units of `2 ^ unit`, as a fraction. -/
def gridScale (place unit : Int) : Fraction :=
  let num := Nat.pow 10 place.toNat * Nat.pow 2 (-unit).toNat
  let den := Nat.pow 10 (-place).toNat * Nat.pow 2 unit.toNat
  (num, den)

/-- The point of the grid that stands for the number, if the grid has one: a multiple of
`10 ^ place`. -/
def Neighbourhood.onGrid? (h : Neighbourhood) (place : Int) : Option Nat :=
  let scale := gridScale place h.unit
  let v := h.value * scale.2
  let below := v / scale.1
  let above := below + 1
  match h.admits scale below && below ≠ 0, h.admits scale above with
  | true, true =>
    let downward := v - below * scale.1
    let upward := above * scale.1 - v
    if downward < upward then some below
    else if upward < downward then some above
    else if below % 2 = 0 then some below else some above
  | true, false => some below
  | false, true => some above
  | false, false => none

/-- The position of the first decimal digit of a neighbourhood's number: the greatest place `p`
with `10 ^ p ≤ number`, searched downwards from a place that is too high. -/
def firstPlace (h : Neighbourhood) : Nat → Int → Int
  | 0, p => p
  | steps + 1, p =>
    let scale := gridScale p h.unit
    if scale.1 ≤ h.value * scale.2 then p else firstPlace h steps (p - 1)

/-- Tries grids of more and more digits, from `place` downwards. -/
def searchGrids (h : Neighbourhood) : Nat → Int → Option Scaled
  | 0, _ => none
  | steps + 1, place =>
    match h.onGrid? place with
    | some n => some ⟨n, place⟩
    | none => searchGrids h steps (place - 1)

/-- No number needs more than 17 digits to read back. -/
def maxDigits : Nat := 17

/-- Removes factors of ten from the coefficient. -/
def dropZeros : Nat → Scaled → Scaled
  | 0, s => s
  | steps + 1, s =>
    if s.coefficient % 10 = 0 ∧ s.coefficient ≠ 0 then
      dropZeros steps ⟨s.coefficient / 10, s.exponent + 1⟩
    else s

/-- The shortest decimal that reads back as `significand * 2 ^ exponent`. -/
def shortest (significand : Nat) (exponent : Int) : Scaled :=
  if significand = 0 then ⟨0, 0⟩
  else
    let h := neighbourhood significand exponent
    -- `10 ^ 309` is above every finite number, and `10 ^ -324` below every positive one
    let first := firstPlace h 640 309
    dropZeros 20 ((searchGrids h (maxDigits + 1) first).getD ⟨0, 0⟩)

end Binary64

/-! ## Layout -/

/-- How decimal digits are laid out as text. -/
structure Layout where
  /-- The number is written positionally if at least this many digits stand before the point;
  a negative number counts zeros after the point. -/
  leastPoint : Int
  /-- And if at most this many digits stand before the point. -/
  greatestPoint : Int
  /-- What is written after a whole number in positional form. -/
  wholeMark : String
  /-- What is written before an exponent that is not negative. -/
  exponentSign : String

namespace Layout

/-- The digits of a positive or zero decimal number as text. -/
def magnitude (l : Layout) (s : Scaled) : String :=
  let ds := Numeral.digits s.coefficient
  let point : Int := s.exponent + ds.length
  if s.coefficient = 0 then "0" ++ l.wholeMark
  else if l.leastPoint ≤ point ∧ point ≤ l.greatestPoint then
    if 0 ≤ s.exponent then
      String.ofList (ds ++ List.replicate s.exponent.toNat '0') ++ l.wholeMark
    else if 0 < point then
      String.ofList (ds.take point.toNat) ++ "." ++ String.ofList (ds.drop point.toNat)
    else
      "0." ++ String.ofList (List.replicate (-point).toNat '0' ++ ds)
  else
    let e := point - 1
    let exponentText := (if e < 0 then "-" else l.exponentSign) ++ Numeral.text e.natAbs
    let fraction := ds.drop 1
    String.ofList (ds.take 1) ++ (if fraction = [] then "" else "." ++ String.ofList fraction)
      ++ "e" ++ exponentText

/-- A finite binary number as text; infinities and not-a-number have none. -/
def text? (l : Layout) : Binary64 → Option String
  | .finite negative significand exponent =>
    some ((if negative then "-" else "") ++ l.magnitude (Binary64.shortest significand exponent))
  | .infinite _ => none
  | .nan => none

end Layout

end Laminate.Decimal
