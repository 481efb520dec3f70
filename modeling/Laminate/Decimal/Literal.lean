import Laminate.Text.Numeral

/-!
# Decimal literals

The text of a fractional number: an optional sign, then digits with an optional point on either
side and an optional exponent, or one of the words for infinity and for not-a-number in any case.
A literal keeps the exact decimal value; rounding to a machine number is a matter of
`Laminate.Decimal.Binary64`.
-/

namespace Laminate.Decimal

/-- The decimal number `coefficient * 10 ^ exponent`. -/
structure Scaled where
  coefficient : Nat
  exponent : Int
deriving DecidableEq, Repr

/-- What a literal denotes, its sign apart. -/
inductive Magnitude
  | finite (value : Scaled)
  | infinity
  | nan
deriving DecidableEq, Repr

/-- A signed decimal literal. -/
structure Literal where
  negative : Bool
  magnitude : Magnitude
deriving DecidableEq, Repr

namespace Literal

/-- The exponent part: nothing, or the letter `e` and digits after an optional sign. -/
def exponent? : List Char → Option Int
  | [] => some 0
  | c :: cs =>
    if c = 'e' ∨ c = 'E' then
      match cs with
      | '+' :: ds => (Numeral.nat? ds).map Int.ofNat
      | '-' :: ds => (Numeral.nat? ds).map fun n => -Int.ofNat n
      | ds => (Numeral.nat? ds).map Int.ofNat
    else none

/-- Digits with an optional point among them, and the exponent part after them. -/
def scaled? (cs : List Char) : Option Scaled :=
  let whole := cs.takeWhile Char.isDigit
  let afterWhole := cs.dropWhile Char.isDigit
  let (fraction, tail) :=
    match afterWhole with
    | '.' :: rest => (rest.takeWhile Char.isDigit, rest.dropWhile Char.isDigit)
    | rest => ([], rest)
  if whole ++ fraction = [] then none
  else (exponent? tail).map fun e =>
    ⟨Nat.ofDigitChars 10 (whole ++ fraction) 0, e - fraction.length⟩

/-- A literal without its sign. -/
def magnitude? (cs : List Char) : Option Magnitude :=
  let word := String.ofList (cs.map Char.toLower)
  if word = "inf" ∨ word = "infinity" then some .infinity
  else if word = "nan" then some .nan
  else (scaled? cs).map .finite

/-- Reads a literal; the whole text has to be one. -/
def parse? : List Char → Option Literal
  | '+' :: cs => (magnitude? cs).map (Literal.mk false)
  | '-' :: cs => (magnitude? cs).map (Literal.mk true)
  | cs => (magnitude? cs).map (Literal.mk false)

end Literal

end Laminate.Decimal
