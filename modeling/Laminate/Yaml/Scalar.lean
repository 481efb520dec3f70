import Laminate.Decimal.Literal
import Laminate.Node.Basic
import Laminate.Yaml.Event.Basic

/-!
# The types of scalars

A scalar that is not written plain, or that is tagged as a string, is a string. The type of any
other one follows from its text: integers first, then fractional numbers, which have a digit,
then the words for truth values and for null.
-/

namespace Laminate

/-- A scalar as it is printed; null has a mark of its own. -/
def Scalar.printed (s : Scalar) : String :=
  s.text?.getD "~"

namespace Yaml

/-- The words for true. -/
def trueWords : List String :=
  ["true", "True", "TRUE", "yes", "Yes", "YES", "on", "On", "ON"]

/-- The words for false. -/
def falseWords : List String :=
  ["false", "False", "FALSE", "no", "No", "NO", "off", "Off", "OFF"]

/-- The words for null. An empty text is one of them. -/
def nullWords : List String :=
  ["null", "Null", "NULL", "~", ""]

/-- Whether a text is a number with a digit in it. The words for infinity and for not-a-number
have none. -/
def isFloat (text : String) : Bool :=
  (Decimal.Literal.parse? text.toList).isSome && text.toList.any Char.isDigit

/-- The scalar that a plain text stands for. -/
def plainScalar (text : String) : Scalar :=
  match Numeral.integer? text.toList with
  | some i => .integer i
  | none =>
    if isFloat text then .float text
    else if text ∈ trueWords then .boolean true
    else if text ∈ falseWords then .boolean false
    else if text ∈ nullWords then .null
    else .string text

/-- The tag of strings. -/
def stringTag : String := "str"

/-- The scalar that a raw scalar stands for. -/
def RawScalar.scalar (raw : RawScalar) : Scalar :=
  if raw.style = .plain ∧ raw.tag ≠ some stringTag then plainScalar raw.text
  else .string raw.text

end Yaml

end Laminate
