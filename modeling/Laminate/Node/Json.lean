import Laminate.Node.Basic
import Laminate.Decimal.Shortest
import Laminate.Text.Indent

/-!
# JSON text of a tree

Two layouts: compact, and pretty with two spaces for each level. A fractional number is
written with the fewest digits that read back as the same binary number; infinities and
not-a-number are written as null, and a text that is no number at all as a string.
-/

namespace Laminate

namespace Json

open Text (newline)

/-- Numbers are positional from `0.00001` up to below `10 ^ 16`, a whole number ends in `.0`, and
an exponent carries its sign. -/
def numberLayout : Decimal.Layout where
  leastPoint := -4
  greatestPoint := 16
  wholeMark := ".0"
  exponentSign := "+"

/-- A hexadecimal digit in lower case. -/
def hexDigit (n : Nat) : Char :=
  Nat.digitChar n

/-- One character inside a string. -/
def escape (c : Char) : List Char :=
  if c = '"' then ['\\', '"']
  else if c = '\\' then ['\\', '\\']
  else if c = '\x08' then ['\\', 'b']
  else if c = '\x0c' then ['\\', 'f']
  else if c = '\n' then ['\\', 'n']
  else if c = '\r' then ['\\', 'r']
  else if c = '\t' then ['\\', 't']
  else if c.toNat < 0x20 then
    ['\\', 'u', '0', '0', hexDigit (c.toNat / 16), hexDigit (c.toNat % 16)]
  else [c]

/-- A string in quotes. -/
def quoted (s : String) : String :=
  String.ofList ('"' :: (s.toList.flatMap escape ++ ['"']))

/-- The text of a fractional number. -/
def float (text : String) : String :=
  match Decimal.Literal.parse? text.toList with
  | some l => (numberLayout.text? (Decimal.Binary64.ofLiteral l)).getD "null"
  | none => quoted text

/-- The text of a scalar. -/
def scalar : Scalar → String
  | .null => "null"
  | .boolean true => "true"
  | .boolean false => "false"
  | .integer i => Numeral.integerText i
  | .float text => float text
  | .string text => quoted text

mutual

/-- The text of a tree without any spacing. -/
def compact : Node → String
  | .scalar s => scalar s
  | .sequence items => "[" ++ ",".intercalate (compactItems items) ++ "]"
  | .mapping es => "\x7b" ++ ",".intercalate (compactEntries es) ++ "\x7d"
termination_by structural n => n

/-- The texts of the items of a sequence. -/
def compactItems : List Node → List String
  | [] => []
  | n :: items => compact n :: compactItems items
termination_by structural items => items

/-- The texts of the entries of a mapping. -/
def compactEntries : List (String × Node) → List String
  | [] => []
  | (key, n) :: es => (quoted key ++ ":" ++ compact n) :: compactEntries es
termination_by structural es => es

end

/-- Parts on lines of their own, one level below the brackets. -/
def block (opening closing : String) (level : Nat) (parts : List String) : String :=
  if parts = [] then opening ++ closing
  else
    opening ++ newline (level + 1) ++ ("," ++ newline (level + 1)).intercalate parts
      ++ newline level ++ closing

mutual

/-- The text of a tree at a level of indentation. -/
def prettyAt (level : Nat) : Node → String
  | .scalar s => scalar s
  | .sequence items => block "[" "]" level (prettyItems (level + 1) items)
  | .mapping es => block "\x7b" "\x7d" level (prettyEntries (level + 1) es)
termination_by structural n => n

/-- The texts of the items of a sequence at a level. -/
def prettyItems (level : Nat) : List Node → List String
  | [] => []
  | n :: items => prettyAt level n :: prettyItems level items
termination_by structural items => items

/-- The texts of the entries of a mapping at a level. -/
def prettyEntries (level : Nat) : List (String × Node) → List String
  | [] => []
  | (key, n) :: es => (quoted key ++ ": " ++ prettyAt level n) :: prettyEntries level es
termination_by structural es => es

end

end Json

namespace Node

/-- The compact JSON text of a tree. -/
def json (n : Node) : String :=
  Json.compact n

/-- The pretty JSON text of a tree. -/
def prettyJson (n : Node) : String :=
  Json.prettyAt 0 n

end Node

end Laminate
