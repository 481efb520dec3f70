import Laminate.Text.Indent
import Laminate.Yaml.Codec
import Laminate.Yaml.Event.Grammar
import Laminate.Yaml.Scalar

/-!
# The standard codec

The codec that the program runs with. A text is read by the grammar of the format; a value is
written in block style, behind the mark of the start of a document. The entries of a collection
stand on lines of their own at one level of indentation. A collection inside an array begins behind
the dash, one inside a hash on the line below its key; an empty one is written with brackets. A
string is quoted wherever its plain text would be read as something else.
-/

namespace Laminate.Yaml

/-! ## Strings -/

/-- The characters that a plain text does not begin with. -/
def leadingMarks : List Char :=
  ['&', '*', '?', '|', '-', '<', '>', '=', '!', '%', '@', '.', ' ']

/-- Whether a character makes quotes necessary wherever it stands. -/
def needsQuotes (c : Char) : Bool :=
  let n := c.toNat
  c ∈ [':', '\x7b', '\x7d', '[', ']', ',', '#', '"', '\'', '\\'] || n == 0x60 || n ≤ 0x06
    || n == 0x09 || n == 0x0A || n == 0x0D || (0x0E ≤ n && n ≤ 0x1A) || (0x1C ≤ n && n ≤ 0x1F)

/-- The words for truth values that are quoted and never read as such. -/
def letterWords : List String := ["y", "Y", "n", "N"]

/-- Whether a text stands for something else than itself when it is not quoted. -/
def isReserved (text : String) : Bool :=
  text ∈ trueWords || text ∈ falseWords || text ∈ nullWords || text ∈ letterWords
    || (Numeral.integer? text.toList).isSome || (Decimal.Literal.parse? text.toList).isSome

/-- Whether a text is written without quotes. -/
def isPlain (text : String) : Bool :=
  let cs := text.toList
  !(isReserved text || cs.head?.any (leadingMarks.contains ·) || cs.getLast? == some ' '
    || ['0', 'x'].isPrefixOf cs || cs.any needsQuotes)

/-- A hexadecimal escape for a character below U+0100. -/
def hexEscape (c : Char) : List Char :=
  ['\\', 'u', '0', '0', Nat.digitChar (c.toNat / 16), Nat.digitChar (c.toNat % 16)]

/-- A character between quotes. -/
def escape (c : Char) : List Char :=
  if c = '"' then ['\\', '"']
  else if c = '\\' then ['\\', '\\']
  else if c = '\x08' then ['\\', 'b']
  else if c = '\t' then ['\\', 't']
  else if c = '\n' then ['\\', 'n']
  else if c = '\x0c' then ['\\', 'f']
  else if c = '\r' then ['\\', 'r']
  else if c.toNat < 0x20 ∨ c.toNat = 0x7F then hexEscape c
  else [c]

/-- A text between quotes. -/
def quoted (text : String) : String :=
  String.ofList ('"' :: (text.toList.flatMap escape ++ ['"']))

/-- A string, quoted if need be. -/
def stringText (text : String) : String :=
  if isPlain text then text else quoted text

/-! ## Values -/

/-- The text of a scalar. -/
def scalarText : Scalar → String
  | .string text => stringText text
  | s => s.printed

/-- Whether a value is written on lines of its own below a key. -/
def Value.isBlock : Value → Bool
  | .array (_ :: _) => true
  | .hash (_ :: _) => true
  | _ => false

/-- Whether a value is written as a key with a mark of its own. -/
def Value.isMarkedKey : Value → Bool
  | .scalar _ => false
  | _ => true

mutual

/-- The text of a value whose first line is at a level of indentation already. -/
def textAt (level : Nat) : Value → String
  | .scalar s => scalarText s
  | .array [] => "[]"
  | .array items => (Text.newline level).intercalate (itemTexts level items)
  | .hash [] => "\x7b\x7d"
  | .hash entries => (Text.newline level).intercalate (entryTexts level entries)
termination_by structural v => v

/-- The texts of the items of an array. -/
def itemTexts (level : Nat) : List Value → List String
  | [] => []
  | v :: items => ("- " ++ textAt (level + 1) v) :: itemTexts level items
termination_by structural items => items

/-- The texts of the entries of a hash. A key that is a collection stands behind a mark, and its
value on a line of its own. -/
def entryTexts (level : Nat) : List (Value × Value) → List String
  | [] => []
  | (key, v) :: entries =>
    (if key.isMarkedKey then
      "? " ++ textAt (level + 1) key ++ Text.newline level ++ ": " ++ textAt (level + 1) v
    else
      textAt level key ++ ":" ++ (if v.isBlock then Text.newline (level + 1) else " ")
        ++ textAt (level + 1) v)
      :: entryTexts level entries
termination_by structural entries => entries

end

/-! ## The codec -/

/-- The wording of all the ways to break the grammar. -/
def Problem.text (_ : Problem) : String := "<scan error>"

/-- The codec of the program. -/
def Codec.standard : Codec where
  dump v := .ok ("---\n" ++ textAt 0 v)
  load text multi :=
    (if multi then PlacedEvent.ofDocuments text else PlacedEvent.ofFirstDocument text).mapError
      Problem.text

end Laminate.Yaml
