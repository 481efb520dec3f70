/-!
# Character classes

The classes of characters that the YAML grammar is written with. The end of the text is no
character; the predicates on `Option Char` say how it counts at a place where one is expected.
-/

namespace Laminate.Yaml

/-- A space or a tab. -/
def isBlank (c : Char) : Bool :=
  c == ' ' || c == '\t'

/-- A line break. -/
def isBreak (c : Char) : Bool :=
  c == '\n' || c == '\r'

/-- A character that opens, closes or separates flow collections. -/
def isFlow (c : Char) : Bool :=
  c == ',' || c == '[' || c == ']' || c == '\x7b' || c == '\x7d'

/-- A character of a word: a letter, a digit, `_` or `-`. -/
def isWord (c : Char) : Bool :=
  c.isAlphanum || c == '_' || c == '-'

/-- A hexadecimal digit. -/
def isHex (c : Char) : Bool :=
  c.isDigit || ('a' ≤ c && c ≤ 'f') || ('A' ≤ c && c ≤ 'F')

/-- The value of a hexadecimal digit. -/
def hexValue (c : Char) : Nat :=
  if c.isDigit then c.toNat - '0'.toNat else c.toLower.toNat - 'a'.toNat + 10

/-- The mark of the byte order, which is no part of a name. -/
def byteOrderMark : Char := '\uFEFF'

/-- A character of the name of an anchor. -/
def isAnchorChar (c : Char) : Bool :=
  !isBlank c && !isBreak c && !isFlow c && c != byteOrderMark

/-- A character of a URI. -/
def isUriChar (c : Char) : Bool :=
  c.isAlphanum || c == '-' || "#;/?:@&=+$,_.!~*'()[]%".toList.contains c

/-- A character of the suffix of a tag. -/
def isTagChar (c : Char) : Bool :=
  isUriChar c && !isFlow c && c != '!'

/-- Whether a place is a blank. -/
def atBlank (c : Option Char) : Bool :=
  c.any isBlank

/-- Whether a place is a line break. -/
def atBreak (c : Option Char) : Bool :=
  c.any isBreak

/-- Whether a place is a flow character. -/
def atFlow (c : Option Char) : Bool :=
  c.any isFlow

/-- Whether a line ends at a place. -/
def atLineEnd (c : Option Char) : Bool :=
  c.all isBreak

/-- Whether a word ends at a place, at a blank or at the end of the line. -/
def atGap (c : Option Char) : Bool :=
  c.all fun c => isBlank c || isBreak c

end Laminate.Yaml
