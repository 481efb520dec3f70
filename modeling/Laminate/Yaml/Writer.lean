import Laminate.Yaml.Codec
import Laminate.Yaml.Refusal

/-!
# Writing YAML

A tree is written as the codec writes its value. What the codec puts before the value, the mark of
the start of a document and spaces, is taken away, and the text ends with a line break.
-/

namespace Laminate.Yaml

/-- What follows a start that a text may have. -/
def afterStart? (start text : List Char) : Option (List Char) :=
  if start.isPrefixOf text then some (text.drop start.length) else none

/-- A text without the mark of the start of a document. A line break behind the mark belongs
to it. -/
def afterMark (text : List Char) : List Char :=
  ((afterStart? ['-', '-', '-', '\n'] text).or (afterStart? ['-', '-', '-'] text)).getD text

/-- What a codec has written, without the mark and the spaces before the value. -/
def body (text : String) : String :=
  String.ofList ((afterMark text.toList).dropWhile (· == ' '))

/-- The text of a tree as a document. -/
def Codec.write (codec : Codec) (tree : Node) : Except Refusal String :=
  match codec.dump (.ofNode tree) with
  | .error cause => .error (.unwritable cause)
  | .ok text => .ok (body text ++ "\n")

end Laminate.Yaml
