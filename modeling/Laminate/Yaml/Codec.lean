import Laminate.Node.Basic
import Laminate.Yaml.Event.Basic

/-!
# Values and codecs

The format itself knows no trees. It has values: scalars, arrays, and hashes whose keys are values
as well. How a value is written, and which events a text consists of, is left to a codec; trees are
written and read through one.
-/

namespace Laminate.Yaml

/-- A value of the format. -/
inductive Value
  | scalar (value : Scalar)
  | array (items : List Value)
  | hash (entries : List (Value × Value))
deriving Repr

namespace Value

mutual

/-- A tree as a value. Keys become strings, and entries stay in order. -/
def ofNode : Node → Value
  | .scalar s => .scalar s
  | .sequence items => .array (ofItems items)
  | .mapping entries => .hash (ofEntries entries)
termination_by structural n => n

/-- The items of a sequence as values. -/
def ofItems : List Node → List Value
  | [] => []
  | n :: items => ofNode n :: ofItems items
termination_by structural items => items

/-- The entries of a mapping as values. -/
def ofEntries : List (String × Node) → List (Value × Value)
  | [] => []
  | (key, n) :: entries => (.scalar (.string key), ofNode n) :: ofEntries entries
termination_by structural entries => entries

end

end Value

/-- How values are written and texts are read. -/
structure Codec where
  /-- The text of a value, or the wording of why it has none. -/
  dump : Value → Except String String
  /-- The events of a text, or the wording of why it breaks the grammar. They are those of all its
  documents if `multi` says so, and else those of the first one; what follows that one is not
  read. The marks of the stream itself are left out. -/
  load : (text : String) → (multi : Bool) → Except String (List PlacedEvent)

end Laminate.Yaml
