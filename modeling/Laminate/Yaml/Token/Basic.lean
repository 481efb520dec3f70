import Laminate.Yaml.Input

/-!
# Tokens

The words of YAML: scalars, the marks between them, and the starts and ends of collections that
indentation implies. A token remembers the place it was found at.
-/

namespace Laminate.Yaml

/-- How a scalar was written. -/
inductive Style
  | plain
  | quoted
  | block
deriving DecidableEq, Repr

/-- A token. -/
inductive Token
  | streamEnd
  | versionDirective
  | tagDirective (handle expansion : String)
  | documentStart
  | documentEnd
  | blockSequenceStart
  | blockMappingStart
  | blockEnd
  | flowSequenceStart
  | flowSequenceEnd
  | flowMappingStart
  | flowMappingEnd
  | blockEntry
  | flowEntry
  | key
  | value
  | alias (name : String)
  | anchor (name : String)
  | tag (handle suffix : String)
  | scalar (style : Style) (text : String)
deriving DecidableEq, Repr

/-- A token and its place. -/
structure PlacedToken where
  token : Token
  place : Place
deriving DecidableEq, Repr

/-- Items that were read before the text ended, or before a problem was met. -/
structure Prefixed (α : Type) where
  items : List α
  problem : Option Problem
deriving Repr

end Laminate.Yaml
