import Laminate.Yaml.Token.Basic

/-!
# Events

A document as a flat list: each collection is opened and closed, and its contents stand between.
An anchor is a number that no other anchor of the text has, and an alias names the number of the
anchor it refers to.
-/

namespace Laminate.Yaml

/-- What a scalar is before its type is settled. -/
structure RawScalar where
  text : String
  style : Style
  /-- What the tag names, its handle apart. -/
  tag : Option String
deriving DecidableEq, Repr

/-- The scalar that stands where a node was left out. -/
def RawScalar.absent : RawScalar where
  text := "~"
  style := .plain
  tag := none

/-- The scalar that stands behind an anchor or a tag without a node. -/
def RawScalar.bare (tag : Option String) : RawScalar where
  text := ""
  style := .plain
  tag := tag

/-- An event. -/
inductive Event
  | documentStart
  | documentEnd
  | scalar (anchor : Option Nat) (raw : RawScalar)
  | sequenceStart (anchor : Option Nat)
  | sequenceEnd
  | mappingStart (anchor : Option Nat)
  | mappingEnd
  | alias (anchor : Nat)
deriving DecidableEq, Repr

/-- An event and the line it was found on. -/
structure PlacedEvent where
  event : Event
  line : Nat
deriving DecidableEq, Repr

end Laminate.Yaml
