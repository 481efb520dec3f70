import Laminate.Yaml.Scalar

/-!
# From events to trees

A tree grows from its events one by one. The collections that are still open wait in a stack, the
innermost one first; a node that is complete goes into the innermost of them, or is a document if
none is open. An alias stands for a copy of the node it refers to, which has to be complete.

Keys become texts. Of several entries with one key the first one counts, and the values of the
others are dropped. The first event that does not fit ends the work.
-/

namespace Laminate.Yaml

/-- A collection that is still open. -/
inductive Frame
  | sequence (anchor : Option Nat) (items : List Node)
  /-- A mapping, and the key that waits for its value. -/
  | mapping (anchor : Option Nat) (entries : Entries Node) (key : Option String)
deriving Repr

/-- Why an event does not fit. -/
inductive Misfit
  /-- A key that is a collection. -/
  | keyKind (line : Nat) (kind : Kind)
  /-- An alias to a node that is not complete. -/
  | unknownAnchor (line : Nat)
  /-- The end of a sequence where none is the innermost open collection. -/
  | straySequenceEnd
  /-- The end of a mapping where none is the innermost open collection. -/
  | strayMappingEnd
deriving DecidableEq, Repr

/-- The wording of a misfit. -/
def Misfit.text : Misfit → String
  | .keyKind line kind =>
    "mapping key at line " ++ Numeral.text line ++ " is a " ++ kind.name
      ++ "; only scalar keys are supported"
  | .unknownAnchor line => "unknown anchor referenced at line " ++ Numeral.text line
  | .straySequenceEnd => "unbalanced sequence end"
  | .strayMappingEnd => "unbalanced mapping end"

/-- A node as a key: the text of a scalar, and a word for null. -/
def keyText? (node : Node) : Option String :=
  if node.isNull then some "null" else node.text?

/-- Trees under construction. -/
structure Composition where
  /-- The documents that are complete. -/
  documents : List Node := []
  /-- The collections that are open, the innermost one first. -/
  frames : List Frame := []
  /-- The anchored nodes that are complete. -/
  anchored : List (Nat × Node) := []

namespace Composition

/-- Remembers a node under its anchor. -/
def remember (c : Composition) (anchor : Option Nat) (node : Node) : Composition :=
  match anchor with
  | some id => { c with anchored := (id, node) :: c.anchored }
  | none => c

/-- Puts a complete node where it belongs. -/
def place (c : Composition) (node : Node) (line : Nat) : Except Misfit Composition :=
  match c.frames with
  | [] => .ok { c with documents := c.documents ++ [node] }
  | .sequence anchor items :: outer =>
    .ok { c with frames := .sequence anchor (items ++ [node]) :: outer }
  | .mapping anchor entries (some key) :: outer =>
    .ok { c with frames := .mapping anchor (Entries.insertNew entries key node) none :: outer }
  | .mapping anchor entries none :: outer =>
    match keyText? node with
    | some key => .ok { c with frames := .mapping anchor entries (some key) :: outer }
    | none => .error (.keyKind line node.kind)

/-- Remembers a complete node under its anchor and puts it where it belongs. -/
def complete (c : Composition) (anchor : Option Nat) (node : Node) (line : Nat) :
    Except Misfit Composition :=
  (c.remember anchor node).place node line

/-- Opens a collection. -/
def enter (c : Composition) (frame : Frame) : Composition :=
  { c with frames := frame :: c.frames }

/-- Takes in one event. -/
def step (c : Composition) (e : PlacedEvent) : Except Misfit Composition :=
  match e.event with
  | .documentStart => .ok c
  | .documentEnd => .ok c
  | .scalar anchor raw => c.complete anchor (.scalar raw.scalar) e.line
  | .sequenceStart anchor => .ok (c.enter (.sequence anchor []))
  | .mappingStart anchor => .ok (c.enter (.mapping anchor [] none))
  | .sequenceEnd =>
    match c.frames with
    | .sequence anchor items :: outer =>
      { c with frames := outer }.complete anchor (.sequence items) e.line
    | _ => .error .straySequenceEnd
  | .mappingEnd =>
    match c.frames with
    | .mapping anchor entries _ :: outer =>
      { c with frames := outer }.complete anchor (.mapping entries) e.line
    | _ => .error .strayMappingEnd
  | .alias id =>
    match c.anchored.lookup id with
    | some node => c.place node e.line
    | none => .error (.unknownAnchor e.line)

/-- The documents of a list of events. -/
def documentsOf (events : List PlacedEvent) : Except Misfit (List Node) :=
  (events.foldlM step ({} : Composition)).map documents

end Composition

end Laminate.Yaml
