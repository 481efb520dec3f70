import Laminate.Call.Basic
import Laminate.Merge.List

/-!
# Laying one tree over another

A mapping is laid over a mapping key by key, and over anything else as if over an empty mapping;
a list is merged as its first element says, and anything but a list counts as an empty one; a
scalar takes the place of whatever was there. The inputs stay as they are: what is new in the
result is built from the incoming tree by laying it over null.

A call to `merge` has a meaning only as the first element of a list. Anywhere else it is a fault
of its branch, which then keeps the base value.
-/

namespace Laminate.Merge

/-- Whether a node is a text that calls an operator. -/
def isCall (n : Node) (name : String) : Bool :=
  match n.string? with
  | some text => Call.isCallTo text name
  | none => false

/-- Notes that a call that marks its value for removal is overwritten. -/
def noteOverwritten (base : Node) (path : Cursor) : Merged PUnit :=
  if isCall base "prune" then Logged.note (.overwritten path) else pure ⟨⟩

mutual

/-- Lays a node over the node at a path. -/
def overlay (fallback : Fallback) : Node → Node → Cursor → Merged Node
  | .scalar s => fun base path =>
    if isCall (.scalar s) "merge" then do
      Logged.note (.fault (.structural path.qualified .misplacedMerge))
      pure base
    else do
      noteOverwritten base path
      pure (.scalar s)
  | .mapping es => fun base path => do
    noteOverwritten base path
    .mapping <$> overlayEntries fallback es (base.entries?.getD []) path
  | .sequence items => fun base path => do
    noteOverwritten base path
    match ← mergeList fallback path (base.items?.getD []) (incoming fallback items) with
    | .ok merged => pure (.sequence merged)
    | .error fault => do
      Logged.note (.fault fault)
      pure base
termination_by structural n => n

/-- Lays entries over the entries of a mapping, key by key. -/
def overlayEntries (fallback : Fallback) :
    List (String × Node) → Entries Node → Cursor → Merged (Entries Node)
  | [] => fun base _ => pure base
  | (key, n) :: es => fun base path => do
    let slot := (Entries.get? base key).getD .null
    let merged ← overlay fallback n slot (path.child key)
    overlayEntries fallback es (Entries.insert base key merged) path
termination_by structural es => es

/-- The items of an incoming list, each with how it is laid over a node. -/
def incoming (fallback : Fallback) : List Node → List Incoming
  | [] => []
  | n :: items => ⟨n, overlay fallback n⟩ :: incoming fallback items
termination_by structural items => items

end

theorem incoming_eq_map (fallback : Fallback) (items : List Node) :
    incoming fallback items = items.map fun n => ⟨n, overlay fallback n⟩ := by
  induction items with
  | nil => rfl
  | cons n items ih => simp [incoming, ih]

end Laminate.Merge
