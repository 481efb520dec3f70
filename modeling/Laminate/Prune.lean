import Laminate.Cursor.Lookup

/-!
# Pruning

Removing the nodes at given paths. The paths are brought into canonical form while the tree is
still whole; paths that lead nowhere, and the root, are left out. Then the nodes are removed from
the last to the first, list indices compared as numbers, so that no removal moves a node that is
still to be removed, and what is below a node goes before the node itself.
-/

namespace Laminate

namespace Prune

/-- The order of two components: as numbers if both are indices, else as texts. -/
def compareComponents (a b : String) : Ordering :=
  match Numeral.index? a.toList, Numeral.index? b.toList with
  | some i, some j => compare i j
  | _, _ => compare a b

/-- The order of two paths: first difference first, and a proper beginning comes first. -/
def comparePaths : List String → List String → Ordering
  | [], [] => .eq
  | [], _ :: _ => .lt
  | _ :: _, [] => .gt
  | x :: xs, y :: ys => (compareComponents x y).then (comparePaths xs ys)

/-- Drops repetitions of the element before. -/
def dropRepeated : List Cursor → List Cursor
  | a :: b :: rest => if a = b then dropRepeated (b :: rest) else a :: dropRepeated (b :: rest)
  | cs => cs

/-- The canonical forms of the paths that can be removed, last one first. -/
def targets (tree : Node) (paths : List Cursor) : List Cursor :=
  let found := (paths.filter fun c => !c.isRoot).filterMap fun c => (c.canonical tree).toOption
  dropRepeated (found.mergeSort fun a b => (comparePaths a.components b.components).isGE)

/-- A container without the child at a canonical component; nothing if it has none there. -/
def withoutChild? (container : Node) (component : String) : Option Node :=
  match container with
  | .mapping es =>
    if Entries.contains es component then some (.mapping (Entries.erase es component)) else none
  | .sequence items =>
    match Numeral.index? component.toList with
    | some i => if i < items.length then some (.sequence (items.eraseIdx i)) else none
    | none => none
  | .scalar _ => none

/-- The tree without the node at a canonical path; nothing if the path leads nowhere. -/
def remove? (tree : Node) (target : Cursor) : Option Node := do
  let last ← target.last?
  let container ← (target.parent.resolve tree).toOption
  let smaller ← withoutChild? container last
  (target.parent.replace tree smaller).toOption

/-- Removes one node and counts it. -/
def step (state : Node × Nat) (target : Cursor) : Node × Nat :=
  match remove? state.1 target with
  | some tree => (tree, state.2 + 1)
  | none => state

end Prune

/-- Removes the nodes at the given paths, and gives the number of nodes removed. -/
def Node.prune (tree : Node) (paths : List Cursor) : Node × Nat :=
  (Prune.targets tree paths).foldl Prune.step (tree, 0)

end Laminate
