import Laminate.Cursor.Reader

/-!
# Following cursors

One step down a tree (`Node.step`) yields the child and its canonical component: the key in a
mapping, the decimal index in a sequence. Everything else is built from steps: the node that a
path leads to, the canonical form of the path, and a tree with another node at its end.

In a sequence a component that is an index addresses by position and nothing else; any other
component addresses the first element of which one of the name fields holds it.
-/

namespace Laminate

namespace Node

/-- The position of the element that a component addresses. -/
def elementIndex? (items : List Node) (component : String) : Option Nat :=
  match Numeral.index? component.toList with
  | some i => if i < items.length then some i else none
  | none => items.findIdx? fun item => item.isNamed component

/-- Why a component addresses no element of a sequence. -/
def elementObstacle (items : List Node) (component : String) : Obstacle :=
  match Numeral.index? component.toList with
  | some i => .outOfBounds i items.length
  | none => .missing

/-- One step down: the canonical component of the child, and the child. -/
def step (n : Node) (component : String) : Except Obstacle (String × Node) :=
  match n with
  | mapping es =>
    match Entries.get? es component with
    | some child => .ok (component, child)
    | none => .error .missing
  | sequence items =>
    match elementIndex? items component with
    | some i =>
      match items[i]? with
      | some child => .ok (Numeral.text i, child)
      | none => .error (elementObstacle items component)
    | none => .error (elementObstacle items component)
  | scalar s => .error (.noSubObjects s.kind)

/-- The tree with another child where a component leads; unchanged if it leads nowhere. -/
def withChild (n : Node) (component : String) (child : Node) : Node :=
  match n with
  | mapping es =>
    if Entries.contains es component then mapping (Entries.insert es component child)
    else mapping es
  | sequence items =>
    match elementIndex? items component with
    | some i => sequence (items.set i child)
    | none => sequence items
  | scalar s => scalar s

/-- The node that a path leads to. -/
def resolve (n : Node) : List String → Except NotFound Node
  | [] => .ok n
  | c :: cs =>
    match n.step c with
    | .error obstacle => .error ⟨[c], obstacle⟩
    | .ok (_, child) => (child.resolve cs).mapError (·.within c)

/-- The canonical form of a path. A path that leads nowhere is reported in canonical form up to
the step at fault. -/
def canonical (n : Node) : List String → Except NotFound (List String)
  | [] => .ok []
  | c :: cs =>
    match n.step c with
    | .error obstacle => .error ⟨[c], obstacle⟩
    | .ok (d, child) =>
      match child.canonical cs with
      | .ok ds => .ok (d :: ds)
      | .error fault => .error (fault.within d)

/-- The tree with another node at the end of a path. -/
def replace (n : Node) (value : Node) : List String → Except NotFound Node
  | [] => .ok value
  | c :: cs =>
    match n.step c with
    | .error obstacle => .error ⟨[c], obstacle⟩
    | .ok (_, child) =>
      match child.replace value cs with
      | .ok child' => .ok (n.withChild c child')
      | .error fault => .error (fault.within c)

end Node

namespace Cursor

/-- The node that a cursor leads to. -/
def resolve (c : Cursor) (tree : Node) : Except NotFound Node :=
  tree.resolve c.components

/-- The cursor with names of elements replaced by their indices. -/
def canonical (c : Cursor) (tree : Node) : Except NotFound Cursor :=
  (tree.canonical c.components).map Cursor.mk

/-- The tree with another node where a cursor leads. -/
def replace (c : Cursor) (tree value : Node) : Except NotFound Node :=
  tree.replace value c.components

end Cursor

end Laminate
