import Laminate.Cursor.Lookup

/-!
# Wildcards

A component `*` stands for every child. Below the first wildcard a branch that lacks the rest of
the path is no match and no fault (`Node.childPaths`); before it the path has to lead somewhere
(`Node.glob`). Matches come in document order and in canonical form.
-/

namespace Laminate

/-- The component that stands for every child. -/
def wildcard : String := "*"

namespace Node

/-- The children with their canonical components, in order. -/
def children : Node → List (String × Node)
  | scalar _ => []
  | sequence items => (items.zipIdx).map fun p => (Numeral.text p.2, p.1)
  | mapping es => es

/-- The children that a component stands for. -/
def childrenAt (n : Node) (component : String) : List (String × Node) :=
  if component = wildcard then n.children
  else
    match n.step component with
    | .ok found => [found]
    | .error _ => []

/-- The canonical forms of the matches of a path, branches that lack a part of it left out. -/
def childPaths (n : Node) : List String → List (List String)
  | [] => [[]]
  | c :: cs => (n.childrenAt c).flatMap fun found => (found.2.childPaths cs).map (found.1 :: ·)

/-- The canonical forms of the matches of a path; up to the first wildcard the path has to lead
somewhere, and to a sequence or a mapping. -/
def glob (n : Node) : List String → Except NotFound (List (List String))
  | [] => .ok [[]]
  | c :: cs =>
    if c = wildcard then
      match n with
      | scalar s => .error ⟨[c], .noSubObjects s.kind⟩
      | _ => .ok (n.childPaths (c :: cs))
    else
      match n.step c with
      | .error _ => .error ⟨[c], .missing⟩
      | .ok (d, child) =>
        match child.glob cs with
        | .ok found => .ok (found.map (d :: ·))
        | .error fault => .error (fault.within d)

end Node

/-- The cursors that a cursor with wildcards stands for. -/
def Cursor.glob (c : Cursor) (tree : Node) : Except NotFound (List Cursor) :=
  (tree.glob c.components).map (·.map Cursor.mk)

end Laminate
