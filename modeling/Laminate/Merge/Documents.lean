import Laminate.Context
import Laminate.Merge.Overlay

/-!
# Merging documents

Documents are laid over each other from first to last, so later documents win. A document has to
be a mapping; one that is not ends the merge at once, while faults inside documents are collected
and reported together in the end.

A call that marked its value for removal and is overwritten by a document still removes the value
in the end. Its path is recorded after the document, with list indices replaced by the names of
the elements: a name finds its element after later documents have moved it.
-/

namespace Laminate

namespace Node

/-- The component by which a named path addresses an element: its name, unless that would be
taken for an index. -/
def namedComponent (item : Option Node) (component : String) : String :=
  match item.bind name? with
  | some name => if (Numeral.index? name.toList).isNone then name else component
  | none => component

/-- The components of a path with list indices replaced by names. -/
def namedComponents : Option Node → List String → List String
  | _, [] => []
  | some (sequence items), c :: cs =>
    let item := (Numeral.index? c.toList).bind fun i => items[i]?
    namedComponent item c :: namedComponents item cs
  | some n, c :: cs => c :: namedComponents (n.get? c) cs
  | none, c :: cs => c :: namedComponents none cs

/-- A path with list indices replaced by names where the elements have one. -/
def namedPath (n : Node) (path : Cursor) : Cursor :=
  ⟨namedComponents (some n) path.components⟩

end Node

namespace Merge

/-- The faults among notes. -/
def Note.fault? : Note → Option Fault
  | .fault f => some f
  | .overwritten _ => none

/-- The overwritten paths among notes. -/
def Note.overwritten? : Note → Option Cursor
  | .fault _ => none
  | .overwritten path => some path

/-- The state of merging: the tree so far, the faults so far, and the context that records the
paths to remove. -/
structure Stack where
  tree : Entries Node := []
  faults : Faults := .empty
  context : Context := {}

namespace Stack

/-- Lays a document over the tree. -/
def layer (fallback : Fallback) (stack : Stack) (doc : Entries Node) : Stack :=
  let merged := overlayEntries fallback doc stack.tree .root
  let paths := (merged.log.filterMap Note.overwritten?).map (Node.mapping merged.value).namedPath
  { tree := merged.value
    faults := ⟨stack.faults.toList ++ merged.log.filterMap Note.fault?⟩
    context := stack.context.markPruneAll paths }

/-- The tree, unless there were faults. -/
def finish (stack : Stack) : Except Failure Node :=
  (stack.faults.toExcept (.mapping stack.tree)).mapError .several

theorem finish_eq_ok {stack : Stack} {tree : Node} :
    stack.finish = .ok tree ↔ stack.faults.toList = [] ∧ .mapping stack.tree = tree := by
  obtain ⟨entries, ⟨faults⟩, context⟩ := stack
  cases faults with
  | nil => exact ⟨fun h => ⟨rfl, Except.ok.inj h⟩, fun ⟨_, h⟩ => congrArg Except.ok h⟩
  | cons fault faults => exact iff_of_false nofun fun h => nomatch h.1

/-- Lays documents over the tree; `number` is the number of the first of them. -/
def layerAll (fallback : Fallback) (stack : Stack) (number : Nat) :
    List Node → Except Failure Node × Context
  | [] => (stack.finish, stack.context)
  | doc :: docs =>
    match doc with
    | .mapping es => (stack.layer fallback es).layerAll fallback (number + 1) docs
    | _ => (.error (.single (.structural "$" (.rootNotMap number doc.kind))), stack.context)

end Stack

/-- Merges documents into one tree, recording paths to remove in the context. -/
def documents (fallback : Fallback) (docs : List Node) (context : Context) :
    Except Failure Node × Context :=
  Stack.layerAll fallback { context } 1 docs

end Merge

end Laminate
