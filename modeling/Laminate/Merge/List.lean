import Laminate.Logged
import Laminate.Merge.Directive

/-!
# Merging lists

How an incoming list is laid over a base list: position by position, by a key, after or
before it, instead of it, or as a series of edits. The strategies do not look inside elements: an
incoming element brings along how it is laid over another node (`Incoming.layOver`), and adding it
to a list means laying it over null.

Faults inside an element are notes and leave the other elements alone; a fault of the list itself
is returned, and the base list stays.
-/

namespace Laminate.Merge

/-- What a merge writes down on its way. -/
inductive Note
  /-- A branch that could not be merged. -/
  | fault (fault : Fault)
  /-- The place of an overwritten call that marked its value for removal. -/
  | overwritten (path : Cursor)
deriving DecidableEq, Repr

/-- A merged value with its notes. -/
abbrev Merged := Logged Note

/-- How lists without a directive are merged when their elements have no names. -/
inductive Fallback
  | inline
  | append
deriving DecidableEq, Repr, Inhabited

/-- An incoming element, and how it is laid over the node at a path. -/
structure Incoming where
  node : Node
  layOver : Node → Cursor → Merged Node

namespace Incoming

/-- Adds an incoming element to the tree at a path. -/
def adopt (item : Incoming) (path : Cursor) : Merged Node :=
  item.layOver .null path

/-- Adds incoming elements at consecutive positions of the list at a path. -/
def adoptAll (path : Cursor) : Nat → List Incoming → Merged (List Node)
  | _, [] => pure []
  | index, item :: items => do
    let adopted ← item.adopt (path.child (Numeral.text index))
    let rest ← adoptAll path (index + 1) items
    pure (adopted :: rest)

end Incoming

/-! ## By position -/

/-- Lays each incoming element over the base element at its position. -/
def mergeInline (path : Cursor) : Nat → List Node → List Incoming → Merged (List Node)
  | _, base, [] => pure base
  | index, [], item :: items => do
    let adopted ← item.adopt (path.child (Numeral.text index))
    let rest ← mergeInline path (index + 1) [] items
    pure (adopted :: rest)
  | index, slot :: base, item :: items => do
    let merged ← item.layOver slot (path.child (Numeral.text index))
    let rest ← mergeInline path (index + 1) base items
    pure (merged :: rest)

/-! ## By key -/

/-- The position of the first element that has a name under a key. -/
def position? (list : List Node) (key name : String) : Option Nat :=
  list.findIdx? fun item => item.field? key == some name

/-- Why an element cannot be matched by a key. -/
def keyProblem? (side : Side) (key : String) (item : Node) : Option StructuralProblem :=
  if item.isMapping then
    match item.field? key with
    | some _ => none
    | none => some (.keyMissing side key)
  else some (.notMap side item.kind)

/-- The first element of a list that cannot be matched by a key. -/
def keyFault? (side : Side) (key : String) (path : Cursor) (index : Nat) : List Node → Option Fault
  | [] => none
  | item :: items =>
    match keyProblem? side key item with
    | some problem => some (.structural (path.child (Numeral.text index)).qualified problem)
    | none => keyFault? side key path (index + 1) items

/-- Lays each incoming element over the first element with the same key text, or adds it at the
end if there is none. -/
def layByKey (key : String) (path : Cursor) : List Node → List Incoming → Merged (List Node)
  | result, [] => pure result
  | result, item :: items =>
    match position? result key ((item.node.field? key).getD "") with
    | some i => do
      let merged ← item.layOver (result[i]?.getD .null) (path.child (Numeral.text i))
      layByKey key path (result.set i merged) items
    | none => do
      let adopted ← item.adopt (path.child (Numeral.text result.length))
      layByKey key path (result ++ [adopted]) items

/-- Merges lists by a key that all elements of both must have. -/
def mergeByKey (key : String) (path : Cursor) (base : List Node) (items : List Incoming) :
    Merged (Except Fault (List Node)) :=
  let baseFault := keyFault? .base key path 0 base
  let incomingFault := keyFault? .incoming key path 0 (items.map Incoming.node)
  match baseFault.or incomingFault with
  | some fault => pure (.error fault)
  | none => .ok <$> layByKey key path base items

/-! ## By edits -/

/-- An edit and the entries that follow it in the incoming list. -/
structure Batch where
  edit : Edit
  entries : List Incoming

/-- Cuts an incoming list into batches: the entries before the first edit, and the batches. -/
def batches (path : Cursor) (index : Nat) :
    List Incoming → Except Fault (List Incoming × List Batch)
  | [] => .ok ([], [])
  | item :: items =>
    let here := (path.child (Numeral.text index)).qualified
    match Directive.ofNode? item.node with
    | some (.ok (.edit edit)) =>
      (batches path (index + 1) items).map fun (entries, rest) => ([], ⟨edit, entries⟩ :: rest)
    | some (.ok _) => .error (.structural here .mixedDirectives)
    | some (.error problem) => .error (.structural here problem)
    | none => (batches path (index + 1) items).map fun (entries, rest) => (item :: entries, rest)

/-- The position of an anchor in a list. -/
def Anchor.position (anchor : Anchor) (list : List Node) : Except StructuralProblem Nat :=
  match anchor with
  | index i => if i < 0 then .error (.negativeIndex i) else .ok i.toInt.toNat
  | named key name =>
    match position? list key name with
    | some i => .ok i
    | none => .error (.anchorMissing key name)

/-- The position at which a delete applies. -/
def deletePosition (list : List Node) (anchor : Anchor) : Except StructuralProblem Nat :=
  let position :=
    if anchor = .index (-1) ∧ list ≠ [] then .ok (list.length - 1) else anchor.position list
  position.bind fun i =>
    if i < list.length then .ok i else .error (.deleteOutOfBounds i list.length)

/-- The position at which an insert applies. -/
def insertPosition (list : List Node) (after : Bool) (anchor : Anchor) :
    Except StructuralProblem Nat :=
  let position :=
    if anchor = .index (-1) then .ok list.length
    else (anchor.position list).map fun i => if after then i + 1 else i
  position.bind fun i =>
    if i ≤ list.length then .ok i else .error (.insertOutOfBounds i list.length)

/-- Whether an entry has a name under the anchor's key that an element of the list has as well. -/
def insertClash? (list : List Node) (key : String) : List Incoming → Option StructuralProblem
  | [] => none
  | item :: items =>
    match item.node.field? key with
    | some name =>
      if (position? list key name).isSome then some (.alreadyPresent key name)
      else insertClash? list key items
    | none => insertClash? list key items

/-- Whether an insert at an anchor would repeat a name. -/
def Anchor.clash? (anchor : Anchor) (list : List Node) (entries : List Incoming) :
    Option StructuralProblem :=
  match anchor with
  | index _ => none
  | named key _ => insertClash? list key entries

/-- Applies one batch to a list. -/
def applyBatch (path : Cursor) (list : List Node) (batch : Batch) :
    Merged (Except StructuralProblem (List Node)) :=
  match batch.edit with
  | .delete anchor =>
    if batch.entries.isEmpty then
      pure ((deletePosition list anchor).map fun i => list.eraseIdx i)
    else pure (.error .deleteWithEntries)
  | .insert after anchor =>
    match insertPosition list after anchor with
    | .error problem => pure (.error problem)
    | .ok i =>
      match anchor.clash? list batch.entries with
      | some problem => pure (.error problem)
      | none => do
        let adopted ← Incoming.adoptAll path i batch.entries
        pure (.ok (list.take i ++ adopted ++ list.drop i))

/-- Applies batches in order. -/
def applyBatches (path : Cursor) : List Node → List Batch → Merged (Except Fault (List Node))
  | list, [] => pure (.ok list)
  | list, batch :: rest => do
    match ← applyBatch path list batch with
    | .ok list => applyBatches path list rest
    | .error problem => pure (.error (.structural path.qualified problem))

/-- The batches that an incoming list consists of. It has to start with a directive. -/
def cut (path : Cursor) (items : List Incoming) : Except Fault (List Batch) :=
  match items with
  | [] => .ok []
  | first :: _ =>
    match Directive.ofNode? first.node with
    | none =>
      .error (.structural (path.child (Numeral.text 0)).qualified .entryBeforeDirective)
    | some _ => (batches path 0 items).map Prod.snd

/-- Applies the edits of an incoming list. -/
def mergeEdits (path : Cursor) (base : List Node) (items : List Incoming) :
    Merged (Except Fault (List Node)) :=
  match cut path items with
  | .error fault => pure (.error fault)
  | .ok list => applyBatches path base list

/-! ## The choice of strategy -/

/-- Whether all elements have a name, so that lists can be matched by it. -/
def allNamed (list : List Node) : Bool :=
  list.all fun item => (item.field? defaultKey).isSome

/-- Merges a list without a directive. -/
def mergePlain (fallback : Fallback) (path : Cursor) (base : List Node)
    (items : List Incoming) : Merged (Except Fault (List Node)) :=
  if allNamed base && allNamed (items.map Incoming.node) then
    mergeByKey defaultKey path base items
  else
    match fallback with
    | .inline => .ok <$> mergeInline path 0 base items
    | .append =>
      (fun tail => .ok (base ++ tail)) <$> Incoming.adoptAll path base.length items

/-- Merges an incoming list as its first element says. -/
def mergeList (fallback : Fallback) (path : Cursor) (base : List Node)
    (items : List Incoming) : Merged (Except Fault (List Node)) :=
  match items with
  | [] => mergePlain fallback path base []
  | first :: rest =>
    match Directive.ofNode? first.node with
    | none => mergePlain fallback path base items
    | some (.error problem) => pure (.error (.structural path.qualified problem))
    | some (.ok .inline) => .ok <$> mergeInline path 0 base rest
    | some (.ok .replace) => .ok <$> Incoming.adoptAll path 0 rest
    | some (.ok .append) =>
      (fun tail => .ok (base ++ tail)) <$> Incoming.adoptAll path base.length rest
    | some (.ok .prepend) => (fun head => .ok (head ++ base)) <$> Incoming.adoptAll path 0 rest
    | some (.ok (.merge key)) => mergeByKey key path base rest
    | some (.ok (.edit _)) => mergeEdits path base items

end Laminate.Merge
