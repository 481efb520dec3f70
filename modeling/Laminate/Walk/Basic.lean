import Laminate.Fault
import Laminate.Logged

/-!
# Walks

A walk shows every node of a tree to a visitor, a node before its children and children in order.
The visitor leaves the node alone, puts another node in its place, or gives the branch up. A
replacement is visited in turn, so a chain of replacements is followed to its end; each one spends
a unit of the budget of its branch, and a branch whose budget is used up is given up as a possible
recursion.

## Termination

Between two replacements the walk goes down a fixed tree (`walkNode`, by recursion on the node);
a replacement continues with one unit less (`walk`, by recursion on the budget).
-/

namespace Laminate

/-- A place in a tree: its cursor with elements of lists addressed by index, and the same path with
elements addressed by their `name` field where they have one. -/
structure Location where
  cursor : Cursor
  named : Cursor
deriving DecidableEq, Repr, Inhabited

namespace Location

/-- The root of a tree. -/
def root : Location := ⟨.root, .root⟩

/-- The text of a place in diagnostics. -/
def path (place : Location) : String :=
  place.named.qualified

/-- The place of the value under a key. -/
def key (place : Location) (key : String) : Location :=
  ⟨place.cursor.child key, place.named.child key⟩

/-- The place of an element of a list. -/
def element (place : Location) (index : Nat) (item : Node) : Location :=
  let position := Numeral.text index
  ⟨place.cursor.child position, place.named.child ((item.field? "name").getD position)⟩

end Location

/-- A visitor's answer for one node. -/
inductive Action
  /-- Leave the node and go on with its children. -/
  | ignore
  /-- Put another node in its place and visit that. -/
  | replace (node : Node)
  /-- Give the branch up. -/
  | fail (failure : Failure)
deriving Repr

/-- What a walk is told at each node. -/
abbrev Visitor := Node → Location → Action

namespace Walk

/-- What a walk writes down on its way. -/
inductive Note
  | visited (node : Node) (place : Location)
  | failed (failure : Failure)
deriving Repr

/-- A value with the notes of a walk. -/
abbrev Walked := Logged Note

/-- The budget of a walk unless another one is given. -/
def defaultBudget : Nat := 32

/-- Shows a node to the visitor and acts on the answer: `again` walks a replacement, and
`descend` walks the children. -/
def visiting (visit : Visitor) (again : Node → Location → Walked Node)
    (n : Node) (descend : Location → Walked Node) (place : Location) : Walked Node := do
  Logged.note (.visited n place)
  match visit n place with
  | .ignore => descend place
  | .replace replacement => again replacement place
  | .fail failure => do
    Logged.note (.failed failure)
    pure n

mutual

/-- Walks a tree as long as nothing is replaced. -/
def walkNode (visit : Visitor) (again : Node → Location → Walked Node) :
    Node → Location → Walked Node
  | .scalar s => visiting visit again (.scalar s) fun _ => pure (.scalar s)
  | .sequence items => visiting visit again (.sequence items) fun place =>
    .sequence <$> walkItems visit again items 0 place
  | .mapping es => visiting visit again (.mapping es) fun place =>
    .mapping <$> walkEntries visit again es place
termination_by structural n => n

/-- Walks the elements of a list from an index on. -/
def walkItems (visit : Visitor) (again : Node → Location → Walked Node) :
    List Node → Nat → Location → Walked (List Node)
  | [] => fun _ _ => pure []
  | item :: items => fun index place => do
    let walked ← walkNode visit again item (place.element index item)
    let rest ← walkItems visit again items (index + 1) place
    pure (walked :: rest)
termination_by structural items => items

/-- Walks the values of a mapping. -/
def walkEntries (visit : Visitor) (again : Node → Location → Walked Node) :
    List (String × Node) → Location → Walked (List (String × Node))
  | [] => fun _ => pure []
  | (key, n) :: es => fun place => do
    let walked ← walkNode visit again n (place.key key)
    let rest ← walkEntries visit again es place
    pure ((key, walked) :: rest)
termination_by structural es => es

end

/-- Walks a tree with a budget of replacements for each branch. -/
def walk (visit : Visitor) : Nat → Node → Location → Walked Node
  | 0 => fun n place => do
    Logged.note (.failed (.single (.cycle place.path .budgetExhausted)))
    pure n
  | budget + 1 => walkNode visit (walk visit budget)

/-- The faults among notes. -/
def Note.faults : Note → List Fault
  | .visited _ _ => []
  | .failed failure => failure.faults

/-- The visits among notes. -/
def Note.visit? : Note → Option (Node × Location)
  | .visited n place => some (n, place)
  | .failed _ => none

end Walk

namespace Node

/-- Walks the whole tree. -/
def walk (n : Node) (visit : Visitor) (budget : Nat) : Walk.Walked Node :=
  Walk.walk visit budget n .root

end Node

namespace Walk.Walked

/-- The faults of a walk, in the order in which they were met. -/
def faults {α : Type} (w : Walk.Walked α) : Faults :=
  ⟨w.log.flatMap Walk.Note.faults⟩

/-- The nodes that were visited, in order. -/
def visits {α : Type} (w : Walk.Walked α) : List (Node × Location) :=
  w.log.filterMap Walk.Note.visit?

end Walk.Walked

end Laminate
