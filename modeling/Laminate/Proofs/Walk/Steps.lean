import Laminate.Walk.Basic

/-!
# One step of a walk

At a node a walk does one of three things, by what the visitor answers there: it walks the children
(`walkNode_of_ignore`), the replacement (`walkNode_of_replace`) or nothing more
(`walkNode_of_fail`). The elements of a list and the values of a mapping are treated alike, as
children at their places (`Node.placedChildren`), so that what holds of every node if it holds of
its children is shown in one case (`Node.placed_induction`).
-/

namespace Laminate

namespace Node

/-- The children of a node at a place, with their places, in order. -/
def placedChildren : Node → Location → List (Node × Location)
  | .scalar _, _ => []
  | .sequence items, place => items.zipIdx.map fun p => (p.1, place.element p.2 p.1)
  | .mapping es, place => es.map fun e => (e.2, place.key e.1)

/-- The node with its children changed, each by what it is and by its place. -/
def mapChildren (f : Node → Location → Node) : Node → Location → Node
  | .scalar s, _ => .scalar s
  | .sequence items, place => .sequence (items.zipIdx.map fun p => f p.1 (place.element p.2 p.1))
  | .mapping es, place => .mapping (es.map fun e => (e.1, f e.2 (place.key e.1)))

/-- Induction on a tree at a place: a node has the property if its children have it. -/
@[elab_as_elim]
theorem placed_induction {motive : Node → Location → Prop}
    (node : ∀ n place, (∀ c ∈ n.placedChildren place, motive c.1 c.2) → motive n place)
    (n : Node) : ∀ place, motive n place := by
  induction n using Node.induction with
  | scalar s => exact fun place => node _ place nofun
  | sequence items ih =>
    refine fun place => node _ place fun c hc => ?_
    obtain ⟨p, hp, rfl⟩ := List.mem_map.mp hc
    exact ih p.1 (List.fst_mem_of_mem_zipIdx hp) _
  | mapping es ih =>
    refine fun place => node _ place fun c hc => ?_
    obtain ⟨e, he, rfl⟩ := List.mem_map.mp hc
    exact ih e he _

variable {n : Node} {place : Location} {f g : Node → Location → Node}

theorem mapChildren_congr (h : ∀ c ∈ n.placedChildren place, f c.1 c.2 = g c.1 c.2) :
    n.mapChildren f place = n.mapChildren g place := by
  cases n with
  | scalar s => rfl
  | sequence items =>
    exact congrArg sequence (List.map_congr_left fun p hp => h _ (List.mem_map_of_mem hp))
  | mapping es =>
    exact congrArg mapping (List.map_congr_left fun e he =>
      congrArg (Prod.mk e.1) (h _ (List.mem_map_of_mem he)))

theorem mapChildren_self (n : Node) (place : Location) :
    n.mapChildren (fun child _ => child) place = n := by
  cases n with
  | scalar s => rfl
  | sequence items => exact congrArg sequence (List.zipIdx_map_fst 0 items)
  | mapping es => exact congrArg mapping (List.map_id es)

end Node

namespace Walk

variable {visit : Visitor} {again : Node → Location → Walked Node} {n : Node} {place : Location}

theorem walkItems_eq (items : List Node) (place : Location) : ∀ index : Nat,
    walkItems visit again items index place =
      ⟨(items.zipIdx index).map fun p =>
          (walkNode visit again p.1 (place.element p.2 p.1)).value,
        (items.zipIdx index).flatMap fun p =>
          (walkNode visit again p.1 (place.element p.2 p.1)).log⟩ := by
  induction items with
  | nil => exact fun _ => rfl
  | cons item items ih =>
    intro index
    simp only [walkItems, ih, List.zipIdx_cons, List.map_cons, List.flatMap_cons]
    simp [bind, pure]

theorem walkEntries_eq (es : Entries Node) (place : Location) :
    walkEntries visit again es place =
      ⟨es.map fun e => (e.1, (walkNode visit again e.2 (place.key e.1)).value),
        es.flatMap fun e => (walkNode visit again e.2 (place.key e.1)).log⟩ := by
  induction es with
  | nil => rfl
  | cons e es ih =>
    simp only [walkEntries, ih, List.map_cons, List.flatMap_cons]
    simp [bind, pure]

/-- A node that is left keeps its shape, and its children are walked in order. -/
theorem walkNode_of_ignore (h : visit n place = .ignore) :
    walkNode visit again n place =
      ⟨n.mapChildren (fun m loc => (walkNode visit again m loc).value) place,
        .visited n place :: (n.placedChildren place).flatMap fun c =>
          (walkNode visit again c.1 c.2).log⟩ := by
  cases n with
  | scalar s =>
    simp [walkNode, visiting, h, Node.mapChildren, Node.placedChildren, Logged.note, bind, pure]
  | sequence items =>
    simp only [walkNode, visiting, h, walkItems_eq, Node.mapChildren, Node.placedChildren,
      List.flatMap_map]
    simp [Logged.note, bind, Functor.map]
  | mapping es =>
    simp only [walkNode, visiting, h, walkEntries_eq, Node.mapChildren, Node.placedChildren,
      List.flatMap_map]
    simp [Logged.note, bind, Functor.map]

/-- A node that is replaced is noted, and the replacement is walked in its place. -/
theorem walkNode_of_replace {replacement : Node} (h : visit n place = .replace replacement) :
    walkNode visit again n place =
      ⟨(again replacement place).value, .visited n place :: (again replacement place).log⟩ := by
  cases n <;> simp [walkNode, visiting, h, Logged.note, bind]

/-- A node at which the branch is given up stays as it is. -/
theorem walkNode_of_fail {failure : Failure} (h : visit n place = .fail failure) :
    walkNode visit again n place = ⟨n, [.visited n place, .failed failure]⟩ := by
  cases n <;> simp [walkNode, visiting, h, Logged.note, bind, pure]

/-! ## Walks without faults -/

/-- Nothing has gone wrong on a walk. -/
def Faultless {α : Type} (w : Walked α) : Prop :=
  w.faults.toList = []

theorem faultless_of_ignore (h : visit n place = .ignore) :
    Faultless (walkNode visit again n place) ↔
      ∀ c ∈ n.placedChildren place, Faultless (walkNode visit again c.1 c.2) := by
  simp only [Faultless, Walked.faults, walkNode_of_ignore h, List.flatMap_cons, Note.faults,
    List.nil_append, List.flatMap_assoc, List.flatMap_eq_nil_iff (l := n.placedChildren place)]

theorem not_faultless_of_fail {failure : Failure} (h : visit n place = .fail failure)
    (hfaults : failure.faults ≠ []) : ¬Faultless (walkNode visit again n place) := by
  simpa [Faultless, Walked.faults, walkNode_of_fail h, Note.faults] using hfaults

end Walk

end Laminate
