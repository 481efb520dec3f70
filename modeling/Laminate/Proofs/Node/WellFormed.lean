import Laminate.Node.Basic

/-!
# Checking that trees are well-formed

Whether a tree is well-formed can be computed (`isWellFormed_iff`), so it is decidable.
-/

namespace Laminate.Node

mutual

/-- Whether a tree is well-formed. -/
def isWellFormed : Node → Bool
  | .scalar _ => true
  | .sequence items => decide (items.length ≤ Numeral.indexBound) && areWellFormed items
  | .mapping es => decide (Entries.keys es).Nodup && haveWellFormed es
termination_by structural n => n

/-- Whether all items of a list are well-formed. -/
def areWellFormed : List Node → Bool
  | [] => true
  | n :: items => isWellFormed n && areWellFormed items
termination_by structural items => items

/-- Whether all values of entries are well-formed. -/
def haveWellFormed : List (String × Node) → Bool
  | [] => true
  | (_, n) :: es => isWellFormed n && haveWellFormed es
termination_by structural es => es

end

theorem areWellFormed_iff {items : List Node} :
    areWellFormed items = true ↔ ∀ n ∈ items, n.isWellFormed = true := by
  induction items with
  | nil => simp [areWellFormed]
  | cons n items ih => simp [areWellFormed, ih]

theorem haveWellFormed_iff {es : Entries Node} :
    haveWellFormed es = true ↔ ∀ e ∈ es, e.2.isWellFormed = true := by
  induction es with
  | nil => simp [haveWellFormed]
  | cons e es ih => simp only [haveWellFormed, Bool.and_eq_true, ih, List.forall_mem_cons]

theorem isWellFormed_iff {n : Node} : n.isWellFormed = true ↔ n.WellFormed := by
  induction n using Node.induction with
  | scalar s => exact ⟨fun _ => .scalar s, fun _ => rfl⟩
  | sequence items ih =>
    rw [isWellFormed, Bool.and_eq_true, decide_eq_true_iff, areWellFormed_iff]
    constructor
    · rintro ⟨hsize, hitems⟩
      exact .sequence hsize fun n hn => (ih n hn).mp (hitems n hn)
    · rintro ⟨⟩
      next hsize hitems => exact ⟨hsize, fun n hn => (ih n hn).mpr (hitems n hn)⟩
  | mapping es ih =>
    rw [isWellFormed, Bool.and_eq_true, decide_eq_true_iff, haveWellFormed_iff]
    constructor
    · rintro ⟨hnodup, hvalues⟩
      exact .mapping hnodup fun e he => (ih e he).mp (hvalues e he)
    · intro h
      exact ⟨h.nodup, fun e he => (ih e he).mpr (h.values e he)⟩

instance : DecidablePred WellFormed := fun _ => decidable_of_iff _ isWellFormed_iff

end Laminate.Node
