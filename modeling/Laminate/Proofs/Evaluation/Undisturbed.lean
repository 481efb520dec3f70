import Laminate.Proofs.Evaluation.Planning
import Laminate.Proofs.Evaluation.Settled

/-!
# Undisturbed reading

Where no element of a list is a call or has one in a name field, the steps of a path lead the same
way in all fillings of a tree. What a path finds can then be changed only by values at or below its
longest beginning that leads somewhere, and by nothing if there is no such beginning
(`resolve_fill_congr`). That is the place for which a call with this reference waits.
-/

namespace Laminate

namespace Node

/-! ## Firm elements -/

/-- Trees in which no element of a list is a call or has one in a name field. -/
inductive FirmElements : Node → Prop
  | scalar (s : Scalar) : FirmElements (.scalar s)
  | sequence {items : List Node} (firm : ∀ item ∈ items, item.Firm)
      (items_firm : ∀ item ∈ items, FirmElements item) : FirmElements (.sequence items)
  | mapping {es : Entries Node} (values_firm : ∀ e ∈ es, FirmElements e.2) :
      FirmElements (.mapping es)

theorem nameSettled_of_firm {items : List Node} (h : ∀ item ∈ items, item.Firm) (name : String) :
    NameSettled name items := by
  induction items with
  | nil => trivial
  | cons item items ih =>
    obtain ⟨hitem, hitems⟩ := List.forall_mem_cons.mp h
    exact Or.inr ⟨hitem, fun _ => ih hitems⟩

namespace FirmElements

variable {n child : Node} {c d : String}

theorem settles (h : n.FirmElements) (component : String) : n.Settles component := by
  cases h with
  | sequence firm => exact fun _ => nameSettled_of_firm firm component
  | _ => trivial

theorem step (h : n.FirmElements) (hstep : n.step c = .ok (d, child)) : child.FirmElements := by
  rcases step_cases hstep with ⟨es, rfl, hget, -⟩ | ⟨items, i, rfl, -, hget, -⟩
  · cases h with
    | mapping values_firm => exact values_firm _ (Entries.mem_of_get? hget)
  · cases h with
    | sequence _ items_firm => exact items_firm _ (List.mem_of_getElem? hget)

theorem steady : ∀ {n : Node} {path : List String}, n.FirmElements → n.Steady path
  | _, [], _ => trivial
  | _, c :: _, h => fun _ _ hstep => ⟨h.settles c, (h.step hstep).steady⟩

end FirmElements

/-! ## Paths -/

/-- Below a place fillings that agree there are read alike. -/
theorem resolve_fill_of_canonical : ∀ {n : Node} {path c : List String}, n.FirmElements →
    n.canonical path = .ok c → ∀ {f g : Filling}, f.below c = g.below c → ∀ rest,
    (n.fill f).resolve (path ++ rest) = (n.fill g).resolve (path ++ rest)
  | n, [], c, _, hc, f, g, hbelow, rest => by
    cases hc
    rw [show f = g from hbelow]
  | n, component :: path, c, hfirm, hc, f, g, hbelow, rest => by
    obtain ⟨d, child, ds, hstep, hds, rfl⟩ := canonical_cons_ok.mp hc
    have hsettles := hfirm.settles component
    have hbelow' : (f.below [d]).below ds = (g.below [d]).below ds := by
      rw [Filling.below_below, Filling.below_below]
      exact hbelow
    rw [List.cons_append, resolve_cons (step_fill hsettles hstep f),
      resolve_cons (step_fill hsettles hstep g),
      resolve_fill_of_canonical (hfirm.step hstep) hds hbelow']

end Node

namespace Evaluation

/-- **What a path finds in a filling depends on the values at and below its longest beginning that
leads somewhere.** -/
theorem resolve_fill_congr {tree : Node} (hfirm : tree.FirmElements) {path : Cursor}
    (hroot : path ≠ .root) {f g : Filling}
    (hbelow : ∀ dependency, existingBeginning? tree path = some dependency →
      f.below dependency.components = g.below dependency.components)
    (hscalar : tree.isScalar = true → f [] = g []) :
    path.resolve (tree.fill f) = path.resolve (tree.fill g) := by
  cases hbeginning : existingBeginning? tree path with
  | some dependency =>
    obtain ⟨k, -, -, hcanonical, -⟩ := existingBeginning?_eq_some hbeginning
    have h := Node.resolve_fill_of_canonical hfirm hcanonical (hbelow dependency hbeginning)
      (path.components.drop k)
    rwa [List.take_append_drop] at h
  | none =>
    obtain ⟨components⟩ := path
    cases components with
    | nil => exact absurd rfl hroot
    | cons c cs =>
      cases htree : tree.isScalar with
      | true =>
        -- nothing is in the tree but a call
        cases tree with
        | scalar s => rw [Node.fill_scalar, Node.fill_scalar, hscalar htree]
        | _ => cases htree
      | false =>
        cases hstep : tree.step c with
        | ok found =>
          exact absurd (Node.canonical_cons_ok.mpr ⟨found.1, found.2, [], hstep, rfl, rfl⟩)
            (existingBeginning?_eq_none hbeginning 1 Nat.one_pos (Nat.succ_pos _) [found.1])
        | error obstacle =>
          have hsettles := hfirm.settles c
          simp only [Cursor.resolve, Node.resolve,
            Node.step_fill_of_error htree hsettles hstep]

end Evaluation

end Laminate
