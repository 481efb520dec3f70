import Laminate.Proofs.Cursor.Position
import Laminate.Proofs.Node.Entries

/-!
# Well-formed trees stay well-formed

What a path leads to in a well-formed tree is well-formed (`WellFormed.resolve`), and the tree is
well-formed with another well-formed node in its place (`WellFormed.replace`). All its items and
values have positions (`At.item_at`, `At.value_at`).
-/

namespace Laminate

namespace Node.WellFormed

theorem step {n child : Node} {component d : String} (hwf : n.WellFormed)
    (h : n.step component = .ok (d, child)) : child.WellFormed := by
  rcases step_cases h with ⟨es, rfl, hget, rfl⟩ | ⟨items, i, rfl, hi, hget, rfl⟩
  · cases hwf with
    | mapping _ values_wf => exact values_wf _ (Entries.mem_of_get? hget)
  · cases hwf with
    | sequence _ items_wf => exact items_wf _ (List.mem_of_getElem? hget)

theorem resolve : ∀ {n m : Node} {path : List String}, n.WellFormed → n.resolve path = .ok m →
    m.WellFormed
  | _, _, [], hwf, h => by
    cases h
    exact hwf
  | _, _, _ :: _, hwf, h => by
    obtain ⟨d, child, hstep, hrest⟩ := resolve_cons_ok.mp h
    exact resolve (hwf.step hstep) hrest

theorem withChild {n child : Node} {component : String} (hwf : n.WellFormed)
    (hchild : child.WellFormed) : (n.withChild component child).WellFormed := by
  cases n with
  | scalar s => exact hwf
  | sequence items =>
    cases hwf with
    | sequence size items_wf =>
      simp only [Node.withChild]
      cases elementIndex? items component with
      | none => exact .sequence size items_wf
      | some i =>
        refine .sequence (by rw [List.length_set]; exact size) fun m hm => ?_
        rcases List.mem_or_eq_of_mem_set hm with hmem | rfl
        · exact items_wf m hmem
        · exact hchild
  | mapping es =>
    cases hwf with
    | mapping nodup values_wf =>
      simp only [Node.withChild]
      split
      · exact .mapping (Entries.nodup_keys_insert nodup _ _)
          (Entries.forall_mem_insert values_wf hchild)
      · exact .mapping nodup values_wf

theorem replace : ∀ {n value n' : Node} {path : List String}, n.WellFormed → value.WellFormed →
    n.replace value path = .ok n' → n'.WellFormed
  | _, _, _, [], _, hvalue, h => by
    cases h
    exact hvalue
  | n, value, n', c :: cs, hwf, hvalue, h => by
    cases hstep : n.step c with
    | error obstacle => simp [Node.replace, hstep] at h
    | ok found =>
      obtain ⟨d, child⟩ := found
      cases hrest : child.replace value cs with
      | error fault => simp [Node.replace, hstep, hrest] at h
      | ok child' =>
        rw [replace_cons hstep hrest] at h
        cases h
        exact hwf.withChild (replace (hwf.step hstep) hvalue hrest)

end Node.WellFormed

/-! ## Positions of children -/

namespace Node.At

variable {tree : Node} {path : List String}

theorem item_at {items : List Node} (h : tree.At path (.sequence items)) (hwf : tree.WellFormed)
    {i : Nat} {item : Node} (hitem : items[i]? = some item) :
    tree.At (path ++ [Numeral.text i]) item :=
  h.append (.item ((hwf.resolve h.resolve).index_lt hitem) hitem (.here item))

theorem value_at {es : Entries Node} (h : tree.At path (.mapping es)) {key : String} {n : Node}
    (hn : Entries.get? es key = some n) : tree.At (path ++ [key]) n :=
  h.append (.key hn (.here n))

end Node.At

end Laminate
