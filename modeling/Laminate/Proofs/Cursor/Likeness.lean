import Laminate.Proofs.Cursor.Position
import Laminate.Proofs.Node.Reordered

/-!
# Trees that are read alike

Every step down a tree finds corresponding children in reordered trees (`Reordered.step`), so a path
has the same canonical form in both, and looking it up and writing to its end give reordered trees
again, or fail for the same reason. `Likeness` says what this makes of a relation between trees, for
statements about equal trees and about reordered ones at once.
-/

namespace Laminate.Node

namespace Reordered

variable {n n' : Node}

/-! ## One step -/

theorem elementIndex?_eq {items items' : List Node} (h : List.Forall₂ Reordered items items')
    (component : String) : elementIndex? items component = elementIndex? items' component := by
  rw [elementIndex?, elementIndex?, h.length_eq,
    findIdx?_of_forall₂ h fun _ _ hn => hn.isNamed_eq component]

theorem elementObstacle_eq {items items' : List Node} (h : List.Forall₂ Reordered items items')
    (component : String) : elementObstacle items component = elementObstacle items' component := by
  rw [elementObstacle, elementObstacle, h.length_eq]

theorem step (h : n.Reordered n') (component : String) :
    ResultsAgree Eq (fun x y => x.1 = y.1 ∧ x.2.Reordered y.2) (n.step component)
      (n'.step component) := by
  cases h with
  | scalar s => exact .error rfl
  | mapping nodup keys_perm values =>
    next es es' =>
    have hrel := (mapping nodup keys_perm values).get?_entries component
    simp only [Node.step]
    generalize Entries.get? es component = x at hrel ⊢
    generalize Entries.get? es' component = y at hrel ⊢
    cases hrel with
    | none => exact .error rfl
    | some hchild => exact .ok ⟨rfl, hchild⟩
  | sequence pairs =>
    next items items' =>
    simp only [Node.step, elementIndex?_eq pairs, elementObstacle_eq pairs]
    cases elementIndex? items' component with
    | none => exact .error rfl
    | some i =>
      have hrel := getElem?_of_forall₂ pairs i
      dsimp only
      generalize items[i]? = x at hrel ⊢
      generalize items'[i]? = y at hrel ⊢
      cases hrel with
      | none => exact .error rfl
      | some hchild => exact .ok ⟨rfl, hchild⟩

theorem withChild (h : n.Reordered n') {child child' : Node} (hchild : child.Reordered child')
    (component : String) :
    (n.withChild component child).Reordered (n'.withChild component child') := by
  cases h with
  | scalar s => exact .scalar s
  | mapping nodup keys_perm values =>
    next es es' =>
    have h := Reordered.mapping nodup keys_perm values
    have hcontains : Entries.contains es component = Entries.contains es' component := by
      rw [Bool.eq_iff_iff, Entries.contains_iff, Entries.contains_iff, keys_perm.mem_iff]
    simp only [Node.withChild, hcontains]
    split
    · refine .of_get?_entries (Entries.nodup_keys_insert nodup _ _)
        (Entries.nodup_keys_insert h.nodup' _ _) fun key => ?_
      rw [Entries.get?_insert, Entries.get?_insert]
      split
      · exact .some hchild
      · exact h.get?_entries key
    · exact h
  | sequence pairs =>
    simp only [Node.withChild, elementIndex?_eq pairs]
    split
    · exact .sequence (set_of_forall₂ pairs hchild _)
    · exact .sequence pairs

/-! ## Paths -/

theorem canonical_eq (path : List String) : ∀ {n n' : Node}, n.Reordered n' →
    n.canonical path = n'.canonical path := by
  induction path with
  | nil => exact fun _ => rfl
  | cons component path ih =>
    intro n n' h
    have hstep := h.step component
    simp only [canonical]
    generalize n.step component = x at hstep ⊢
    generalize n'.step component = y at hstep ⊢
    cases hstep with
    | error heq => rw [heq]
    | ok hfound =>
      next found found' =>
      obtain ⟨d, child⟩ := found
      obtain ⟨d', child'⟩ := found'
      obtain ⟨rfl, hchild⟩ := hfound
      simp only [ih hchild]

theorem resolve (path : List String) : ∀ {n n' : Node}, n.Reordered n' →
    ResultsAgree Eq Reordered (n.resolve path) (n'.resolve path) := by
  induction path with
  | nil => exact fun h => .ok h
  | cons component path ih =>
    intro n n' h
    have hstep := h.step component
    simp only [Node.resolve]
    generalize n.step component = x at hstep ⊢
    generalize n'.step component = y at hstep ⊢
    cases hstep with
    | error heq => exact .error (by rw [heq])
    | ok hfound => exact (ih hfound.2).mapError fun _ _ heq => by rw [heq]

theorem replace {value value' : Node} (hvalue : value.Reordered value') (path : List String) :
    ∀ {n n' : Node}, n.Reordered n' →
    ResultsAgree Eq Reordered (n.replace value path) (n'.replace value' path) := by
  induction path with
  | nil => exact fun _ => .ok hvalue
  | cons component path ih =>
    intro n n' h
    have hstep := h.step component
    simp only [Node.replace]
    generalize n.step component = x at hstep ⊢
    generalize n'.step component = y at hstep ⊢
    cases hstep with
    | error heq => exact .error (by rw [heq])
    | ok hfound =>
      next found found' =>
      have hrest := ih hfound.2
      dsimp only
      generalize found.2.replace value path = r at hrest ⊢
      generalize found'.2.replace value' path = r' at hrest ⊢
      cases hrest with
      | error heq => exact .error (by rw [heq])
      | ok hchild => exact .ok (h.withChild hchild component)

end Reordered

/-- At a position of one of two reordered trees stands what stands there in the other, reordered. -/
theorem At.reordered {n m : Node} {path : List String} (h : n.At path m) : ∀ {n' : Node},
    n.Reordered n' → ∃ m', n'.At path m' ∧ m.Reordered m' := by
  induction h with
  | here n => exact fun hn => ⟨_, .here _, hn⟩
  | @key es key child m path found _ ih =>
    intro n' hn
    cases n' with
    | mapping es' =>
      have hrel := hn.get?_entries key
      rw [found] at hrel
      generalize found' : Entries.get? es' key = y at hrel
      cases hrel with
      | some hchild =>
        obtain ⟨m', hat, hm⟩ := ih hchild
        exact ⟨m', .key found' hat, hm⟩
    | _ => cases hn
  | @item items i child m path bound found _ ih =>
    intro n' hn
    cases n' with
    | sequence items' =>
      have hrel := getElem?_of_forall₂ hn.pairs i
      rw [found] at hrel
      generalize found' : items'[i]? = y at hrel
      cases hrel with
      | some hchild =>
        obtain ⟨m', hat, hm⟩ := ih hchild
        exact ⟨m', .item bound found' hat, hm⟩
    | _ => cases hn

/-! ## Relations -/

/-- A relation between trees that are read alike, which writing alike keeps. -/
structure Likeness (R : Node → Node → Prop) : Prop where
  scalar : ∀ s, R (.scalar s) (.scalar s)
  sequence : ∀ {items items' : List Node}, List.Forall₂ R items items' →
    R (.sequence items) (.sequence items')
  kind_eq : ∀ {n n' : Node}, R n n' → n.kind = n'.kind
  text?_eq : ∀ {n n' : Node}, R n n' → n.text? = n'.text?
  items? : ∀ {n n' : Node}, R n n' → Option.Rel (List.Forall₂ R) n.items? n'.items?
  resolve : ∀ {n n' : Node}, R n n' → ∀ path,
    ResultsAgree Eq R (n.resolve path) (n'.resolve path)
  replace : ∀ {n n' value value' : Node}, R n n' → R value value' → ∀ path,
    ResultsAgree Eq R (n.replace value path) (n'.replace value' path)

namespace Likeness

theorem eq : Likeness Eq where
  scalar _ := rfl
  sequence h := congrArg Node.sequence (List.forall₂_eq_eq_eq ▸ h)
  kind_eq h := congrArg kind h
  text?_eq h := congrArg text? h
  items? := by
    rintro n _ rfl
    cases n with
    | sequence items => exact .some (List.forall₂_same.mpr fun _ _ => rfl)
    | _ => exact .none
  resolve h path := .of_eq (congrArg (Node.resolve · path) h)
  replace := by
    rintro n _ value _ rfl rfl path
    exact .of_eq rfl

theorem reordered : Likeness Reordered where
  scalar := .scalar
  sequence := .sequence
  kind_eq h := h.kind_eq
  text?_eq h := h.text?_eq
  items? := by
    rintro n n' h
    cases h with
    | sequence pairs => exact .some pairs
    | _ => exact .none
  resolve h path := h.resolve path
  replace h hvalue path := Reordered.replace hvalue path h

end Likeness

end Laminate.Node
