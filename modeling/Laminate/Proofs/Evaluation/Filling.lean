import Laminate.Proofs.Walk.CallSites

/-!
# Filling calls

While a phase runs, the tree is the tree that it began with, with values in the places of the calls
that have run. `Node.fill` gives such a tree for a function from the positions of calls to values.
Positions above a call are not touched by it (`At.fill`), and putting a value in the place of a call
is one more value in the function (`replace_fill`).
-/

namespace Laminate

/-- Values by the positions of calls; a call without one stays. -/
abbrev Filling := List String → Option Node

namespace Filling

/-- No values. -/
def empty : Filling := fun _ => none

/-- The values below a position, by what follows it. -/
def below (f : Filling) (path : List String) : Filling := fun rest => f (path ++ rest)

/-- One more value. -/
def set (f : Filling) (path : List String) (value : Node) : Filling :=
  fun other => if other = path then some value else f other

theorem below_below (f : Filling) (p q : List String) : (f.below p).below q = f.below (p ++ q) := by
  funext rest
  simp only [below, List.append_assoc]

theorem set_self (f : Filling) (path : List String) (value : Node) :
    f.set path value path = some value := if_pos rfl

theorem set_of_ne {f : Filling} {path other : List String} {value : Node} (h : other ≠ path) :
    f.set path value other = f other := if_neg h

theorem below_set_cons (f : Filling) (c : String) (path : List String) (value : Node) :
    (f.set (c :: path) value).below [c] = (f.below [c]).set path value := by
  funext rest
  simp [below, set]

theorem below_set_of_ne {f : Filling} {c d : String} {path : List String} {value : Node}
    (h : d ≠ c) : (f.set (c :: path) value).below [d] = f.below [d] := by
  funext rest
  simp [below, set, h]

end Filling

namespace Node

mutual

/-- The tree with values in the places of calls. -/
def fill : Node → Filling → Node
  | .scalar s => fun f =>
    if (scalar s).call?.isSome then (f []).getD (.scalar s) else .scalar s
  | .sequence items => fun f => .sequence (fillItems items 0 f)
  | .mapping es => fun f => .mapping (fillEntries es f)
termination_by structural n => n

/-- The items of a sequence from an index on with values in the places of calls. -/
def fillItems : List Node → Nat → Filling → List Node
  | [] => fun _ _ => []
  | item :: items => fun index f =>
    fill item (f.below [Numeral.text index]) :: fillItems items (index + 1) f
termination_by structural items => items

/-- The entries of a mapping with values in the places of calls. -/
def fillEntries : List (String × Node) → Filling → Entries Node
  | [] => fun _ => []
  | (key, n) :: es => fun f => (key, fill n (f.below [key])) :: fillEntries es f
termination_by structural es => es

end

section Equations

variable (f : Filling)

theorem fill_scalar (s : Scalar) : (scalar s).fill f =
    if (scalar s).call?.isSome then (f []).getD (.scalar s) else .scalar s := rfl

theorem fill_sequence (items : List Node) :
    (sequence items).fill f = .sequence (fillItems items 0 f) := rfl

theorem fill_mapping (es : Entries Node) :
    (mapping es).fill f = .mapping (fillEntries es f) := rfl

theorem fillItems_cons (item : Node) (items : List Node) (index : Nat) :
    fillItems (item :: items) index f
      = item.fill (f.below [Numeral.text index]) :: fillItems items (index + 1) f := rfl

theorem fillEntries_cons (e : String × Node) (es : Entries Node) :
    fillEntries (e :: es) f = (e.1, e.2.fill (f.below [e.1])) :: fillEntries es f := rfl

end Equations

/-! ## Children -/

theorem getElem?_fillItems (items : List Node) (f : Filling) : ∀ index i : Nat,
    (fillItems items index f)[i]?
      = items[i]?.map fun n => n.fill (f.below [Numeral.text (index + i)]) := by
  induction items with
  | nil => exact fun _ _ => rfl
  | cons item items ih =>
    intro index i
    cases i with
    | zero => rfl
    | succ i =>
      rw [fillItems_cons, List.getElem?_cons_succ, List.getElem?_cons_succ, ih,
        show index + 1 + i = index + (i + 1) by omega]

theorem fillItems_found {items : List Node} {i : Nat} {child : Node}
    (found : items[i]? = some child) (f : Filling) :
    (fillItems items 0 f)[i]? = some (child.fill (f.below [Numeral.text i])) := by
  rw [getElem?_fillItems, found, Nat.zero_add]
  rfl

theorem length_fillItems (items : List Node) (f : Filling) : ∀ index : Nat,
    (fillItems items index f).length = items.length := by
  induction items with
  | nil => exact fun _ => rfl
  | cons item items ih => exact fun index => congrArg (· + 1) (ih (index + 1))

theorem get?_fillEntries (es : Entries Node) (f : Filling) (key : String) :
    Entries.get? (fillEntries es f) key
      = (Entries.get? es key).map fun n => n.fill (f.below [key]) := by
  induction es with
  | nil => rfl
  | cons e es ih =>
    obtain ⟨k, n⟩ := e
    rw [fillEntries_cons, Entries.get?_cons, Entries.get?_cons]
    split
    · next heq => rw [heq]; rfl
    · exact ih

theorem keys_fillEntries (es : Entries Node) (f : Filling) :
    Entries.keys (fillEntries es f) = Entries.keys es := by
  induction es with
  | nil => rfl
  | cons e es ih => exact congrArg (e.1 :: ·) ih

theorem fillEntries_congr {es : Entries Node} {f g : Filling}
    (h : ∀ k ∈ Entries.keys es, f.below [k] = g.below [k]) :
    fillEntries es f = fillEntries es g := by
  induction es with
  | nil => rfl
  | cons e es ih =>
    obtain ⟨he, hes⟩ := List.forall_mem_cons.mp h
    rw [fillEntries_cons, fillEntries_cons, he, ih hes]

/-- One more value under a key is filled in by writing the child anew. -/
theorem insert_fillEntries {es : Entries Node} {key : String} {child : Node} {f g : Filling}
    (hnodup : (Entries.keys es).Nodup) (hget : Entries.get? es key = some child)
    (hne : ∀ k, k ≠ key → f.below [k] = g.below [k]) :
    Entries.insert (fillEntries es f) key (child.fill (g.below [key])) = fillEntries es g := by
  induction es with
  | nil => cases hget
  | cons e es ih =>
    obtain ⟨k, n⟩ := e
    obtain ⟨hnot, hnodup'⟩ := List.nodup_cons.mp hnodup
    rw [Entries.get?_cons] at hget
    rw [fillEntries_cons, fillEntries_cons, Entries.insert]
    by_cases heq : k = key
    · subst heq
      rw [if_pos rfl] at hget ⊢
      cases hget
      -- no other entry has the key
      rw [fillEntries_congr fun k' hk' => hne k' fun heq => hnot (heq ▸ hk')]
    · rw [if_neg heq] at hget ⊢
      rw [ih hnodup' hget, hne k heq]

theorem set_fillItems {items : List Node} {i : Nat} {child : Node} {f g : Filling}
    (hget : items[i]? = some child)
    (hne : ∀ j, j ≠ i → f.below [Numeral.text j] = g.below [Numeral.text j]) :
    (fillItems items 0 f).set i (child.fill (g.below [Numeral.text i])) = fillItems items 0 g := by
  refine List.ext_getElem? fun j => ?_
  rw [List.getElem?_set, getElem?_fillItems, getElem?_fillItems, length_fillItems, Nat.zero_add]
  by_cases h : i = j
  · subst h
    rw [if_pos rfl, if_pos (List.getElem?_eq_some_iff.mp hget).1, hget]
    rfl
  · rw [if_neg h, hne j (Ne.symm h)]

/-! ## Trees -/

theorem fill_of_call {n : Node} (h : n.call?.isSome) (f : Filling) : n.fill f = (f []).getD n := by
  cases n with
  | scalar s => rw [fill_scalar, if_pos h]
  | _ => cases h

theorem fill_of_no_call {s : Scalar} (h : (scalar s).call? = none) (f : Filling) :
    (scalar s).fill f = scalar s := by
  rw [fill_scalar, h]
  rfl

theorem fillEntries_empty {es : Entries Node} (h : ∀ e ∈ es, e.2.fill .empty = e.2) :
    fillEntries es .empty = es := by
  induction es with
  | nil => rfl
  | cons e es ih =>
    obtain ⟨he, hes⟩ := List.forall_mem_cons.mp h
    rw [fillEntries_cons, ih hes]
    exact congrArg (fun n => (e.1, n) :: es) he

/-- Without values nothing is changed. -/
theorem fill_empty (n : Node) : n.fill .empty = n := by
  induction n using Node.induction with
  | scalar s =>
    rw [fill_scalar]
    split <;> rfl
  | sequence items ih =>
    rw [fill_sequence]
    refine congrArg sequence (List.ext_getElem? fun i => ?_)
    rw [getElem?_fillItems]
    cases hget : items[i]? with
    | none => rfl
    | some item => exact congrArg some (ih item (List.mem_of_getElem? hget))
  | mapping es ih => exact congrArg mapping (fillEntries_empty ih)

namespace At

/-- What stands at a position is filled where it stands. -/
theorem fill {n m : Node} {path : List String} (h : n.At path m) : ∀ f : Filling,
    (n.fill f).At path (m.fill (f.below path)) := by
  induction h with
  | here => exact fun f => .here _
  | @key es key child m path found _ ih =>
    intro f
    have hrest := ih (f.below [key])
    rw [Filling.below_below] at hrest
    exact .key (by rw [get?_fillEntries, found]; rfl) hrest
  | @item items i child m path bound found _ ih =>
    intro f
    have hrest := ih (f.below [Numeral.text i])
    rw [Filling.below_below] at hrest
    exact .item bound (fillItems_found found f) hrest

end At

/-- **To put a value in the place of a call is to fill in one more value.** -/
theorem replace_fill {n m : Node} {path : List String} (h : n.At path m) (hcall : m.call?.isSome)
    (value : Node) : ∀ f : Filling, n.WellFormed →
    (n.fill f).replace value path = .ok (n.fill (f.set path value)) := by
  induction h with
  | here n =>
    intro f _
    rw [fill_of_call hcall, fill_of_call hcall, Filling.set_self]
    rfl
  | @key es key child m path found rest ih =>
    intro f hwf
    cases hwf with
    | mapping nodup values_wf =>
      have hget : Entries.get? (fillEntries es f) key = some (child.fill (f.below [key])) := by
        rw [get?_fillEntries, found]
        rfl
      have hstep : ((mapping es).fill f).step key = .ok (key, child.fill (f.below [key])) :=
        step_mapping hget
      have hchild := ih hcall (f.below [key]) (values_wf _ (Entries.mem_of_get? found))
      rw [replace_cons hstep hchild, ← Filling.below_set_cons, fill_mapping, fill_mapping,
        withChild_key hget,
        insert_fillEntries nodup found fun k hk => (Filling.below_set_of_ne hk).symm]
  | @item items i child m path bound found rest ih =>
    intro f hwf
    cases hwf with
    | sequence size items_wf =>
      have hget := fillItems_found found f
      have hstep : ((sequence items).fill f).step (Numeral.text i)
          = .ok (Numeral.text i, child.fill (f.below [Numeral.text i])) := step_item bound hget
      have hchild := ih hcall (f.below [Numeral.text i])
        (items_wf _ (List.mem_of_getElem? found))
      rw [replace_cons hstep hchild, ← Filling.below_set_cons, fill_sequence, fill_sequence,
        withChild_item bound hget]
      -- different indices have different numerals, so the other items stay as they are filled
      rw [set_fillItems found fun j hj =>
        (Filling.below_set_of_ne fun heq => hj (Numeral.text_injective heq)).symm]

end Node

end Laminate
