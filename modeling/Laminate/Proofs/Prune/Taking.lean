import Laminate.Proofs.Prune.Without

/-!
# What one removal takes

A removal names a position of the whole tree, and is carried out on a tree that lacks some nodes
already. If nothing that stands in the way of the position is gone (`InWay`), the removal takes the
node that stood there. If that node itself is gone, its list has closed up: what the removal takes
then is a later element of the list, as long as one is left (`removesOneMore_of_open`).
-/

namespace Laminate

open Node

namespace Prune

theorem toOption_mapError {ε δ α : Type} (x : Except ε α) (f : ε → δ) :
    (x.mapError f).toOption = x.toOption := by
  cases x <;> rfl

/-! ## Positions that matter to another one -/

/-- A position stands in the way of another one: it contains it, or it is an element before it, or
before what contains it, in a list. Without it the other one has no node, or another index. -/
inductive InWay : List String → List String → Prop
  | container (front : List String) (c : String) {rest : List String} (h : rest ≠ []) :
      InWay (front ++ [c]) (front ++ c :: rest)
  | element (front : List String) {i j : Nat} (rest : List String) (hj : j < i)
      (hi : i < Numeral.indexBound) :
      InWay (front ++ [Numeral.text j]) (front ++ Numeral.text i :: rest)

theorem InWay.cons {other path : List String} (h : InWay other path) (c : String) :
    InWay (c :: other) (c :: path) := by
  cases h with
  | container front d h => exact .container (c :: front) d h
  | element front rest hj hi => exact .element (c :: front) rest hj hi

/-- No chosen position stands in the way of the position. -/
def Open (gone : Positions) (path : List String) : Prop :=
  ∀ other, InWay other path → gone other = false

/-- The second position is that of a later element of the list that the first one is in. -/
def LaterElement (n : Node) (path other : List String) : Prop :=
  ∃ front items i j, n.At front (.sequence items) ∧ path = front ++ [Numeral.text i] ∧
    other = front ++ [Numeral.text j] ∧ i < j ∧ j < items.length

section Positions

variable {n child : Node} {gone : Positions} {c : String} {path rest other : List String}

namespace Open

theorem below (h : Open gone (c :: rest)) : Open (gone.below c) rest :=
  fun _ hother => h _ (hother.cons c)

/-- What contains the position is not chosen. -/
theorem here (h : Open gone (c :: rest)) (hrest : rest ≠ []) : gone [c] = false :=
  h [c] (.container [] c hrest)

/-- Nor are the elements before it in its list. -/
theorem before {i j : Nat} (h : Open gone (Numeral.text i :: rest))
    (bound : i < Numeral.indexBound) (hj : j < i) : gone [Numeral.text j] = false :=
  h [Numeral.text j] (.element [] rest hj bound)

end Open

namespace LaterElement

theorem ne_nil (h : LaterElement n path other) : other ≠ [] := by
  obtain ⟨front, _, _, j, -, -, rfl, -⟩ := h
  exact List.append_ne_nil_of_right_ne_nil front (List.cons_ne_nil _ _)

theorem ne (h : LaterElement n path other) : path ≠ other := by
  obtain ⟨front, _, i, j, -, rfl, rfl, hij, -⟩ := h
  intro heq
  have := Numeral.text_injective (List.cons.inj (List.append_cancel_left heq)).1
  omega

theorem below_iff (hchild : n.At [c] child) (hrest : rest ≠ []) :
    LaterElement n (c :: rest) other ↔ ∃ u, other = c :: u ∧ LaterElement child rest u := by
  constructor
  · rintro ⟨front, items, i, j, hat, hpath, rfl, hij, hj⟩
    cases front with
    | nil => exact absurd (List.cons.inj hpath).2 hrest
    | cons d front =>
      obtain ⟨rfl, rfl⟩ := List.cons.inj hpath
      obtain ⟨child', hchild', hat⟩ := at_cons_iff.mp hat
      rw [hchild'.unique hchild] at hat
      exact ⟨_, rfl, front, items, i, j, hat, rfl, rfl, hij, hj⟩
  · rintro ⟨_, rfl, front, items, i, j, hat, rfl, rfl, hij, hj⟩
    exact ⟨c :: front, items, i, j, at_cons_iff.mpr ⟨child, hchild, hat⟩, rfl, rfl, hij, hj⟩

/-- An entry of a mapping is no element of a list. -/
theorem not_mapping {es : Entries Node} {key : String} :
    ¬ LaterElement (.mapping es) [key] other := by
  rintro ⟨front, items, i, j, hat, hpath, -⟩
  cases front with
  | nil => cases hat
  | cons d front => simp at hpath

theorem iff_of_at {front : List String} {items : List Node} {i : Nat}
    (hat : n.At front (.sequence items)) :
    LaterElement n (front ++ [Numeral.text i]) other ↔
      ∃ j, other = front ++ [Numeral.text j] ∧ i < j ∧ j < items.length := by
  constructor
  · rintro ⟨front', items', i', j, hat', hpath, rfl, hij, hj⟩
    obtain ⟨rfl, hlast⟩ := List.append_inj' hpath rfl
    cases hat.unique hat'
    rw [Numeral.text_injective (List.cons.inj hlast).1]
    exact ⟨j, rfl, hij, hj⟩
  · rintro ⟨j, rfl, hij, hj⟩
    exact ⟨front, items, i, j, hat, rfl, rfl, hij, hj⟩

end LaterElement

/-- What a removal takes from a tree that lacks the chosen positions: the node that is named, or a
later element of its list if that is gone, or nothing if there is none left. -/
inductive Takes (n : Node) (gone : Positions) (path : List String) : Option (List String) → Prop
  | named (h : gone path = false) : Takes n gone path (some path)
  | later {other : List String} (h : gone path = true) (hlater : LaterElement n path other)
      (hleft : gone other = false) : Takes n gone path (some other)
  | nothing (h : gone path = true)
      (hnone : ∀ other, LaterElement n path other → gone other = true) : Takes n gone path none

namespace Takes

theorem below {taken : Option (List String)} (h : Takes child (gone.below c) rest taken)
    (hchild : n.At [c] child) (hrest : rest ≠ []) :
    Takes n gone (c :: rest) (taken.map (c :: ·)) := by
  cases h with
  | named h => exact .named h
  | later h hlater hleft =>
    exact .later h ((LaterElement.below_iff hchild hrest).mpr ⟨_, rfl, hlater⟩) hleft
  | nothing h hnone =>
    refine .nothing h fun other hother => ?_
    obtain ⟨u, rfl, hu⟩ := (LaterElement.below_iff hchild hrest).mp hother
    exact hnone u hu

theorem ne_nil {taken : List String} (h : Takes n gone path (some taken)) (hpath : path ≠ []) :
    taken ≠ [] := by
  cases h with
  | named h => exact hpath
  | later h hlater hleft => exact hlater.ne_nil

end Takes

end Positions

/-! ## One removal -/

section Removal

variable {tree child : Node} {c d : String} {rest : List String} {gone : Positions}

theorem remove?_singleton (tree : Node) (c : String) :
    remove? tree ⟨[c]⟩ = withoutChild? tree c := by
  show (withoutChild? tree c).bind some = _
  exact Option.bind_fun_some _

/-- To remove a node below a child is to write the child without it. -/
theorem remove?_cons (hstep : tree.step c = .ok (d, child)) (hrest : rest ≠ []) :
    remove? tree ⟨c :: rest⟩ = (remove? child ⟨rest⟩).map (tree.withChild c) := by
  cases rest with
  | nil => exact absurd rfl hrest
  | cons e rest =>
    have hreplace : ∀ value : Node, ∀ path : List String,
        (tree.replace value (c :: path)).toOption
          = (child.replace value path).toOption.map (tree.withChild c) := by
      intro value path
      simp only [Node.replace, hstep]
      cases child.replace value path <;> rfl
    simp only [remove?, Cursor.last?, Cursor.parent, Cursor.resolve, Cursor.replace,
      List.getLast?_cons_cons, List.dropLast_cons_cons, resolve_cons hstep, toOption_mapError,
      hreplace, Option.bind_eq_bind, Option.map_bind, Function.comp_def]

/-- A removal from a tree that lacks the chosen positions leaves out one more position of the whole
tree, or fails. -/
def RemovesOneMore (n : Node) (gone : Positions) (path : List String) : Prop :=
  ∃ taken, Takes n gone path taken ∧
    remove? (n.without gone) ⟨path⟩ = taken.map fun other => n.without (gone.insert other)

theorem removesOneMore_entry {es : Entries Node} {key : String}
    (found : Entries.get? es key = some child) : RemovesOneMore (.mapping es) gone [key] := by
  cases hgone : gone [key] with
  | true =>
    refine ⟨none, .nothing hgone fun _ h => absurd h LaterElement.not_mapping, ?_⟩
    rw [remove?_singleton, without_mapping, withoutChild?, contains_entriesWithout hgone]
    rfl
  | false =>
    refine ⟨some [key], .named hgone, ?_⟩
    have hcontains : Entries.contains (entriesWithout es gone) key = true := by
      rw [Entries.contains, get?_entriesWithout hgone, found]
      rfl
    rw [remove?_singleton, without_mapping, withoutChild?, hcontains, if_pos rfl,
      erase_entriesWithout]
    rfl

/-- All elements before an element whose way is open are still there. -/
theorem length_before_of_open {before : List Node} (bound : before.length < Numeral.indexBound)
    (hopen : Open gone (Numeral.text before.length :: rest)) :
    (itemsWithout before 0 gone).length = before.length :=
  length_itemsWithout fun j _ hlt => hopen.before bound (by omega)

/-- To remove an element whose way is open is to drop the first of what is left from its index
on. -/
theorem remove?_element {before after : List Node} (bound : before.length < Numeral.indexBound)
    (hopen : Open gone [Numeral.text before.length]) :
    remove? ((sequence (before ++ after)).without gone) ⟨[Numeral.text before.length]⟩
      = if 0 < (itemsWithout after before.length gone).length then
          some (.sequence (itemsWithout before 0 gone
            ++ (itemsWithout after before.length gone).tail))
        else none := by
  have hlength := length_before_of_open bound hopen
  rw [remove?_singleton, without_sequence, itemsWithout_append, Nat.zero_add]
  simp only [withoutChild?, Numeral.index?_text bound, List.length_append, hlength,
    Nat.lt_add_right_iff_pos]
  rw [List.eraseIdx_append_of_length_le (Nat.le_of_eq hlength), hlength, Nat.sub_self,
    List.eraseIdx_zero]

theorem removesOneMore_element {items : List Node} {i : Nat} (bound : i < Numeral.indexBound)
    (hi : i < items.length) (hopen : Open gone [Numeral.text i]) :
    RemovesOneMore (.sequence items) gone [Numeral.text i] := by
  obtain ⟨before, after, rfl, rfl⟩ : ∃ before after, items = before ++ after ∧
      before.length = i :=
    ⟨items.take i, items.drop i, (List.take_append_drop i items).symm,
      List.length_take_of_le (Nat.le_of_lt hi)⟩
  rw [List.length_append] at hi
  rcases itemsWithout_first after gone before.length with
    ⟨hnil, hall⟩ | ⟨j, first, hle, hlt, hleft, hbetween, hfirst⟩
  · refine ⟨none, .nothing (hall _ (Nat.le_refl _) (by omega)) fun other hother => ?_, ?_⟩
    · obtain ⟨j, rfl, hij, hj⟩ := (LaterElement.iff_of_at (.here _)).mp hother
      rw [List.length_append] at hj
      exact hall j (Nat.le_of_lt hij) hj
    · rw [remove?_element bound hopen, hnil]
      rfl
  · refine ⟨some [Numeral.text j], ?_, ?_⟩
    · rcases Nat.eq_or_lt_of_le hle with rfl | hij
      · exact .named hleft
      · refine .later (hbetween _ (Nat.le_refl _) hij) ?_ hleft
        exact (LaterElement.iff_of_at (.here _)).mpr
          ⟨j, rfl, hij, by rw [List.length_append]; omega⟩
    · have hbefore : itemsWithout before 0 (gone.insert [Numeral.text j])
          = itemsWithout before 0 gone :=
        itemsWithout_insert (Or.inr (by omega))
      rw [remove?_element bound hopen, hfirst,
        if_pos (List.length_pos_iff.mpr (List.cons_ne_nil _ _)), Option.map_some, without_sequence,
        itemsWithout_append, Nat.zero_add, hbefore]
      rfl

/-- One step down: what a removal takes from the child is what it takes from the tree. -/
theorem RemovesOneMore.below (h : RemovesOneMore child (gone.below c) rest)
    (hchild : tree.At [c] child) (hrest : rest ≠ [])
    (hstep : (tree.without gone).step c = .ok (c, child.without (gone.below c)))
    (hwith : ∀ u, u ≠ [] →
      (tree.without gone).withChild c (child.without ((gone.below c).insert u))
        = tree.without (gone.insert (c :: u))) :
    RemovesOneMore tree gone (c :: rest) := by
  obtain ⟨taken, htakes, hremove⟩ := h
  refine ⟨taken.map (c :: ·), htakes.below hchild hrest, ?_⟩
  rw [remove?_cons hstep hrest, hremove]
  cases taken with
  | none => rfl
  | some u => exact congrArg some (hwith u (htakes.ne_nil hrest))

theorem removesOneMore_below_entry {es : Entries Node} {key : String}
    (hnodup : (Entries.keys es).Nodup) (found : Entries.get? es key = some child)
    (hhere : gone [key] = false) (hrest : rest ≠ [])
    (h : RemovesOneMore child (gone.below key) rest) :
    RemovesOneMore (.mapping es) gone (key :: rest) := by
  have hget : Entries.get? (entriesWithout es gone) key
      = some (child.without (gone.below key)) := by
    rw [get?_entriesWithout hhere, found]
    rfl
  refine h.below (.key found (.here child)) hrest (step_mapping hget) fun u hu => ?_
  rw [without_mapping, withChild_key hget, insert_entriesWithout hnodup found hhere hu,
    without_mapping]

theorem removesOneMore_below_element {items : List Node} {i : Nat}
    (bound : i < Numeral.indexBound) (found : items[i]? = some child)
    (hopen : Open gone (Numeral.text i :: rest)) (hrest : rest ≠ [])
    (h : RemovesOneMore child (gone.below (Numeral.text i)) rest) :
    RemovesOneMore (.sequence items) gone (Numeral.text i :: rest) := by
  obtain ⟨before, after, rfl, rfl⟩ : ∃ before after, items = before ++ child :: after ∧
      before.length = i := by
    obtain ⟨hlt, hget⟩ := List.getElem?_eq_some_iff.mp found
    refine ⟨items.take i, items.drop (i + 1), ?_, List.length_take_of_le (Nat.le_of_lt hlt)⟩
    rw [← hget, ← List.drop_eq_getElem_cons hlt, List.take_append_drop]
  have hhere := hopen.here hrest
  -- so it still has its index
  have hlength := length_before_of_open bound hopen
  have hget : (itemsWithout (before ++ child :: after) 0 gone)[before.length]?
      = some (child.without (gone.below (Numeral.text before.length))) := by
    rw [itemsWithout_split hhere, List.getElem?_append_right (Nat.le_of_eq hlength), hlength,
      Nat.sub_self]
    rfl
  refine h.below (.item bound found (.here child)) hrest (step_item bound hget) fun u hu => ?_
  rw [without_sequence, withChild_item bound hget, without_sequence,
    itemsWithout_insert_below hhere hu, itemsWithout_split hhere,
    List.set_append_right _ _ (Nat.le_of_eq hlength), hlength, Nat.sub_self]
  rfl

/-- **A removal whose way is open takes the node that it names, or a later element of its list if
that is gone, or nothing.** -/
theorem removesOneMore_of_open {n m : Node} {path : List String} (h : n.At path m) :
    ∀ {gone : Positions}, path ≠ [] → n.WellFormed → Open gone path →
    RemovesOneMore n gone path := by
  induction h with
  | here => exact fun hne => absurd rfl hne
  | @key es key child m rest found _ ih =>
    intro gone _ hwf hopen
    by_cases hrest : rest = []
    · subst hrest
      exact removesOneMore_entry found
    · exact removesOneMore_below_entry hwf.nodup found (hopen.here hrest) hrest
        (ih hrest (hwf.values _ (Entries.mem_of_get? found)) hopen.below)
  | @item items i child m rest bound found _ ih =>
    intro gone _ hwf hopen
    by_cases hrest : rest = []
    · subst hrest
      exact removesOneMore_element bound (List.getElem?_eq_some_iff.mp found).1 hopen
    · exact removesOneMore_below_element bound found hopen hrest
        (ih hrest (hwf.items _ (List.mem_of_getElem? found)) hopen.below)

end Removal

end Prune

end Laminate
