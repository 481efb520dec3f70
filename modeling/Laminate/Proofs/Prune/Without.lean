import Laminate.Prune
import Laminate.Proofs.Cursor.Position
import Laminate.Proofs.Node.Entries

/-!
# Trees without some of their nodes

`Node.without` leaves out the nodes at given positions, all at once and at any depth: the positions
are those of the whole tree (`itemsWithout_eq`, `entriesWithout_eq`). What is left does not depend
on an order in which nodes would be removed, and to choose one more position changes the containers
on the way to it only (`insert_entriesWithout`, `itemsWithout_congr`).
-/

namespace Laminate

/-- A choice of positions. -/
abbrev Positions := List String → Bool

namespace Positions

/-- The chosen positions below a component, by what follows it. -/
def below (gone : Positions) (component : String) : Positions :=
  fun path => gone (component :: path)

/-- One more position. -/
def insert (gone : Positions) (path : List String) : Positions :=
  fun other => gone other || other == path

theorem insert_self (gone : Positions) (path : List String) : gone.insert path path = true := by
  simp [insert]

theorem insert_of_ne {gone : Positions} {path other : List String} (h : other ≠ path) :
    gone.insert path other = gone other := by
  simp [insert, h]

theorem below_insert (gone : Positions) (c : String) (path : List String) :
    (gone.insert (c :: path)).below c = (gone.below c).insert path := by
  funext rest
  simp [below, insert]

theorem below_insert_of_ne {gone : Positions} {c d : String} {path : List String} (h : d ≠ c) :
    (gone.insert (c :: path)).below d = gone.below d := by
  funext rest
  simp [below, insert, h]

end Positions

namespace Node

mutual

/-- The tree without the nodes at the chosen positions. -/
def without : Node → Positions → Node
  | .scalar s => fun _ => .scalar s
  | .sequence items => fun gone => .sequence (itemsWithout items 0 gone)
  | .mapping es => fun gone => .mapping (entriesWithout es gone)
termination_by structural n => n

/-- The items of a sequence from an index on without the nodes at the chosen positions. -/
def itemsWithout : List Node → Nat → Positions → List Node
  | [] => fun _ _ => []
  | item :: items => fun index gone =>
    if gone [Numeral.text index] then itemsWithout items (index + 1) gone
    else without item (gone.below (Numeral.text index)) :: itemsWithout items (index + 1) gone
termination_by structural items => items

/-- The entries of a mapping without the nodes at the chosen positions. -/
def entriesWithout : List (String × Node) → Positions → Entries Node
  | [] => fun _ => []
  | (key, n) :: es => fun gone =>
    if gone [key] then entriesWithout es gone
    else (key, without n (gone.below key)) :: entriesWithout es gone
termination_by structural es => es

end

theorem without_sequence (items : List Node) (gone : Positions) :
    (sequence items).without gone = .sequence (itemsWithout items 0 gone) := rfl

theorem without_mapping (es : Entries Node) (gone : Positions) :
    (mapping es).without gone = .mapping (entriesWithout es gone) := rfl

theorem itemsWithout_cons (item : Node) (items : List Node) (index : Nat) (gone : Positions) :
    itemsWithout (item :: items) index gone =
      if gone [Numeral.text index] then itemsWithout items (index + 1) gone
      else item.without (gone.below (Numeral.text index)) :: itemsWithout items (index + 1) gone :=
  rfl

theorem entriesWithout_cons (e : String × Node) (es : Entries Node) (gone : Positions) :
    entriesWithout (e :: es) gone =
      if gone [e.1] then entriesWithout es gone
      else (e.1, e.2.without (gone.below e.1)) :: entriesWithout es gone := rfl

/-- What is left of a sequence are its items whose positions are not chosen, in order, each without
the chosen positions below it. -/
theorem itemsWithout_eq (items : List Node) (gone : Positions) : ∀ index : Nat,
    itemsWithout items index gone =
      ((items.zipIdx index).filter fun p => !gone [Numeral.text p.2]).map fun p =>
        p.1.without (gone.below (Numeral.text p.2)) := by
  induction items with
  | nil => exact fun _ => rfl
  | cons item items ih =>
    intro index
    rw [itemsWithout_cons, ih, List.zipIdx_cons, List.filter_cons]
    cases gone [Numeral.text index] <;> rfl

/-- What is left of a mapping are its entries whose positions are not chosen, in order, each without
the chosen positions below it. -/
theorem entriesWithout_eq (es : Entries Node) (gone : Positions) :
    entriesWithout es gone =
      (es.filter fun e => !gone [e.1]).map fun e => (e.1, e.2.without (gone.below e.1)) := by
  induction es with
  | nil => rfl
  | cons e es ih =>
    rw [entriesWithout_cons, ih, List.filter_cons]
    cases gone [e.1] <;> rfl

/-! ## Nothing chosen -/

/-- Without any chosen position nothing is left out. -/
theorem without_none (n : Node) : (n.without fun _ => false) = n := by
  induction n using Node.induction with
  | scalar s => rfl
  | sequence items ih =>
    refine congrArg sequence ?_
    rw [itemsWithout_eq, Bool.not_false, List.filter_eq_self.mpr fun _ _ => rfl]
    have hitems : items.zipIdx.map (fun p => p.1.without fun _ => false)
        = items.zipIdx.map Prod.fst :=
      List.map_congr_left fun p hp => ih p.1 (List.fst_mem_of_mem_zipIdx hp)
    exact hitems.trans (List.zipIdx_map_fst 0 items)
  | mapping es ih =>
    refine congrArg mapping ?_
    rw [entriesWithout_eq, Bool.not_false, List.filter_eq_self.mpr fun _ _ => rfl]
    have hentries : es.map (fun e => (e.1, e.2.without fun _ => false)) = es.map id :=
      List.map_congr_left fun e he => congrArg (Prod.mk e.1) (ih e he)
    exact hentries.trans (List.map_id es)

/-! ## Entries -/

section Entries

variable {es : Entries Node} {gone gone' : Positions} {key : String}

theorem entriesWithout_congr
    (h : ∀ k ∈ Entries.keys es, gone [k] = gone' [k] ∧ gone.below k = gone'.below k) :
    entriesWithout es gone = entriesWithout es gone' := by
  induction es with
  | nil => rfl
  | cons e es ih =>
    obtain ⟨⟨hhere, hbelow⟩, hes⟩ := List.forall_mem_cons.mp h
    rw [entriesWithout_cons, entriesWithout_cons, hhere, hbelow, ih hes]

theorem get?_entriesWithout (h : gone [key] = false) :
    Entries.get? (entriesWithout es gone) key
      = (Entries.get? es key).map fun n => n.without (gone.below key) := by
  induction es with
  | nil => rfl
  | cons e es ih =>
    obtain ⟨k, n⟩ := e
    rw [entriesWithout_cons, Entries.get?_cons]
    by_cases heq : k = key
    · subst heq
      simp [h, Entries.get?_cons]
    · cases gone [k] <;> simp [heq, Entries.get?_cons, ih]

theorem contains_entriesWithout (h : gone [key] = true) :
    Entries.contains (entriesWithout es gone) key = false := by
  rw [Entries.contains, Option.isSome_eq_false_iff, Option.isNone_iff_eq_none]
  induction es with
  | nil => rfl
  | cons e es ih =>
    obtain ⟨k, n⟩ := e
    rw [entriesWithout_cons]
    by_cases heq : k = key
    · subst heq
      rw [h]
      exact ih
    · cases gone [k] <;> simp [heq, Entries.get?_cons, ih]

/-- To leave out one more entry is to erase its key. -/
theorem erase_entriesWithout (es : Entries Node) (gone : Positions) (key : String) :
    Entries.erase (entriesWithout es gone) key = entriesWithout es (gone.insert [key]) := by
  induction es with
  | nil => rfl
  | cons e es ih =>
    obtain ⟨k, n⟩ := e
    rw [entriesWithout_cons, entriesWithout_cons]
    by_cases heq : k = key
    · subst heq
      rw [Positions.insert_self, if_pos rfl, ← ih]
      cases gone [k] <;> simp [Entries.erase_cons]
    · have hne : [k] ≠ [key] := fun h => heq (List.cons.inj h).1
      rw [Positions.insert_of_ne hne, Positions.below_insert_of_ne heq, ← ih]
      cases gone [k] <;> simp [Entries.erase_cons, heq]

/-- To leave out one more position below an entry is to write that entry anew. -/
theorem insert_entriesWithout {child : Node} {rest : List String}
    (hnodup : (Entries.keys es).Nodup) (hget : Entries.get? es key = some child)
    (hkey : gone [key] = false) (hrest : rest ≠ []) :
    Entries.insert (entriesWithout es gone) key (child.without ((gone.below key).insert rest))
      = entriesWithout es (gone.insert (key :: rest)) := by
  have hhere : ∀ k, (gone.insert (key :: rest)) [k] = gone [k] := fun k =>
    Positions.insert_of_ne fun h => hrest (List.cons.inj h).2.symm
  induction es with
  | nil => cases hget
  | cons e es ih =>
    obtain ⟨k, n⟩ := e
    obtain ⟨hnot, hnodup'⟩ := List.nodup_cons.mp hnodup
    rw [Entries.get?_cons] at hget
    rw [entriesWithout_cons, entriesWithout_cons, hhere]
    by_cases heq : k = key
    · subst heq
      rw [if_pos rfl] at hget
      cases hget
      rw [hkey, Positions.below_insert]
      -- no other entry has the key
      have hothers : entriesWithout es gone = entriesWithout es (gone.insert (k :: rest)) :=
        entriesWithout_congr fun k' hk' => ⟨(hhere k').symm,
          (Positions.below_insert_of_ne (ne_of_mem_of_not_mem hk' hnot)).symm⟩
      simp [Entries.insert, hothers]
    · rw [if_neg heq] at hget
      rw [Positions.below_insert_of_ne heq, ← ih hnodup' hget]
      cases gone [k] <;> simp [Entries.insert, heq]

end Entries

/-! ## Items -/

section Items

variable {items : List Node} {gone gone' : Positions}

theorem itemsWithout_append (as bs : List Node) (gone : Positions) : ∀ index : Nat,
    itemsWithout (as ++ bs) index gone
      = itemsWithout as index gone ++ itemsWithout bs (index + as.length) gone := by
  intro index
  rw [itemsWithout_eq, itemsWithout_eq, itemsWithout_eq, List.zipIdx_append, List.filter_append,
    List.map_append]

theorem length_itemsWithout {index : Nat}
    (h : ∀ j, index ≤ j → j < index + items.length → gone [Numeral.text j] = false) :
    (itemsWithout items index gone).length = items.length := by
  rw [itemsWithout_eq, List.length_map, List.filter_eq_self.mpr, List.length_zipIdx]
  rintro ⟨item, j⟩ hmem
  obtain ⟨hle, hlt, -⟩ := List.mem_zipIdx hmem
  rw [h j hle hlt]
  rfl

theorem itemsWithout_congr {index : Nat}
    (h : ∀ j, index ≤ j → j < index + items.length →
      gone [Numeral.text j] = gone' [Numeral.text j] ∧
      gone.below (Numeral.text j) = gone'.below (Numeral.text j)) :
    itemsWithout items index gone = itemsWithout items index gone' := by
  induction items generalizing index with
  | nil => rfl
  | cons item items ih =>
    obtain ⟨hhere, hbelow⟩ := h index (Nat.le_refl _) (by simp)
    have hrest : itemsWithout items (index + 1) gone = itemsWithout items (index + 1) gone' :=
      ih fun j hle hlt => h j (by omega) (by simp; omega)
    rw [itemsWithout_cons, itemsWithout_cons, hhere, hbelow, hrest]

/-- Leaving out one more position in another element changes nothing. -/
theorem itemsWithout_insert {index i : Nat} {rest : List String}
    (h : i < index ∨ index + items.length ≤ i) :
    itemsWithout items index (gone.insert (Numeral.text i :: rest))
      = itemsWithout items index gone := by
  refine itemsWithout_congr fun j hle hlt => ?_
  have hne : Numeral.text j ≠ Numeral.text i := fun heq => by
    have := Numeral.text_injective heq
    omega
  exact ⟨Positions.insert_of_ne fun heq => hne (List.cons.inj heq).1,
    Positions.below_insert_of_ne hne⟩

/-- What is left of the elements before and behind an element that is not chosen. -/
theorem itemsWithout_split {before after : List Node} {child : Node}
    (h : gone [Numeral.text before.length] = false) :
    itemsWithout (before ++ child :: after) 0 gone
      = itemsWithout before 0 gone ++
        child.without (gone.below (Numeral.text before.length)) ::
          itemsWithout after (before.length + 1) gone := by
  rw [itemsWithout_append, itemsWithout_cons, Nat.zero_add, h]
  rfl

/-- What is left of a sequence from an index on: nothing, or a first element that is not chosen,
and behind it what is left when that one is chosen too. -/
theorem itemsWithout_first (items : List Node) (gone : Positions) : ∀ index : Nat,
    (itemsWithout items index gone = [] ∧
      ∀ j, index ≤ j → j < index + items.length → gone [Numeral.text j] = true) ∨
    ∃ j item, index ≤ j ∧ j < index + items.length ∧ gone [Numeral.text j] = false ∧
      (∀ k, index ≤ k → k < j → gone [Numeral.text k] = true) ∧
      itemsWithout items index gone
        = item :: itemsWithout items index (gone.insert [Numeral.text j]) := by
  induction items with
  | nil => exact fun index => Or.inl ⟨rfl, fun j hle hlt => absurd hlt (Nat.not_lt.mpr hle)⟩
  | cons item items ih =>
    intro index
    have hlength : index + (item :: items).length = index + 1 + items.length := by
      rw [List.length_cons, Nat.add_right_comm, Nat.add_assoc]
    rw [hlength, itemsWithout_cons]
    cases hhere : gone [Numeral.text index] with
    | false =>
      refine Or.inr ⟨index, item.without (gone.below (Numeral.text index)), Nat.le_refl _, by omega,
        hhere, fun k hle hlt => absurd hlt (Nat.not_lt.mpr hle), ?_⟩
      rw [itemsWithout_cons, Positions.insert_self, if_pos rfl,
        itemsWithout_insert (Or.inl (Nat.lt_succ_self _))]
      rfl
    | true =>
      -- the first element is chosen: what is left of the sequence is left of the others
      have hfrom : ∀ {j k}, (index + 1 ≤ k → k < j → gone [Numeral.text k] = true) →
          index ≤ k → k < j → gone [Numeral.text k] = true := by
        intro j k h hle hlt
        rcases Nat.eq_or_lt_of_le hle with rfl | hlt'
        · exact hhere
        · exact h hlt' hlt
      rcases ih (index + 1) with ⟨hnil, hall⟩ | ⟨j, first, hle, hlt, hleft, hbetween, hfirst⟩
      · exact Or.inl ⟨hnil, fun k => hfrom (hall k)⟩
      · refine Or.inr ⟨j, first, by omega, hlt, hleft, fun k => hfrom (hbetween k), ?_⟩
        have hne : [Numeral.text index] ≠ [Numeral.text j] := fun heq => by
          have := Numeral.text_injective (List.cons.inj heq).1
          omega
        rw [itemsWithout_cons, Positions.insert_of_ne hne, hhere]
        exact hfirst

/-- To choose one more position below the element is to leave it out there. -/
theorem itemsWithout_insert_below {before after : List Node} {child : Node} {rest : List String}
    (h : gone [Numeral.text before.length] = false) (hrest : rest ≠ []) :
    itemsWithout (before ++ child :: after) 0
        (gone.insert (Numeral.text before.length :: rest))
      = itemsWithout before 0 gone ++
        child.without ((gone.below (Numeral.text before.length)).insert rest) ::
          itemsWithout after (before.length + 1) gone := by
  have hhere : (gone.insert (Numeral.text before.length :: rest)) [Numeral.text before.length]
      = false := by
    rw [Positions.insert_of_ne fun heq => hrest (List.cons.inj heq).2.symm, h]
  rw [itemsWithout_split hhere, Positions.below_insert,
    itemsWithout_insert (Or.inr (Nat.le_of_eq (Nat.zero_add _))),
    itemsWithout_insert (Or.inl (Nat.lt_succ_self _))]

end Items

end Node

end Laminate
