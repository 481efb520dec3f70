import Laminate.Proofs.Cursor.Likeness
import Laminate.Proofs.Evaluation.Changes

/-!
# Changes that come to the same

Changes of reordered trees that come to the same at every position give reordered trees
(`Reordered.changed`). To look up a path, less is needed: changes at and below a beginning of the
path that leads somewhere, as long as the names on the path stay with the elements that have them
(`Reordered.resolve_changed`). A path of which nothing leads anywhere goes on to lead nowhere
(`step_changed_of_error`).
-/

namespace Laminate

/-- Changes of a position that come to the same but for the order of keys. -/
structure Change.Agree (a b : Change) : Prop where
  value : Option.Rel Node.Reordered a.value b.value
  gone : a.gone = b.gone
  joined : ∀ key, Option.Rel Node.Reordered (Entries.get? a.joined key) (Entries.get? b.joined key)

namespace Entries

variable {α : Type} (as bs : Entries α) (key : String)

theorem get?_concat : get? (as ++ bs) key = (get? as key).or (get? bs key) :=
  List.lookup_append

end Entries

namespace Node

variable {n n' : Node} {c c' : Changes}

/-! ## Trees -/

theorem WellFormed.changed_item {items : List Node} {i : Nat} {child : Node}
    (h : ((Node.sequence items).changed c).WellFormed) (found : items[i]? = some child) :
    (child.changed (c.below [Numeral.text i])).WellFormed :=
  h.items _ (List.mem_of_getElem? (changedItems_found found _))

theorem WellFormed.index_lt_of_changed {items : List Node} {i : Nat} {child : Node}
    (h : ((Node.sequence items).changed c).WellFormed) (found : items[i]? = some child) :
    i < Numeral.indexBound := by
  rw [changed_sequence] at h
  exact h.index_lt (changedItems_found found c)

theorem WellFormed.changed_value {es : Entries Node} {key : String} {child : Node}
    (h : ((Node.mapping es).changed c).WellFormed) (found : Entries.get? es key = some child)
    (hkept : (c [key]).gone = false) : (child.changed (c.below [key])).WellFormed :=
  h.values _ (Entries.mem_of_get? (get?_changed_of_kept found hkept _))

namespace Reordered

theorem changedItems {items items' : List Node}
    (ih : ∀ item ∈ items, ∀ item' (c c' : Changes), item.Reordered item' →
      (∀ path, (c path).Agree (c' path)) → (item.changed c).WellFormed →
      (item'.changed c').WellFormed → (item.changed c).Reordered (item'.changed c'))
    (pairs : List.Forall₂ Reordered items items') (h : ∀ path, (c path).Agree (c' path)) :
    ∀ index : Nat, (∀ n ∈ Node.changedItems items index c, n.WellFormed) →
      (∀ n ∈ Node.changedItems items' index c', n.WellFormed) →
      List.Forall₂ Reordered (Node.changedItems items index c) (Node.changedItems items' index c')
    := by
  induction pairs with
  | nil => exact fun _ _ _ => .nil
  | cons hitem _ ihitems =>
    intro index hwf hwf'
    obtain ⟨hfirst, hrest⟩ := List.forall_mem_cons.mp ih
    obtain ⟨hfirst_wf, hrest_wf⟩ := List.forall_mem_cons.mp hwf
    obtain ⟨hfirst_wf', hrest_wf'⟩ := List.forall_mem_cons.mp hwf'
    exact .cons (hfirst _ _ _ hitem (fun path => h _) hfirst_wf hfirst_wf')
      (ihitems hrest (index + 1) hrest_wf hrest_wf')

/-- **Changes that come to the same at every position give reordered trees.** -/
theorem changed (n : Node) : ∀ (n' : Node) (c c' : Changes), n.Reordered n' →
    (∀ path, (c path).Agree (c' path)) → (n.changed c).WellFormed → (n'.changed c').WellFormed →
    (n.changed c).Reordered (n'.changed c') := by
  induction n using Node.induction with
  | scalar s =>
    rintro n' c c' ⟨⟩ h - -
    exact getD_of_rel (h []).value (.scalar s)
  | sequence items ih =>
    rintro n' c c' ⟨⟩ h hwf hwf'
    next items' pairs =>
    exact .sequence (changedItems ih pairs h 0 hwf.items hwf'.items)
  | mapping es ih =>
    intro n' c c' hn h hwf hwf'
    cases n' with
    | mapping es' =>
      refine .of_get?_entries hwf.nodup hwf'.nodup fun key => ?_
      have hjoined := (h []).joined key
      rw [Entries.get?_concat, Entries.get?_concat, get?_changedEntries, get?_changedEntries,
        (h [key]).gone]
      cases hgone : (c' [key]).gone with
      | true => exact hjoined
      | false =>
        have hkept : (c [key]).gone = false := (h [key]).gone.trans hgone
        refine or_of_rel (map_of_rel (hn.get?_entries key)
          fun child child' found found' hchild => ?_) hjoined
        exact ih _ (Entries.mem_of_get? found) child' _ _ hchild (fun path => h _)
          (hwf.changed_value found hkept) (hwf'.changed_value found' hgone)
    | _ => cases hn

end Reordered

/-! ## Names of elements -/

/-- The changes make of no element of a list one of these names, nor take it from any. -/
def KeepsNames (names : List String) (n : Node) (c : Changes) : Prop :=
  ∀ (path : List String) (items : List Node) (i : Nat) (item : Node),
    n.At path (.sequence items) → items[i]? = some item → ∀ name ∈ names,
    (item.changed (c.below (path ++ [Numeral.text i]))).isNamed name = item.isNamed name

namespace KeepsNames

variable {names : List String}

theorem key {es : Entries Node} {key : String} {child : Node}
    (h : KeepsNames names (.mapping es) c) (found : Entries.get? es key = some child) :
    child.KeepsNames names (c.below [key]) := by
  intro path items i item hat hitem name hname
  rw [Changes.below_below]
  exact h (key :: path) items i item (.key found hat) hitem name hname

theorem item {items : List Node} {i : Nat} {child : Node}
    (h : KeepsNames names (.sequence items) c) (bound : i < Numeral.indexBound)
    (found : items[i]? = some child) : child.KeepsNames names (c.below [Numeral.text i]) := by
  intro path items' j item hat hitem name hname
  rw [Changes.below_below]
  exact h (Numeral.text i :: path) items' j item (.item bound found hat) hitem name hname

theorem elementIndex?_eq {items : List Node} (h : KeepsNames names (.sequence items) c)
    {component : String} (hcomponent : component ∈ names) :
    elementIndex? (changedItems items 0 c) component = elementIndex? items component := by
  have hnames : (changedItems items 0 c).map (fun item => item.isNamed component)
      = items.map fun item => item.isNamed component := by
    refine List.ext_getElem? fun i => ?_
    rw [List.getElem?_map, List.getElem?_map, getElem?_changedItems, Nat.zero_add]
    cases hget : items[i]? with
    | none => rfl
    | some item => exact congrArg some (h [] items i item (.here _) hget component hcomponent)
  have hindex : ∀ l : List Node, l.findIdx? (fun item => item.isNamed component)
      = (l.map fun item => item.isNamed component).findIdx? id := fun l => by
    rw [List.findIdx?_map]
    rfl
  rw [elementIndex?, elementIndex?, length_changedItems, hindex, hnames, ← hindex]

end KeepsNames

/-! ## Steps down a tree -/

/-- What a path leads nowhere in goes on to lead nowhere, if nothing joins there. -/
theorem step_changed_of_error {names : List String} {component : String} {obstacle : Obstacle}
    (h : n.step component = .error obstacle) (hnames : n.KeepsNames names c)
    (hcomponent : component ∈ names) (hvalue : (c []).value = none)
    (hjoined : Entries.get? (c []).joined component = none) :
    (n.changed c).step component = .error obstacle := by
  cases n with
  | scalar s =>
    rw [changed_scalar, hvalue]
    exact h
  | mapping es =>
    cases hget : Entries.get? es component with
    | some child =>
      rw [step_mapping hget] at h
      cases h
    | none =>
      have hnone : Entries.get? (changedEntries es c ++ (c []).joined) component = none := by
        rw [Entries.get?_concat, get?_changedEntries, hget, hjoined]
        cases (c [component]).gone <;> rfl
      simp only [step, hget] at h
      simp only [changed_mapping, step, hnone, h]
  | sequence items =>
    have hindex := hnames.elementIndex?_eq hcomponent
    cases hi : elementIndex? items component with
    | none =>
      simp only [step, hi] at h
      simp only [changed_sequence, step, hindex, hi, elementObstacle, length_changedItems]
      exact h
    | some i =>
      rw [step_sequence hi (List.getElem?_eq_getElem (elementIndex?_lt hi))] at h
      cases h

/-- An entry of a mapping that does not go is found as before. -/
theorem step_changed_key {es : Entries Node} {key : String} {child : Node}
    (found : Entries.get? es key = some child) (hkept : (c [key]).gone = false) :
    ((mapping es).changed c).step key = .ok (key, child.changed (c.below [key])) :=
  step_mapping (get?_changed_of_kept found hkept _)

/-- An element of a list is found as before. -/
theorem step_changed_item {names : List String} {items : List Node} {component : String} {i : Nat}
    {child : Node} (hnames : KeepsNames names (.sequence items) c) (hcomponent : component ∈ names)
    (hi : elementIndex? items component = some i)
    (found : items[i]? = some child) :
    ((sequence items).changed c).step component
      = .ok (Numeral.text i, child.changed (c.below [Numeral.text i])) := by
  refine step_sequence ?_ (changedItems_found found c)
  rw [hnames.elementIndex?_eq hcomponent, hi]

/-! ## Looking up paths -/

/-- Changes that come to the same for what a path with a beginning at this position finds. -/
structure AgreeBelow (c c' : Changes) (place : List String) : Prop where
  /-- Nothing above the position goes. -/
  kept : ∀ other, other <+: place → other ≠ place → (c other).gone = false ∧ (c' other).gone = false
  /-- The changes come to the same at the position and below it. -/
  agree : ∀ rest, (c (place ++ rest)).Agree (c' (place ++ rest))
  /-- If the position goes, then the same entry joins in its place, or none. -/
  rejoined : ∀ path key, place = path ++ [key] → (c place).gone = true →
    Option.Rel Reordered (Entries.get? (c path).joined key) (Entries.get? (c' path).joined key)

theorem AgreeBelow.tail {key : String} {place : List String} (h : AgreeBelow c c' (key :: place)) :
    AgreeBelow (c.below [key]) (c'.below [key]) place where
  kept other hother hne := h.kept (key :: other) (List.cons_prefix_cons.mpr ⟨rfl, hother⟩)
    fun heq => hne (List.cons.inj heq).2
  agree := h.agree
  rejoined path last hplace := h.rejoined (key :: path) last (congrArg (key :: ·) hplace)

theorem AgreeBelow.gone_head {component : String} {place : List String}
    (h : AgreeBelow c c' (component :: place)) : (c [component]).gone = (c' [component]).gone := by
  cases place with
  | nil => exact (h.agree []).gone
  | cons d place =>
    have hprefix : [component] <+: component :: d :: place := ⟨d :: place, rfl⟩
    have hkept := h.kept [component] hprefix (by simp)
    rw [hkept.1, hkept.2]

theorem AgreeBelow.nil_of_gone {component : String} {place : List String}
    (h : AgreeBelow c c' (component :: place)) (hgone : (c [component]).gone = true) :
    place = [] := by
  cases place with
  | nil => rfl
  | cons d place =>
    have hprefix : [component] <+: component :: d :: place := ⟨d :: place, rfl⟩
    have hkept := (h.kept [component] hprefix (by simp)).1
    rw [hgone] at hkept
    cases hkept

theorem resolve_key_agree {as bs : Entries Node} {key : String}
    (h : Option.Rel Reordered (Entries.get? as key) (Entries.get? bs key)) (rest : List String) :
    ResultsAgree Eq Reordered ((mapping as).resolve (key :: rest))
      ((mapping bs).resolve (key :: rest)) := by
  simp only [Node.resolve, Node.step]
  generalize Entries.get? as key = x at h ⊢
  generalize Entries.get? bs key = y at h ⊢
  cases h with
  | none => exact .error rfl
  | some hm => exact (hm.resolve rest).mapError fun _ _ heq => by rw [heq]

/-- **A path with a beginning that leads somewhere finds the same if the changes come to the same
below that beginning.** -/
theorem Reordered.resolve_changed {names : List String} (rest : List String) :
    ∀ {path place : List String} {n n' : Node} {c c' : Changes}, n.Reordered n' →
    n.canonical path = .ok place → AgreeBelow c c' place → path ⊆ names →
    n.KeepsNames names c → n'.KeepsNames names c' → (n.changed c).WellFormed →
    (n'.changed c').WellFormed →
    ResultsAgree Eq Reordered ((n.changed c).resolve (path ++ rest))
      ((n'.changed c').resolve (path ++ rest))
  | [], place, n, n', c, c', h, hcanonical, hagree, _, _, _, hwf, hwf' => by
    cases hcanonical
    exact (Reordered.changed n n' c c' h hagree.agree hwf hwf').resolve rest
  | component :: path, place, n, n', c, c', h, hcanonical, hagree, hsubset, hnames, hnames', hwf,
      hwf' => by
    obtain ⟨hcomponent, hpath⟩ := List.cons_subset.mp hsubset
    obtain ⟨d, child, below, hstep, hbelow, rfl⟩ := canonical_cons_ok.mp hcanonical
    have hbelow_agree : AgreeBelow (c.below [d]) (c'.below [d]) below := hagree.tail
    rcases step_cases hstep with ⟨es, rfl, found, rfl⟩ | ⟨items, i, rfl, hi, found, rfl⟩
    · cases n' with
      | mapping es' =>
        cases hgone : (c [d]).gone with
        | true =>
          -- the call at the beginning was carried out, and what joins in its place is found
          obtain rfl := hagree.nil_of_gone hgone
          obtain rfl : path = [] := List.length_eq_zero_iff.mp (length_canonical hbelow).symm
          refine resolve_key_agree ?_ rest
          rw [Entries.get?_concat, Entries.get?_concat, get?_changedEntries, get?_changedEntries,
            ← hagree.gone_head, hgone]
          exact hagree.rejoined [] d rfl hgone
        | false =>
          have hgone' : (c' [d]).gone = false := hagree.gone_head.symm.trans hgone
          have hrel := h.get?_entries d
          rw [found] at hrel
          generalize found' : Entries.get? es' d = y at hrel
          cases hrel with
          | some hchild =>
            have hrest := Reordered.resolve_changed rest hchild hbelow hbelow_agree hpath
              (hnames.key found) (hnames'.key found') (hwf.changed_value found hgone)
              (hwf'.changed_value found' hgone')
            rw [List.cons_append, resolve_cons (step_changed_key found hgone),
              resolve_cons (step_changed_key found' hgone')]
            exact hrest.mapError fun _ _ heq => by rw [heq]
      | _ => cases h
    · cases n' with
      | sequence items' =>
        have hi' : elementIndex? items' component = some i :=
          (elementIndex?_eq h.pairs component).symm.trans hi
        have hrel := getElem?_of_forall₂ h.pairs i
        rw [found] at hrel
        generalize found' : items'[i]? = y at hrel
        cases hrel with
        | some hchild =>
          have hrest := Reordered.resolve_changed rest hchild hbelow hbelow_agree hpath
            (hnames.item (hwf.index_lt_of_changed found) found)
            (hnames'.item (hwf'.index_lt_of_changed found') found')
            (hwf.changed_item found) (hwf'.changed_item found')
          rw [List.cons_append, resolve_cons (step_changed_item hnames hcomponent hi found),
            resolve_cons (step_changed_item hnames' hcomponent hi' found')]
          exact hrest.mapError fun _ _ heq => by rw [heq]
      | _ => cases h

end Node

end Laminate
