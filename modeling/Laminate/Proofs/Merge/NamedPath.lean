import Laminate.Merge.Documents
import Laminate.Proofs.Cursor.Position

/-!
# Where named paths lead

A path that is recorded for later has names in the place of list indices. A name is the first of the
name fields of its element, but it finds the first element of which any name field holds it. So the
named path leads back to the position that was meant if and only if, in every list on the way, no
element before the one that was meant answers to its name (`canonical_namedPath_iff`).
-/

namespace Laminate

namespace Node

/-- No element before the one at an index answers to the name that stands for it in a named path. -/
def ToldByName (items : List Node) (i : Nat) : Prop :=
  ∀ item name, items[i]? = some item → item.name? = some name →
    Numeral.index? name.toList = none → ∀ other ∈ items.take i, other.isNamed name = false

/-- In every list on the way of a position the name of the element tells it from those before it. -/
def ToldByNames (n : Node) (path : List String) : Prop :=
  ∀ before i items, before ++ [Numeral.text i] <+: path → n.At before (.sequence items) →
    ToldByName items i

/-! ## One element -/

theorem isNamed_of_name? {item : Node} {name : String} (h : item.name? = some name) :
    item.isNamed name = true := by
  obtain ⟨field, hfield, htext⟩ := List.exists_of_findSome?_eq_some h
  exact List.any_eq_true.mpr ⟨field, hfield, beq_iff_eq.mpr htext⟩

theorem toldByName_iff {items : List Node} {i : Nat} {item : Node} (h : items[i]? = some item) :
    ToldByName items i ↔ ∀ name, item.name? = some name → Numeral.index? name.toList = none →
      ∀ other ∈ items.take i, other.isNamed name = false := by
  refine ⟨fun htold name => htold item name h, fun htold item' name h' => ?_⟩
  rw [h] at h'
  cases h'
  exact htold name

/-- What stands for an element in a named path finds it if and only if its name tells it from the
elements before it. -/
theorem elementIndex?_namedComponent_iff {items : List Node} {i : Nat} {item : Node}
    (hbound : i < Numeral.indexBound) (hitem : items[i]? = some item) :
    elementIndex? items (namedComponent (some item) (Numeral.text i)) = some i ↔
      ToldByName items i := by
  have hindex : elementIndex? items (Numeral.text i) = some i := by
    rw [elementIndex?_text hbound, if_pos (List.getElem?_eq_some_iff.mp hitem).1]
  rw [toldByName_iff hitem, namedComponent, Option.bind_some]
  cases hname : item.name? with
  | none => exact iff_of_true hindex nofun
  | some name =>
    dsimp only
    cases hnumber : Numeral.index? name.toList with
    | some k =>
      -- a name that would be taken for an index is not used
      refine iff_of_true hindex ?_
      rintro _ ⟨⟩ hnone
      rw [hnumber] at hnone
      cases hnone
    | none =>
      rw [Option.isNone_none, if_pos rfl, elementIndex?_eq_some_iff hitem]
      constructor
      · rintro (hindex | ⟨-, -, hfirst⟩) _ ⟨⟩ -
        · rw [hnumber] at hindex
          cases hindex
        · exact hfirst
      · intro h
        exact .inr ⟨hnumber, isNamed_of_name? hname, h name rfl hnumber⟩

/-! ## Along a path -/

theorem toldByNames_nil (n : Node) : n.ToldByNames [] := by
  intro before i items hprefix
  exact absurd (List.prefix_nil.mp hprefix) (List.append_ne_nil_of_right_ne_nil _ nofun)

theorem toldByNames_cons {n child : Node} {d : String} {path : List String}
    (h : n.At [d] child) : n.ToldByNames (d :: path) ↔
      (∀ items i, n = .sequence items → d = Numeral.text i → ToldByName items i) ∧
      child.ToldByNames path := by
  constructor
  · intro htold
    refine ⟨?_, fun before i items hprefix hat => ?_⟩
    · rintro items i rfl rfl
      exact htold [] i items ⟨path, rfl⟩ (.here _)
    · exact htold (d :: before) i items (List.cons_prefix_cons.mpr ⟨rfl, hprefix⟩) (h.append hat)
  · rintro ⟨hhere, hrest⟩ before i items hprefix hat
    cases before with
    | nil =>
      cases hat
      exact hhere items i rfl (List.cons_prefix_cons.mp hprefix).1.symm
    | cons d' before =>
      rw [List.cons_append, List.cons_prefix_cons] at hprefix
      obtain ⟨rfl, hprefix⟩ := hprefix
      obtain ⟨child', hchild, hat⟩ := At.exists_of_append (p := [d']) hat
      rw [h.unique hchild] at hrest
      exact hrest before i items hprefix hat

theorem canonical_sequence_ok {items : List Node} {i : Nat} {child : Node} {component : String}
    {rest path : List String} (hchild : items[i]? = some child) :
    (sequence items).canonical (component :: rest) = .ok (Numeral.text i :: path) ↔
      elementIndex? items component = some i ∧ child.canonical rest = .ok path := by
  rw [canonical_cons_ok]
  constructor
  · rintro ⟨d, child', path', hstep, hrest, hpath⟩
    obtain ⟨rfl, rfl⟩ := List.cons.inj hpath
    rcases step_cases hstep with ⟨es, hes, -⟩ | ⟨items', j, hitems, hj, hget, htext⟩
    · cases hes
    · cases hitems
      obtain rfl := Numeral.text_injective htext
      rw [hchild] at hget
      cases hget
      exact ⟨hj, hrest⟩
  · rintro ⟨hi, hrest⟩
    exact ⟨_, child, path, step_sequence hi hchild, hrest, rfl⟩

/-- The components of a named path lead back to the position that was meant if and only if names
tell the elements on its way from those before them. -/
theorem canonical_namedComponents_iff {n m : Node} {path : List String} (h : n.At path m) :
    n.canonical (namedComponents (some n) path) = .ok path ↔ n.ToldByNames path := by
  induction h with
  | here n =>
    rw [namedComponents]
    exact iff_of_true rfl (toldByNames_nil n)
  | @key es key child m path found rest ih =>
    have hnamed : namedComponents (some (mapping es)) (key :: path)
        = key :: namedComponents (some child) path := by
      rw [← found]
      rfl
    rw [hnamed, toldByNames_cons (.key found (.here child)), ← ih, canonical_cons_ok]
    constructor
    · rintro ⟨d, child', path', hstep, hrest, hpath⟩
      rw [step_mapping found] at hstep
      cases hstep
      cases hpath
      exact ⟨nofun, hrest⟩
    · rintro ⟨-, hrest⟩
      exact ⟨key, child, path, step_mapping found, hrest, rfl⟩
  | @item items i child m path bound found rest ih =>
    have hnamed : namedComponents (some (sequence items)) (Numeral.text i :: path)
        = namedComponent (some child) (Numeral.text i) :: namedComponents (some child) path := by
      rw [namedComponents, Numeral.index?_text bound, Option.bind_some, found]
    rw [hnamed, toldByNames_cons (.item bound found (.here child)), ← ih,
      canonical_sequence_ok found, elementIndex?_namedComponent_iff bound found]
    refine and_congr_left fun _ => ⟨?_, fun h => h items i rfl rfl⟩
    rintro htold items' i' hitems htext
    cases hitems
    obtain rfl := Numeral.text_injective htext
    exact htold

/-- **A path of keys and indices that has been given names leads back to where it led if and only
if, in every list on its way, no element before the one that was meant answers to the name that
stands for it.** -/
theorem canonical_namedPath_iff {es : Entries Node} {path : Cursor} {m : Node}
    (h : (mapping es).At path.components m) :
    ((mapping es).namedPath path).canonical (mapping es) = .ok path ↔
      ∀ before i items, before ++ [Numeral.text i] <+: path.components →
        (mapping es).At before (.sequence items) → ToldByName items i := by
  obtain ⟨components⟩ := path
  have hcanonical := canonical_namedComponents_iff h
  rw [ToldByNames] at hcanonical
  rw [← hcanonical, namedPath, Cursor.canonical]
  cases (mapping es).canonical (namedComponents (some (mapping es)) components) with
  | error fault => exact iff_of_false nofun nofun
  | ok c => simp [Except.map]

/-- A list of two elements, the first with a text as its `id` and the second with one as its name. -/
def identified (id name : String) (value : Node) : Entries Node :=
  [("list", .sequence [.mapping [("id", .string id), ("v", .integer 1)],
    .mapping [("name", .string name), ("v", value)]])]

theorem at_identified (id name : String) (value : Node) :
    (mapping (identified id name value)).At ["list", "1", "v"] value :=
  .key rfl (.item (i := 1) (by decide) rfl (.key rfl (.here _)))

theorem named_path_leads_back :
    (mapping (identified "x" "y" .null)).namedPath ⟨["list", "1", "v"]⟩ = ⟨["list", "y", "v"]⟩ ∧
    Cursor.canonical ⟨["list", "y", "v"]⟩ (mapping (identified "x" "y" .null))
      = .ok ⟨["list", "1", "v"]⟩ := by
  refine ⟨rfl, (canonical_namedPath_iff (at_identified "x" "y" .null)).mpr ?_⟩
  refine (toldByNames_cons (.key rfl (.here _))).mpr ⟨nofun, ?_⟩
  refine (toldByNames_cons (.item (i := 1) (by decide) rfl (.here _))).mpr ⟨?_, ?_⟩
  · rintro items i ⟨⟩ htext
    obtain rfl : 1 = i := Numeral.text_injective htext
    rw [toldByName_iff rfl]
    rintro name ⟨⟩ -
    decide
  · exact (toldByNames_cons (.key rfl (.here _))).mpr ⟨nofun, toldByNames_nil _⟩

/-- An overwritten call in an element is recorded under the name of the element, and the name finds
an element before it that has the same text as its `id`. -/
theorem named_path_leads_to_namesake :
    (Merge.documents .inline [.mapping (identified "x" "x" (.string "(( prune ))")),
        .mapping [("list", .sequence [.string "(( inline ))", .mapping [],
          .mapping [("v", .integer 2)]])]] {})
      = (.ok (.mapping (identified "x" "x" (.integer 2))),
        { prune := [(mapping (identified "x" "x" (.integer 2))).namedPath ⟨["list", "1", "v"]⟩] }) ∧
    (mapping (identified "x" "x" (.integer 2))).At ["list", "1", "v"] (.integer 2) ∧
    ((mapping (identified "x" "x" (.integer 2))).namedPath ⟨["list", "1", "v"]⟩).canonical
      (mapping (identified "x" "x" (.integer 2))) = .ok ⟨["list", "0", "v"]⟩ :=
  ⟨rfl, at_identified _ _ _, rfl⟩

end Node

end Laminate
