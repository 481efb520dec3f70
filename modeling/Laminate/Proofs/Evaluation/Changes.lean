import Laminate.Proofs.Cursor.Position
import Laminate.Proofs.Node.Entries

/-!
# Changes of a tree

While a phase runs, values take the places of calls, entries that hold calls go, and entries join
their mappings. `Node.changed` gives the tree after such changes from the tree before them, where
every change is told by its position in the tree before. Where nothing on the way to a position is
gone, what stands there is what stood there with the changes below it (`At.changed`), and writing
anew what stands there is to make other changes from there on (`replace_changed`).
-/

namespace Laminate

/-- What becomes of a position of a tree: a value may take the place of a scalar there, an entry
there may go, and entries may join a mapping there. -/
structure Change where
  value : Option Node := none
  gone : Bool := false
  joined : Entries Node := []

namespace Change

/-- A change and a later one. The first value stays, and entries join at the end. -/
def followedBy (a b : Change) : Change where
  value := a.value.or b.value
  gone := a.gone || b.gone
  joined := a.joined ++ b.joined

@[simp] theorem followedBy_none (a : Change) : a.followedBy {} = a := by
  simp [followedBy]

@[simp] theorem none_followedBy (a : Change) : followedBy {} a = a := rfl

theorem followedBy_assoc (a b c : Change) :
    (a.followedBy b).followedBy c = a.followedBy (b.followedBy c) := by
  simp [followedBy, Option.or_assoc, Bool.or_assoc]

end Change

/-- Changes by positions. -/
abbrev Changes := List String → Change

namespace Changes

/-- No change. -/
def empty : Changes := fun _ => {}

/-- The changes below a position, by what follows it. -/
def below (c : Changes) (path : List String) : Changes := fun rest => c (path ++ rest)

/-- Changes and later ones. -/
def followedBy (c d : Changes) : Changes := fun path => (c path).followedBy (d path)

/-- A value in the place of a scalar. -/
def put (path : List String) (value : Node) : Changes :=
  fun other => { value := if other = path then some value else none }

/-- An entry goes, and others join its mapping. -/
def inject (path : List String) (entries : Entries Node) : Changes := fun other =>
  { gone := decide (other = path), joined := if other = path.dropLast then entries else [] }

/-- Nothing goes on the way to a position. -/
def Keeps (c : Changes) (path : List String) : Prop :=
  ∀ other, other <+: path → (c other).gone = false

variable {c d : Changes} {key : String} {path rest : List String}

theorem below_below (c : Changes) (p q : List String) : (c.below p).below q = c.below (p ++ q) := by
  funext rest
  simp only [below, List.append_assoc]

theorem Keeps.head (h : c.Keeps (key :: path)) : (c [key]).gone = false :=
  h _ (List.cons_prefix_cons.mpr ⟨rfl, List.nil_prefix⟩)

theorem Keeps.tail (h : c.Keeps (key :: path)) : (c.below [key]).Keeps path := fun other hother =>
  h (key :: other) (List.cons_prefix_cons.mpr ⟨rfl, hother⟩)

theorem Keeps.of_prefix (h : c.Keeps path) (hrest : rest <+: path) : c.Keeps rest :=
  fun other hother => h other (hother.trans hrest)

theorem Keeps.followedBy (hc : c.Keeps path) (hd : d.Keeps path) : (c.followedBy d).Keeps path := by
  intro other hother
  rw [Changes.followedBy, Change.followedBy, hc other hother, hd other hother]
  rfl

theorem keeps_put (path other : List String) (value : Node) : (put path value).Keeps other :=
  fun _ _ => rfl

theorem keeps_inject (path : List String) (key : String) (entries : Entries Node) :
    (inject (path ++ [key]) entries).Keeps path := by
  intro other hother
  refine decide_eq_false fun heq => ?_
  have hlength := hother.length_le
  rw [heq, List.length_append, List.length_singleton] at hlength
  omega

theorem put_of_ne {other : List String} {value : Node} (h : other ≠ path) :
    put path value other = {} := by
  simp [put, h]

theorem inject_of_not_prefix {other : List String} {entries : Entries Node}
    (h : ¬path <+: other) : inject (path ++ [key]) entries other = {} := by
  have hne : other ≠ path := fun heq => h (heq ▸ List.prefix_refl _)
  have hne' : other ≠ path ++ [key] := fun heq => h (heq ▸ List.prefix_append _ _)
  simp [inject, hne, hne']

theorem below_inject (path : List String) (key : String) (entries : Entries Node) :
    (inject (path ++ [key]) entries).below path = inject [key] entries := by
  funext rest
  simp [below, inject]

end Changes

namespace Node

mutual

/-- The tree with changes. -/
def changed : Node → Changes → Node
  | .scalar s => fun c => (c []).value.getD (.scalar s)
  | .sequence items => fun c => .sequence (changedItems items 0 c)
  | .mapping es => fun c => .mapping (changedEntries es c ++ (c []).joined)
termination_by structural n => n

/-- The items of a sequence from an index on with changes. -/
def changedItems : List Node → Nat → Changes → List Node
  | [] => fun _ _ => []
  | item :: items => fun index c =>
    changed item (c.below [Numeral.text index]) :: changedItems items (index + 1) c
termination_by structural items => items

/-- The entries of a mapping with changes, without those that join it. -/
def changedEntries : List (String × Node) → Changes → Entries Node
  | [] => fun _ => []
  | (key, n) :: es => fun c =>
    if (c [key]).gone then changedEntries es c
    else (key, changed n (c.below [key])) :: changedEntries es c
termination_by structural es => es

end

section Equations

variable (c : Changes)

theorem changed_scalar (s : Scalar) : (scalar s).changed c = (c []).value.getD (.scalar s) := rfl

theorem changed_sequence (items : List Node) :
    (sequence items).changed c = .sequence (changedItems items 0 c) := rfl

theorem changed_mapping (es : Entries Node) :
    (mapping es).changed c = .mapping (changedEntries es c ++ (c []).joined) := rfl

theorem changedItems_cons (item : Node) (items : List Node) (index : Nat) :
    changedItems (item :: items) index c
      = item.changed (c.below [Numeral.text index]) :: changedItems items (index + 1) c := rfl

theorem changedEntries_cons (e : String × Node) (es : Entries Node) :
    changedEntries (e :: es) c =
      if (c [e.1]).gone then changedEntries es c
      else (e.1, e.2.changed (c.below [e.1])) :: changedEntries es c := rfl

end Equations

/-! ## Children -/

theorem getElem?_changedItems (items : List Node) (c : Changes) : ∀ index i : Nat,
    (changedItems items index c)[i]?
      = items[i]?.map fun n => n.changed (c.below [Numeral.text (index + i)]) := by
  induction items with
  | nil => exact fun _ _ => rfl
  | cons item items ih =>
    intro index i
    cases i with
    | zero => rfl
    | succ i =>
      rw [changedItems_cons, List.getElem?_cons_succ, List.getElem?_cons_succ, ih,
        show index + 1 + i = index + (i + 1) by omega]

theorem changedItems_found {items : List Node} {i : Nat} {child : Node}
    (found : items[i]? = some child) (c : Changes) :
    (changedItems items 0 c)[i]? = some (child.changed (c.below [Numeral.text i])) := by
  rw [getElem?_changedItems, found, Nat.zero_add]
  rfl

theorem length_changedItems (items : List Node) (c : Changes) : ∀ index : Nat,
    (changedItems items index c).length = items.length := by
  induction items with
  | nil => exact fun _ => rfl
  | cons item items ih => exact fun index => congrArg (· + 1) (ih (index + 1))

/-- The entries that stay keep their order. -/
theorem keys_changedEntries (es : Entries Node) (c : Changes) :
    Entries.keys (changedEntries es c) = (Entries.keys es).filter fun key => !(c [key]).gone := by
  induction es with
  | nil => rfl
  | cons e es ih =>
    show _ = (e.1 :: Entries.keys es).filter _
    rw [changedEntries_cons, List.filter_cons]
    cases (c [e.1]).gone with
    | true => exact ih
    | false => exact congrArg (e.1 :: ·) ih

theorem get?_changedEntries (es : Entries Node) (c : Changes) (key : String) :
    Entries.get? (changedEntries es c) key =
      if (c [key]).gone then none
      else (Entries.get? es key).map fun n => n.changed (c.below [key]) := by
  induction es with
  | nil => split <;> rfl
  | cons e es ih =>
    obtain ⟨k, n⟩ := e
    rw [changedEntries_cons, Entries.get?_cons]
    by_cases heq : k = key
    · subst heq
      cases hgone : (c [k]).gone with
      | true => rw [if_pos rfl, ih, hgone]; rfl
      | false => rw [if_neg Bool.false_ne_true, Entries.get?_cons, if_pos rfl, if_pos rfl]; rfl
    · rw [if_neg heq]
      cases (c [k]).gone with
      | true => exact ih
      | false => rw [if_neg Bool.false_ne_true, Entries.get?_cons, if_neg heq]; exact ih

theorem changedEntries_congr {es : Entries Node} {c d : Changes}
    (h : ∀ k ∈ Entries.keys es, c.below [k] = d.below [k]) :
    changedEntries es c = changedEntries es d := by
  induction es with
  | nil => rfl
  | cons e es ih =>
    obtain ⟨he, hes⟩ := List.forall_mem_cons.mp h
    have hhere : c [e.1] = d [e.1] := congrFun he []
    rw [changedEntries_cons, changedEntries_cons, he, hhere, ih hes]

/-- Other changes below a key are made by writing its entry anew. -/
theorem insert_changedEntries {es : Entries Node} {key : String} {child : Node} {c d : Changes}
    (hnodup : (Entries.keys es).Nodup) (hget : Entries.get? es key = some child)
    (hkept : (c [key]).gone = false) (hkept' : (d [key]).gone = false)
    (hne : ∀ k, k ≠ key → c.below [k] = d.below [k]) (joined : Entries Node) :
    Entries.insert (changedEntries es c ++ joined) key (child.changed (d.below [key]))
      = changedEntries es d ++ joined := by
  induction es with
  | nil => cases hget
  | cons e es ih =>
    obtain ⟨k, n⟩ := e
    obtain ⟨hnot, hnodup'⟩ := List.nodup_cons.mp hnodup
    rw [Entries.get?_cons] at hget
    rw [changedEntries_cons, changedEntries_cons]
    by_cases heq : k = key
    · subst heq
      rw [if_pos rfl] at hget
      cases hget
      -- no other entry has the key
      have hothers : changedEntries es c = changedEntries es d :=
        changedEntries_congr fun k' hk' => hne k' (ne_of_mem_of_not_mem hk' hnot)
      simp [hkept, hkept', Entries.insert, hothers]
    · rw [if_neg heq] at hget
      have hhere : c [k] = d [k] := congrFun (hne k heq) []
      rw [hne k heq, hhere]
      cases (d [k]).gone <;> simp [Entries.insert, heq, ih hnodup' hget]

/-- One more entry goes by erasing its key. -/
theorem erase_changedEntries {es : Entries Node} {key : String} {c d : Changes}
    (hgone : (d [key]).gone = true) (hne : ∀ k, k ≠ key → c.below [k] = d.below [k]) :
    Entries.erase (changedEntries es c) key = changedEntries es d := by
  induction es with
  | nil => rfl
  | cons e es ih =>
    obtain ⟨k, n⟩ := e
    rw [changedEntries_cons, changedEntries_cons, ← ih]
    by_cases heq : k = key
    · subst heq
      cases (c [k]).gone <;> simp [hgone, Entries.erase_cons]
    · have hhere : c [k] = d [k] := congrFun (hne k heq) []
      rw [hne k heq, hhere]
      cases (d [k]).gone <;> simp [Entries.erase_cons, heq]

theorem set_changedItems {items : List Node} {i : Nat} {child : Node} {c d : Changes}
    (hget : items[i]? = some child)
    (hne : ∀ j, j ≠ i → c.below [Numeral.text j] = d.below [Numeral.text j]) :
    (changedItems items 0 c).set i (child.changed (d.below [Numeral.text i]))
      = changedItems items 0 d := by
  refine List.ext_getElem? fun j => ?_
  rw [List.getElem?_set, getElem?_changedItems, getElem?_changedItems, length_changedItems,
    Nat.zero_add]
  by_cases h : i = j
  · subst h
    rw [if_pos rfl, if_pos (List.getElem?_eq_some_iff.mp hget).1, hget]
    rfl
  · rw [if_neg h, hne j (Ne.symm h)]

/-! ## Trees -/

/-- Without a change nothing changes. -/
theorem changed_empty (n : Node) : n.changed .empty = n := by
  induction n using Node.induction with
  | scalar s => rfl
  | sequence items ih =>
    rw [changed_sequence]
    refine congrArg sequence (List.ext_getElem? fun i => ?_)
    rw [getElem?_changedItems]
    cases hget : items[i]? with
    | none => rfl
    | some item => exact congrArg some (ih item (List.mem_of_getElem? hget))
  | mapping es ih =>
    rw [changed_mapping]
    refine congrArg mapping ((List.append_nil _).trans ?_)
    induction es with
    | nil => rfl
    | cons e es ihes =>
      obtain ⟨he, hes⟩ := List.forall_mem_cons.mp ih
      show (e.1, e.2.changed .empty) :: changedEntries es .empty = e :: es
      rw [he, ihes hes]

/-- An entry of a mapping that does not go stays, and so before those that join it. -/
theorem get?_changed_of_kept {es : Entries Node} {c : Changes} {key : String} {child : Node}
    (found : Entries.get? es key = some child) (hkept : (c [key]).gone = false)
    (joined : Entries Node) :
    Entries.get? (changedEntries es c ++ joined) key = some (child.changed (c.below [key])) := by
  have hget : Entries.get? (changedEntries es c) key = some (child.changed (c.below [key])) := by
    rw [get?_changedEntries, hkept, found]
    rfl
  obtain ⟨pre, post, hsplit, hpre⟩ := Entries.exists_split_of_get? hget
  rw [hsplit, List.append_assoc]
  exact Entries.get?_append hpre

namespace At

/-- **What stands at a position stays there, with the changes below it, unless it goes or something
that contains it does.** -/
theorem changed {n m : Node} {path : List String} (h : n.At path m) : ∀ {c : Changes},
    c.Keeps path → (n.changed c).At path (m.changed (c.below path)) := by
  induction h with
  | here => exact fun _ => .here _
  | @key es key child m path found _ ih =>
    intro c hkeeps
    have hrest := ih hkeeps.tail
    rw [Changes.below_below] at hrest
    exact .key (get?_changed_of_kept found hkeeps.head _) hrest
  | @item items i child m path bound found _ ih =>
    intro c hkeeps
    have hrest := ih hkeeps.tail
    rw [Changes.below_below] at hrest
    exact .item bound (changedItems_found found c) hrest

end At

/-- To let an entry of a mapping go and others join it is to erase its key and write them behind. -/
theorem changed_inject {es new : Entries Node} {c : Changes} {key : String}
    (hjoined : key ∉ Entries.keys (c []).joined) :
    (mapping es).changed (c.followedBy (.inject [key] new))
      = .mapping (Entries.erase (changedEntries es c ++ (c []).joined) key ++ new) := by
  have herase : Entries.erase (changedEntries es c) key
      = changedEntries es (c.followedBy (.inject [key] new)) := by
    refine erase_changedEntries ?_ fun k hk => funext fun rest => ?_
    · simp [Changes.followedBy, Change.followedBy, Changes.inject]
    · simp [Changes.below, Changes.followedBy, Changes.inject, hk]
  rw [changed_mapping, Entries.erase, List.filter_append, ← Entries.erase, ← Entries.erase, herase,
    Entries.erase_of_notMem hjoined, List.append_assoc]
  simp [Changes.followedBy, Change.followedBy, Changes.inject]

/-- **Writing anew what stands at a position is to make other changes from there on.** -/
theorem replace_changed {n m : Node} {path : List String} (h : n.At path m) :
    ∀ {c d : Changes}, n.WellFormed → c.Keeps path → d.Keeps path →
    (∀ other, ¬path <+: other → c other = d other) →
    (n.changed c).replace (m.changed (d.below path)) path = .ok (n.changed d) := by
  induction h with
  | here n =>
    intro c d _ _ _ _
    rfl
  | @key es key child m path found _ ih =>
    intro c d hwf hc hd hsame
    have hget := get?_changed_of_kept found hc.head (c []).joined
    have hstep : ((mapping es).changed c).step key = .ok (key, child.changed (c.below [key])) :=
      step_mapping hget
    have hchild := ih (hwf.values _ (Entries.mem_of_get? found)) hc.tail hd.tail fun other hother =>
      hsame (key :: other) fun h => hother (List.cons_prefix_cons.mp h).2
    have hothers : ∀ k, k ≠ key → c.below [k] = d.below [k] := fun k hk => funext fun rest =>
      hsame (k :: rest) fun h => hk (List.cons_prefix_cons.mp h).1.symm
    have hhere : c [] = d [] := hsame [] fun h => List.cons_ne_nil _ _ (List.prefix_nil.mp h)
    rw [Changes.below_below] at hchild
    rw [show d.below (key :: path) = d.below ([key] ++ path) from rfl, replace_cons hstep hchild,
      changed_mapping, changed_mapping, withChild_key hget,
      insert_changedEntries hwf.nodup found hc.head hd.head hothers, hhere]
  | @item items i child m path bound found _ ih =>
    intro c d hwf hc hd hsame
    have hget := changedItems_found found c
    have hstep : ((sequence items).changed c).step (Numeral.text i)
        = .ok (Numeral.text i, child.changed (c.below [Numeral.text i])) := step_item bound hget
    have hchild := ih (hwf.items _ (List.mem_of_getElem? found)) hc.tail hd.tail fun other hother =>
      hsame (Numeral.text i :: other) fun h => hother (List.cons_prefix_cons.mp h).2
    -- different indices have different numerals
    have hothers : ∀ j, j ≠ i → c.below [Numeral.text j] = d.below [Numeral.text j] := fun j hj =>
      funext fun rest => hsame (Numeral.text j :: rest) fun h =>
        hj (Numeral.text_injective (List.cons_prefix_cons.mp h).1).symm
    rw [Changes.below_below] at hchild
    rw [show d.below (Numeral.text i :: path) = d.below ([Numeral.text i] ++ path) from rfl,
      replace_cons hstep hchild, changed_sequence, changed_sequence, withChild_item bound hget,
      set_changedItems found hothers]

/-- To make more changes at a position and below it is to write anew what stands there. -/
theorem replace_followedBy {n m : Node} {path : List String} (h : n.At path m)
    (hwf : n.WellFormed) {c d : Changes} (hc : c.Keeps path) (hd : d.Keeps path)
    (hoff : ∀ other, ¬path <+: other → d other = {}) :
    (n.changed c).replace (m.changed ((c.followedBy d).below path)) path
      = .ok (n.changed (c.followedBy d)) := by
  refine replace_changed h hwf hc (hc.followedBy hd) fun other hother => ?_
  rw [Changes.followedBy, hoff other hother, Change.followedBy_none]

end Node

end Laminate
