import Laminate.Cursor.Lookup

/-!
# Positions

`n.At path m` says that going down from `n`, by keys in mappings and by decimal indices in
sequences, one gets to `m` at the end of `path`; names of elements play no part in it. Canonical
paths are positions (`canonical_at`), and at a position look-up finds what stands there
(`At.resolve`, `At.canonical`).
-/

namespace Laminate

namespace Node

/-- What stands at a position of a tree. -/
inductive At : Node → List String → Node → Prop
  | here (n : Node) : At n [] n
  | key {es : Entries Node} {key : String} {child m : Node} {path : List String}
      (found : Entries.get? es key = some child) (rest : At child path m) :
      At (.mapping es) (key :: path) m
  | item {items : List Node} {i : Nat} {child m : Node} {path : List String}
      (bound : i < Numeral.indexBound) (found : items[i]? = some child) (rest : At child path m) :
      At (.sequence items) (Numeral.text i :: path) m

/-! ## One step -/

theorem elementIndex?_text {items : List Node} {i : Nat} (h : i < Numeral.indexBound) :
    elementIndex? items (Numeral.text i) = if i < items.length then some i else none := by
  rw [elementIndex?, Numeral.index?_text h]

theorem elementIndex?_lt {items : List Node} {component : String} {i : Nat}
    (h : elementIndex? items component = some i) : i < items.length := by
  unfold elementIndex? at h
  split at h
  · split at h
    · next hlt => exact Option.some.inj h ▸ hlt
    · cases h
  · exact (List.findIdx?_eq_some_iff_findIdx_eq.mp h).1

/-- A name finds the first element that has it. -/
theorem findIdx?_isNamed_eq_some_iff {items : List Node} {i : Nat} {item : Node} {name : String}
    (hitem : items[i]? = some item) :
    (items.findIdx? fun other => other.isNamed name) = some i ↔
      item.isNamed name = true ∧ ∀ other ∈ items.take i, other.isNamed name = false := by
  obtain ⟨hlt, rfl⟩ := List.getElem?_eq_some_iff.mp hitem
  rw [List.findIdx?_eq_some_iff_getElem]
  constructor
  · rintro ⟨_, hnamed, hbefore⟩
    refine ⟨hnamed, fun other hother => ?_⟩
    obtain ⟨j, hj, rfl⟩ := List.mem_take_iff_getElem.mp hother
    exact Bool.eq_false_iff.mpr (hbefore j (by omega))
  · rintro ⟨hnamed, hbefore⟩
    refine ⟨hlt, hnamed, fun j hj => Bool.eq_false_iff.mp (hbefore _ ?_)⟩
    exact List.mem_take_iff_getElem.mpr ⟨j, by omega, rfl⟩

/-- What finds the element at an index: a component that reads as the index, or one that reads as
none and is a name of this element and of no element before it. -/
theorem elementIndex?_eq_some_iff {items : List Node} {component : String} {i : Nat} {item : Node}
    (hitem : items[i]? = some item) : elementIndex? items component = some i ↔
      Numeral.index? component.toList = some i ∨
      Numeral.index? component.toList = none ∧ item.isNamed component = true ∧
        ∀ other ∈ items.take i, other.isNamed component = false := by
  rw [elementIndex?]
  cases hnumber : Numeral.index? component.toList with
  | none => simp [findIdx?_isNamed_eq_some_iff hitem]
  | some k =>
    have hlt : i < items.length := (List.getElem?_eq_some_iff.mp hitem).1
    simp only [Option.some.injEq, reduceCtorEq, false_and, or_false, Option.ite_none_right_eq_some]
    exact ⟨fun h => h.2, fun h => ⟨h ▸ hlt, h⟩⟩

theorem step_mapping {es : Entries Node} {key : String} {child : Node}
    (h : Entries.get? es key = some child) : (mapping es).step key = .ok (key, child) := by
  simp only [step, h]

theorem step_sequence {items : List Node} {component : String} {i : Nat} {child : Node}
    (hi : elementIndex? items component = some i) (h : items[i]? = some child) :
    (sequence items).step component = .ok (Numeral.text i, child) := by
  simp only [step, hi, h]

theorem step_item {items : List Node} {i : Nat} {child : Node} (hb : i < Numeral.indexBound)
    (h : items[i]? = some child) :
    (sequence items).step (Numeral.text i) = .ok (Numeral.text i, child) := by
  refine step_sequence ?_ h
  rw [elementIndex?_text hb, if_pos (List.getElem?_eq_some_iff.mp h).1]

/-- All that a step that leads somewhere can be. -/
theorem step_cases {n child : Node} {component d : String}
    (h : n.step component = .ok (d, child)) :
    (∃ es, n = mapping es ∧ Entries.get? es component = some child ∧ d = component) ∨
    (∃ items i, n = sequence items ∧ elementIndex? items component = some i ∧
      items[i]? = some child ∧ d = Numeral.text i) := by
  cases n with
  | scalar s => cases h
  | mapping es =>
    left
    cases hg : Entries.get? es component with
    | none => simp [step, hg] at h
    | some found =>
      rw [step_mapping hg] at h
      cases h
      exact ⟨es, rfl, hg, rfl⟩
  | sequence items =>
    right
    cases hi : elementIndex? items component with
    | none => simp [step, hi] at h
    | some i =>
      have hlt := elementIndex?_lt hi
      have hf : items[i]? = some items[i] := List.getElem?_eq_getElem hlt
      rw [step_sequence hi hf] at h
      cases h
      exact ⟨items, i, rfl, hi, hf, rfl⟩

/-! ## Paths -/

theorem resolve_cons {n child : Node} {c d : String} (h : n.step c = .ok (d, child))
    (cs : List String) :
    n.resolve (c :: cs) = (child.resolve cs).mapError (·.within c) := by
  simp only [resolve, h]

theorem resolve_cons_ok {n m : Node} {c : String} {cs : List String} :
    n.resolve (c :: cs) = .ok m ↔
      ∃ d child, n.step c = .ok (d, child) ∧ child.resolve cs = .ok m := by
  cases h : n.step c with
  | error obstacle => simp [resolve, h]
  | ok found =>
    obtain ⟨d, child⟩ := found
    rw [resolve_cons h]
    constructor
    · intro hr
      cases hchild : child.resolve cs with
      | error fault => rw [hchild] at hr; cases hr
      | ok m' => rw [hchild] at hr; cases hr; exact ⟨d, child, rfl, hchild⟩
    · rintro ⟨d', child', heq, hr⟩
      cases heq
      rw [hr]
      rfl

theorem canonical_cons_ok {n : Node} {c : String} {cs ds : List String} :
    n.canonical (c :: cs) = .ok ds ↔ ∃ d child rest, n.step c = .ok (d, child) ∧
      child.canonical cs = .ok rest ∧ ds = d :: rest := by
  cases h : n.step c with
  | error obstacle => simp [canonical, h]
  | ok found =>
    obtain ⟨d, child⟩ := found
    simp only [canonical, h]
    constructor
    · intro hr
      cases hchild : child.canonical cs with
      | error fault => rw [hchild] at hr; cases hr
      | ok rest => rw [hchild] at hr; cases hr; exact ⟨d, child, rest, rfl, hchild, rfl⟩
    · rintro ⟨d', child', rest, heq, hr, rfl⟩
      cases heq
      rw [hr]

/-- A path that leads somewhere has a canonical form. -/
theorem exists_canonical_of_resolve : ∀ {n m : Node} {path : List String},
    n.resolve path = .ok m → ∃ c, n.canonical path = .ok c
  | _, _, [], _ => ⟨[], rfl⟩
  | _, _, _ :: _, h => by
    obtain ⟨d, child, hstep, hrest⟩ := resolve_cons_ok.mp h
    obtain ⟨c, hc⟩ := exists_canonical_of_resolve hrest
    exact ⟨d :: c, canonical_cons_ok.mpr ⟨d, child, c, hstep, hc, rfl⟩⟩

theorem replace_cons {n child child' value : Node} {c d : String} {cs : List String}
    (h : n.step c = .ok (d, child)) (hr : child.replace value cs = .ok child') :
    n.replace value (c :: cs) = .ok (n.withChild c child') := by
  simp only [replace, h, hr]

/-- A child of a mapping is replaced under its key. -/
theorem withChild_key {es : Entries Node} {key : String} {child : Node}
    (h : Entries.get? es key = some child) (child' : Node) :
    (mapping es).withChild key child' = mapping (Entries.insert es key child') := by
  rw [withChild, if_pos (by rw [Entries.contains, h]; rfl)]

/-- A child of a sequence is replaced at its index. -/
theorem withChild_item {items : List Node} {i : Nat} {child : Node} (hb : i < Numeral.indexBound)
    (h : items[i]? = some child) (child' : Node) :
    (sequence items).withChild (Numeral.text i) child' = sequence (items.set i child') := by
  simp only [withChild, elementIndex?_text hb, if_pos (List.getElem?_eq_some_iff.mp h).1]

/-! ## Positions -/

namespace At

theorem resolve {n m : Node} {path : List String} (h : n.At path m) :
    n.resolve path = .ok m := by
  induction h with
  | here => rfl
  | key found _ ih => exact resolve_cons_ok.mpr ⟨_, _, step_mapping found, ih⟩
  | item bound found _ ih => exact resolve_cons_ok.mpr ⟨_, _, step_item bound found, ih⟩

theorem canonical {n m : Node} {path : List String} (h : n.At path m) :
    n.canonical path = .ok path := by
  induction h with
  | here => rfl
  | key found _ ih => exact canonical_cons_ok.mpr ⟨_, _, _, step_mapping found, ih, rfl⟩
  | item bound found _ ih => exact canonical_cons_ok.mpr ⟨_, _, _, step_item bound found, ih, rfl⟩

/-- One node stands at a position. -/
theorem unique {n m m' : Node} {path : List String} (h : n.At path m) (h' : n.At path m') :
    m = m' := by
  have := h.resolve
  rw [h'.resolve] at this
  exact (Except.ok.inj this).symm

theorem append {n k m : Node} {p q : List String} (hp : n.At p k) (hq : k.At q m) :
    n.At (p ++ q) m := by
  induction hp with
  | here => exact hq
  | key found _ ih => exact .key found (ih hq)
  | item bound found _ ih => exact .item bound found (ih hq)

theorem exists_of_append {n m : Node} : ∀ {p q : List String}, n.At (p ++ q) m →
    ∃ k, n.At p k ∧ k.At q m
  | [], _, h => ⟨n, .here n, h⟩
  | c :: p, q, h => by
    rw [List.cons_append] at h
    cases h with
    | key found rest =>
      obtain ⟨k, hp, hq⟩ := exists_of_append rest
      exact ⟨k, .key found hp, hq⟩
    | item bound found rest =>
      obtain ⟨k, hp, hq⟩ := exists_of_append rest
      exact ⟨k, .item bound found hp, hq⟩

theorem of_item {items : List Node} {i : Nat} {item m : Node} {path : List String}
    (h : (Node.sequence items).At (Numeral.text i :: path) m) (hitem : items[i]? = some item) :
    item.At path m := by
  generalize hcomponent : Numeral.text i = component at h
  cases h with
  | item bound found rest =>
    rw [Numeral.text_injective hcomponent, found] at hitem
    cases hitem
    exact rest

/-- What stands one step down is what the step finds. -/
theorem step_eq {n child : Node} {d : String} (h : n.At [d] child) : n.step d = .ok (d, child) := by
  cases h with
  | key found rest =>
    cases rest
    exact step_mapping found
  | item bound found rest =>
    cases rest
    exact step_item bound found

/-- Nothing stands below a scalar. -/
theorem eq_nil_of_scalar {s : Scalar} {m : Node} {path : List String}
    (h : (Node.scalar s).At path m) : path = [] := by
  cases h
  rfl

theorem eq_of_beginning_scalar {n m : Node} {s : Scalar} {path other : List String}
    (hscalar : n.At path (.scalar s)) (hat : n.At other m) (h : path <+: other) : path = other := by
  obtain ⟨rest, rfl⟩ := h
  obtain ⟨k, hk, hrest⟩ := hat.exists_of_append
  rw [hk.unique hscalar] at hrest
  rw [hrest.eq_nil_of_scalar, List.append_nil]

end At

theorem at_cons_iff {n m : Node} {d : String} {path : List String} :
    n.At (d :: path) m ↔ ∃ child, n.At [d] child ∧ child.At path m := by
  constructor
  · intro h
    exact At.exists_of_append (p := [d]) h
  · rintro ⟨child, hd, hrest⟩
    exact hd.append hrest

/-- In a well-formed tree the canonical form of a path is the position that it leads to. -/
theorem canonical_at : ∀ {n : Node} {path c : List String}, n.WellFormed →
    n.canonical path = .ok c → ∃ m, n.At c m ∧ n.resolve path = .ok m
  | n, [], c, _, h => by
    cases h
    exact ⟨n, .here n, rfl⟩
  | n, component :: path, c, hwf, h => by
    obtain ⟨d, child, rest, hstep, hrest, rfl⟩ := canonical_cons_ok.mp h
    rcases step_cases hstep with ⟨es, rfl, hget, rfl⟩ | ⟨items, i, rfl, hi, hget, rfl⟩
    · have hchild := hwf.values _ (Entries.mem_of_get? hget)
      obtain ⟨m, hat, hresolve⟩ := canonical_at hchild hrest
      exact ⟨m, .key hget hat, resolve_cons_ok.mpr ⟨_, _, hstep, hresolve⟩⟩
    · have hchild := hwf.items _ (List.mem_of_getElem? hget)
      obtain ⟨m, hat, hresolve⟩ := canonical_at hchild hrest
      -- a component may be a name: what it finds has an index all the same
      exact ⟨m, .item (hwf.index_lt hget) hget hat,
        resolve_cons_ok.mpr ⟨_, _, hstep, hresolve⟩⟩

theorem length_canonical : ∀ {n : Node} {path c : List String}, n.canonical path = .ok c →
    c.length = path.length
  | _, [], c, h => by
    cases h
    rfl
  | n, component :: path, c, h => by
    obtain ⟨d, child, rest, -, hrest, rfl⟩ := canonical_cons_ok.mp h
    rw [List.length_cons, List.length_cons, length_canonical hrest]

end Node

namespace Cursor

variable {tree : Node}

theorem canonical_eq_ok_iff {c d : Cursor} :
    c.canonical tree = .ok d ↔ tree.canonical c.components = .ok d.components := by
  unfold canonical
  cases tree.canonical c.components with
  | error fault => simp [Except.map]
  | ok components => cases d; simp [Except.map]

theorem toOption_canonical_eq_some {path : List String} {c : Cursor} :
    (canonical ⟨path⟩ tree).toOption = some c ↔ tree.canonical path = .ok c.components := by
  unfold canonical
  cases tree.canonical path with
  | error fault => simp [Except.map, Except.toOption]
  | ok components => cases c; simp [Except.map, Except.toOption]

theorem toOption_canonical_eq_none {path : List String} :
    (canonical ⟨path⟩ tree).toOption = none ↔ ∀ c, tree.canonical path ≠ .ok c := by
  unfold canonical
  cases tree.canonical path <;> simp [Except.map, Except.toOption]

end Cursor

end Laminate
