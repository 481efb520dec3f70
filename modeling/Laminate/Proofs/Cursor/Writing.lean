import Laminate.Proofs.Cursor.Spot

/-!
# Writing is local

Writing to the end of a path changes one child of each container on the way, which keeps its shape
(`sameShape_withChild`), and leaves all positions that part from the path as they are
(`At.exists_writtenAt`). A cursor and its canonical form write to the same place, so this holds of
writing through any cursor, and the canonical form leads to what was written even where a name on
the way has changed (`replace_local`).
-/

namespace Laminate

namespace Node

/-- Containers of one kind, with the same keys in the same order or with as many items. -/
inductive SameShape : Node → Node → Prop
  | mapping {es es' : Entries Node} (keys_eq : Entries.keys es = Entries.keys es') :
      SameShape (.mapping es) (.mapping es')
  | sequence {items items' : List Node} (length_eq : items.length = items'.length) :
      SameShape (.sequence items) (.sequence items')

/-- The second tree is the first one with a value at a position: the value stands there, what stood
at positions that part from it stands there still, and the containers on the way keep their
shapes. -/
structure WrittenAt (n n' : Node) (path : List String) (value : Node) : Prop where
  written : n'.At path value
  elsewhere : ∀ (other : List String) (m : Node), ¬other <+: path → ¬path <+: other →
    n.At other m → n'.At other m
  on_the_way : ∀ (before : List String) (d : String) (rest : List String),
    path = before ++ d :: rest → ∃ k k', n.At before k ∧ n'.At before k' ∧ k.SameShape k'

/-! ## One step -/

section Step

variable {n child other : Node} {d e : String}

theorem sameShape_withChild (h : n.At [d] child) (value : Node) :
    n.SameShape (n.withChild d value) := by
  cases h with
  | key found _ =>
    rw [withChild_key found]
    exact .mapping (by rw [Entries.keys_insert, if_pos (Entries.mem_keys_of_get? found)])
  | item bound found _ =>
    rw [withChild_item bound found]
    exact .sequence (by rw [List.length_set])

theorem at_withChild (h : n.At [d] child) (value : Node) : (n.withChild d value).At [d] value := by
  cases h with
  | key found _ =>
    rw [withChild_key found]
    exact .key (by rw [Entries.get?_insert, if_pos rfl]) (.here value)
  | item bound found _ =>
    rw [withChild_item bound found]
    exact .item bound (List.getElem?_set_self (List.getElem?_eq_some_iff.mp found).1) (.here value)

theorem at_withChild_of_ne (h : n.At [d] child) (hother : n.At [e] other) (hne : e ≠ d)
    (value : Node) : (n.withChild d value).At [e] other := by
  cases h with
  | key found _ =>
    rw [withChild_key found]
    cases hother with
    | key found' rest =>
      exact .key (by rw [Entries.get?_insert, if_neg (Ne.symm hne), found']) rest
  | @item items i _ _ _ bound found _ =>
    rw [withChild_item bound found]
    cases hother with
    | @item _ j _ _ _ bound' found' rest =>
      have hij : i ≠ j := by
        rintro rfl
        exact hne rfl
      exact .item bound' (by rw [List.getElem?_set_ne hij, found']) rest

end Step

/-! ## Paths -/

/-- **Writing to a position changes what stands there and nothing beside it.** -/
theorem At.exists_writtenAt {path : List String} : ∀ {n m : Node}, n.At path m → ∀ value : Node,
    ∃ n', n.replace value path = .ok n' ∧ n.WrittenAt n' path value := by
  induction path with
  | nil =>
    intro n m _ value
    refine ⟨value, rfl, .here value, fun other _ _ hother => ?_, fun before d rest heq => ?_⟩
    · exact absurd List.nil_prefix hother
    · cases before <;> cases heq
  | cons d path ih =>
    intro n m h value
    obtain ⟨child, hchild, hrest⟩ := at_cons_iff.mp h
    obtain ⟨child', hreplace, hwritten⟩ := ih hrest value
    refine ⟨n.withChild d child', replace_cons hchild.step_eq hreplace, ?_, ?_, ?_⟩
    · exact at_cons_iff.mpr ⟨child', at_withChild hchild child', hwritten.written⟩
    · intro other k hother hpath hk
      cases other with
      | nil => exact absurd List.nil_prefix hother
      | cons e other =>
        obtain ⟨c, hc, hrest'⟩ := at_cons_iff.mp hk
        by_cases he : e = d
        · -- the other position lies below the same child
          subst he
          obtain rfl := hc.unique hchild
          refine at_cons_iff.mpr ⟨child', at_withChild hchild child', ?_⟩
          exact hwritten.elsewhere other k
            (fun hprefix => hother (List.cons_prefix_cons.mpr ⟨rfl, hprefix⟩))
            (fun hprefix => hpath (List.cons_prefix_cons.mpr ⟨rfl, hprefix⟩)) hrest'
        · exact at_cons_iff.mpr ⟨c, at_withChild_of_ne hchild hc he child', hrest'⟩
    · intro before e rest heq
      cases before with
      | nil => exact ⟨n, _, .here n, .here _, sameShape_withChild hchild child'⟩
      | cons b before =>
        obtain ⟨rfl, rfl⟩ := List.cons.inj heq
        obtain ⟨k, k', hk, hk', hshape⟩ := hwritten.on_the_way before e rest rfl
        exact ⟨k, k', at_cons_iff.mpr ⟨child, hchild, hk⟩,
          at_cons_iff.mpr ⟨child', at_withChild hchild child', hk'⟩, hshape⟩

end Node

namespace Cursor

/-- The second tree differs from the first one in what a canonical cursor leads to, and in nothing
else: canonical cursors that lead neither to it nor below it nor to a container on the way lead to
the same nodes, and the containers on the way keep their shapes. -/
structure DiffersAt (tree tree' : Node) (c : Cursor) (value : Node) : Prop where
  written : c.resolve tree' = .ok value
  elsewhere : ∀ q : Cursor, q.canonical tree = .ok q → c.within q = false → q.under c = false →
    q.resolve tree' = q.resolve tree
  on_the_way : ∀ b : Cursor, c.under b = true → ∃ n n', b.resolve tree = .ok n ∧
    b.resolve tree' = .ok n' ∧ n.SameShape n'

variable {tree tree' : Node} {c q b : Cursor} {value : Node}

/-- A canonical cursor is the position that it leads to. -/
theorem exists_at_of_canonical_self (hwf : tree.WellFormed) (h : q.canonical tree = .ok q) :
    ∃ m, tree.At q.components m := by
  obtain ⟨m, hat, -⟩ := Node.canonical_at hwf (canonical_eq_ok_iff.mp h)
  exact ⟨m, hat⟩

theorem exists_append_of_under (h : c.under b = true) :
    ∃ d rest, c.components = b.components ++ d :: rest := by
  simp only [under, Bool.and_eq_true, decide_eq_true_eq, beq_iff_eq] at h
  obtain ⟨hdepth, htake⟩ := h
  refine ⟨c.components[b.depth], c.components.drop (b.depth + 1), ?_⟩
  rw [← List.drop_eq_getElem_cons hdepth, ← htake, List.take_append_drop]

theorem differsAt_of_writtenAt (hwf : tree.WellFormed)
    (h : tree.WrittenAt tree' c.components value) : DiffersAt tree tree' c value where
  written := h.written.resolve
  elsewhere := by
    intro q hq hway hbelow
    obtain ⟨m, hm⟩ := exists_at_of_canonical_self hwf hq
    have hprefix : ¬q.components <+: c.components := by
      rw [← within_iff, hway]
      exact Bool.false_ne_true
    have hprefix' : ¬c.components <+: q.components := by
      rw [← within_iff, within, hbelow, Bool.or_false, beq_iff_eq]
      rintro rfl
      exact hprefix (List.prefix_refl _)
    rw [resolve, resolve, hm.resolve, (h.elsewhere q.components m hprefix hprefix' hm).resolve]
  on_the_way := by
    intro b hb
    obtain ⟨d, rest, heq⟩ := exists_append_of_under hb
    obtain ⟨k, k', hk, hk', hshape⟩ := h.on_the_way b.components d rest heq
    exact ⟨k, k', hk.resolve, hk'.resolve, hshape⟩

/-- **Writing through a cursor is writing through its canonical form, and it is local: the canonical
form leads to the value, what canonical cursors elsewhere lead to is the same as before, and the
containers on the way keep their kind, their keys in order and their length.** -/
theorem replace_local {tree : Node} (hwf : tree.WellFormed) {p c : Cursor}
    (h : p.canonical tree = .ok c) (value : Node) :
    ∃ tree', p.replace tree value = .ok tree' ∧ c.replace tree value = .ok tree' ∧
      DiffersAt tree tree' c value := by
  obtain ⟨m, hat, hresolve⟩ := Node.canonical_at hwf (canonical_eq_ok_iff.mp h)
  obtain ⟨spot, canon, hreaches⟩ := exists_reaches hwf (c := p) hresolve
  obtain rfl : c = canon := Except.ok.inj (h.symm.trans hreaches.canonical)
  obtain ⟨tree', hreplace, hwritten⟩ := hat.exists_writtenAt value
  refine ⟨tree', ?_, hreplace, differsAt_of_writtenAt hwf hwritten⟩
  -- both come to the same spot
  rw [hreaches.replace value, ← hreaches.canon_leads.replace hwf value]
  exact hreplace

/-- The name on the way is what is written, so only the canonical form leads there afterwards. -/
theorem replace_local_of_name_on_the_way :
    overlapping.WellFormed ∧
    canonical ⟨["list", "y", "key"]⟩ overlapping = .ok ⟨["list", "1", "key"]⟩ ∧
    ∃ tree', replace ⟨["list", "y", "key"]⟩ overlapping (.string "z") = .ok tree' ∧
      replace ⟨["list", "1", "key"]⟩ overlapping (.string "z") = .ok tree' ∧
      DiffersAt overlapping tree' ⟨["list", "1", "key"]⟩ (.string "z") := by
  have hwf : overlapping.WellFormed := by decide
  have hcanonical : canonical ⟨["list", "y", "key"]⟩ overlapping = .ok ⟨["list", "1", "key"]⟩ := rfl
  exact ⟨hwf, hcanonical, replace_local hwf hcanonical _⟩

end Cursor

end Laminate
