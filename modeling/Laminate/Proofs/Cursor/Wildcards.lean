import Laminate.Cursor.Glob
import Laminate.Proofs.Cursor.Spot

/-!
# What a cursor with wildcards stands for

A position matches a cursor if it has as many components and each of its steps is one that the
component of the cursor stands for (`Node.Matches`). Expanding the cursor gives exactly the
positions that match, in document order (`mem_childPaths_iff`, `pairwise_childPaths`). It fails if
the components before the first wildcard lead nowhere, or to a scalar for which a wildcard should
stand for children, and in no other case (`glob_lists_matches`).
-/

namespace Laminate

namespace Node

/-- What a component stands for: a wildcard for every step, a key of a mapping for this key, and a
component in a sequence for the element that it finds. -/
inductive Fits : Node → String → String → Prop
  | wildcard (n : Node) (d : String) : Fits n wildcard d
  | key (es : Entries Node) (key : String) : Fits (.mapping es) key key
  | item {items : List Node} {component : String} {i : Nat} {child : Node}
      (found : (sequence items).Finds component i child) :
      Fits (.sequence items) component (Numeral.text i)

/-- A position of a tree matches a path with wildcards: it has as many components, and each of its
steps is one for which the component of the path stands. -/
structure Matches (tree : Node) (pattern path : List String) : Prop where
  length_eq : path.length = pattern.length
  exists_at : ∃ m, tree.At path m
  fits : ∀ (i : Nat) (component d : String), pattern[i]? = some component → path[i]? = some d →
    ∃ n, tree.At (path.take i) n ∧ n.Fits component d

/-- Document order: at the first step in which two paths part, the first one goes to the child with
the smaller number. -/
def Before (tree : Node) (path path' : List String) : Prop :=
  ∃ spot spot' m m', tree.Leads path spot m ∧ tree.Leads path' spot' m' ∧
    List.Lex (· < ·) spot spot'

variable {n m child : Node} {c d : String} {cs ds path path' : List String}

/-! ## Children -/

theorem getElem?_children (n : Node) (i : Nat) : n.children[i]? = n.numbered? i := by
  cases n with
  | scalar s => rfl
  | sequence items =>
    simp only [children, numbered?, List.getElem?_map, List.getElem?_zipIdx, Nat.zero_add,
      Option.map_map]
    rfl
  | mapping es => rfl

/-- The canonical component of a child finds it. -/
theorem finds_of_numbered? (hwf : n.WellFormed) {i : Nat} (h : n.numbered? i = some (d, child)) :
    n.Finds d i child := by
  cases n with
  | scalar s => cases h
  | sequence items =>
    obtain ⟨item, hitem, heq⟩ := Option.map_eq_some_iff.mp h
    cases heq
    exact .index (Numeral.index?_text (hwf.index_lt hitem)) hitem
  | mapping es => exact .key h

/-- The children are what stands one step down. -/
theorem mem_children_iff (hwf : n.WellFormed) : (d, child) ∈ n.children ↔ n.At [d] child := by
  cases n with
  | scalar s => exact ⟨nofun, nofun⟩
  | sequence items =>
    rw [List.mem_iff_getElem?]
    simp only [getElem?_children, numbered?, Option.map_eq_some_iff, Prod.mk.injEq]
    constructor
    · rintro ⟨i, item, hitem, rfl, rfl⟩
      exact .item (hwf.index_lt hitem) hitem (.here item)
    · intro h
      cases h with
      | item bound found rest =>
        cases rest
        exact ⟨_, child, found, rfl, rfl⟩
  | mapping es =>
    constructor
    · intro h
      exact .key (Entries.get?_of_mem hwf.nodup h) (.here child)
    · intro h
      cases h with
      | key found rest =>
        cases rest
        exact Entries.mem_of_get? found

/-- A component stands for the children at the steps that it fits. -/
theorem mem_childrenAt_iff (hwf : n.WellFormed) :
    (d, child) ∈ n.childrenAt c ↔ n.Fits c d ∧ n.At [d] child := by
  unfold childrenAt
  by_cases hc : c = wildcard
  · subst hc
    rw [if_pos rfl, mem_children_iff hwf]
    exact ⟨fun h => ⟨.wildcard n d, h⟩, fun h => h.2⟩
  · rw [if_neg hc]
    constructor
    · intro h
      cases hstep : n.step c with
      | error obstacle =>
        rw [hstep] at h
        cases h
      | ok found =>
        rw [hstep] at h
        obtain rfl := List.mem_singleton.mp h
        rcases step_cases hstep with ⟨es, rfl, hget, rfl⟩ | ⟨items, i, rfl, hi, hget, rfl⟩
        · exact ⟨.key es _, .key hget (.here child)⟩
        · exact ⟨.item (finds_sequence_iff.mpr ⟨hi, hget⟩),
            .item (hwf.index_lt hget) hget (.here child)⟩
    · rintro ⟨hfits, hat⟩
      cases hfits with
      | wildcard => exact absurd rfl hc
      | key es key =>
        rw [hat.step_eq]
        exact List.mem_singleton_self _
      | item found =>
        obtain ⟨hi, hget⟩ := finds_sequence_iff.mp found
        cases hat.of_item hget
        rw [step_sequence hi hget]
        exact List.mem_singleton_self _

/-! ## Positions that match -/

theorem matches_nil_iff : n.Matches [] ds ↔ ds = [] := by
  constructor
  · intro h
    exact List.length_eq_zero_iff.mp h.length_eq
  · rintro rfl
    exact ⟨rfl, ⟨n, .here n⟩, fun i component d h => nomatch h⟩

theorem matches_cons_iff : n.Matches (c :: cs) (d :: ds) ↔
    n.Fits c d ∧ ∃ child, n.At [d] child ∧ child.Matches cs ds := by
  constructor
  · rintro ⟨hlength, ⟨m, hm⟩, hfits⟩
    obtain ⟨child, hchild, hrest⟩ := at_cons_iff.mp hm
    obtain ⟨k, hk, hfirst⟩ := hfits 0 c d rfl rfl
    obtain rfl := hk.unique (.here n)
    refine ⟨hfirst, child, hchild, Nat.succ.inj hlength, ⟨m, hrest⟩, fun i component e hc he => ?_⟩
    obtain ⟨k, hk, hfit⟩ := hfits (i + 1) component e hc he
    obtain ⟨child', hchild', hk'⟩ := at_cons_iff.mp hk
    obtain rfl := hchild'.unique hchild
    exact ⟨k, hk', hfit⟩
  · rintro ⟨hfirst, child, hchild, hlength, ⟨m, hm⟩, hfits⟩
    refine ⟨congrArg (· + 1) hlength, ⟨m, at_cons_iff.mpr ⟨child, hchild, hm⟩⟩, ?_⟩
    intro i component e hc he
    cases i with
    | zero =>
      cases hc
      cases he
      exact ⟨n, .here n, hfirst⟩
    | succ i =>
      obtain ⟨k, hk, hfit⟩ := hfits i component e hc he
      exact ⟨k, at_cons_iff.mpr ⟨child, hchild, hk⟩, hfit⟩

/-- **The expansion of a path are the positions that match it.** -/
theorem mem_childPaths_iff : ∀ {n : Node} {ds : List String}, n.WellFormed →
    (ds ∈ n.childPaths cs ↔ n.Matches cs ds) := by
  induction cs with
  | nil =>
    intro n ds _
    rw [matches_nil_iff]
    exact List.mem_singleton
  | cons c cs ih =>
    intro n ds hwf
    simp only [childPaths, List.mem_flatMap, List.mem_map, Prod.exists]
    constructor
    · rintro ⟨d, child, hmem, rest, hrest, rfl⟩
      obtain ⟨hfits, hat⟩ := (mem_childrenAt_iff hwf).mp hmem
      exact matches_cons_iff.mpr ⟨hfits, child, hat, (ih (hwf.resolve hat.resolve)).mp hrest⟩
    · intro h
      cases ds with
      | nil => cases h.length_eq
      | cons d rest =>
        obtain ⟨hfits, child, hat, hrest⟩ := matches_cons_iff.mp h
        exact ⟨d, child, (mem_childrenAt_iff hwf).mpr ⟨hfits, hat⟩, rest,
          (ih (hwf.resolve hat.resolve)).mpr hrest, rfl⟩

/-! ## Document order -/

/-- Children are listed in the order of their numbers. -/
theorem pairwise_childrenAt (hwf : n.WellFormed) (c : String) :
    (n.childrenAt c).Pairwise fun a b =>
      ∃ i j, i < j ∧ n.Finds a.1 i a.2 ∧ n.Finds b.1 j b.2 := by
  unfold childrenAt
  split
  · rw [List.pairwise_iff_getElem]
    intro i j hi hj hij
    have hfinds : ∀ k (hk : k < n.children.length),
        n.Finds n.children[k].1 k n.children[k].2 := by
      intro k hk
      refine finds_of_numbered? hwf ?_
      rw [← getElem?_children, List.getElem?_eq_getElem hk]
    exact ⟨i, j, hij, hfinds i hi, hfinds j hj⟩
  · split
    · exact List.pairwise_singleton _ _
    · exact List.Pairwise.nil

theorem exists_leads_of_mem (hwf : n.WellFormed) (h : path ∈ n.childPaths cs) :
    ∃ spot m, n.Leads path spot m := by
  obtain ⟨m, hm⟩ := ((mem_childPaths_iff hwf).mp h).exists_at
  obtain ⟨spot, hleads⟩ := exists_leads_of_resolve hm.resolve
  exact ⟨spot, m, hleads⟩

theorem Finds.wellFormed {i : Nat} (h : n.Finds c i child) (hwf : n.WellFormed) :
    child.WellFormed := by
  obtain ⟨d, hstep, -, -⟩ := h.step hwf
  exact hwf.step hstep

theorem before_cons {i : Nat} (hfinds : n.Finds d i child) (h : child.Before path path') :
    n.Before (d :: path) (d :: path') := by
  obtain ⟨spot, spot', m, m', hleads, hleads', hlt⟩ := h
  exact ⟨i :: spot, i :: spot', m, m', .step hfinds hleads, .step hfinds hleads', .cons hlt⟩

/-- **The expansion of a path is in document order.** -/
theorem pairwise_childPaths : ∀ {n : Node}, n.WellFormed → (n.childPaths cs).Pairwise n.Before := by
  induction cs with
  | nil => exact fun _ => List.pairwise_singleton _ _
  | cons c cs ih =>
    intro n hwf
    rw [childPaths, List.pairwise_flatMap]
    refine ⟨fun found hfound => ?_, (pairwise_childrenAt hwf c).imp fun hab x hx y hy => ?_⟩
    · -- paths through one child
      obtain ⟨d, child⟩ := found
      have hat := ((mem_childrenAt_iff hwf).mp hfound).2
      obtain ⟨i, hfinds⟩ := exists_finds_of_step hat.step_eq
      exact List.pairwise_map.mpr ((ih (hfinds.wellFormed hwf)).imp fun h => before_cons hfinds h)
    · -- paths through different children
      obtain ⟨i, j, hij, ha, hb⟩ := hab
      obtain ⟨p, hp, rfl⟩ := List.mem_map.mp hx
      obtain ⟨q, hq, rfl⟩ := List.mem_map.mp hy
      obtain ⟨spot, m, hleads⟩ := exists_leads_of_mem (ha.wellFormed hwf) hp
      obtain ⟨spot', m', hleads'⟩ := exists_leads_of_mem (hb.wellFormed hwf) hq
      exact ⟨i :: spot, j :: spot', m, m', .step ha hleads, .step hb hleads', .rel hij⟩

/-- No path is before itself. -/
theorem before_irrefl (hwf : n.WellFormed) (path : List String) : ¬n.Before path path := by
  rintro ⟨spot, spot', m, m', hleads, hleads', hlt⟩
  obtain rfl := (hleads.canonical_eq_iff hleads' hwf).mp rfl
  exact List.lex_irrefl Nat.lt_irrefl spot hlt

/-! ## Expansion -/

theorem glob_wildcard_scalar (s : Scalar) (cs : List String) :
    (scalar s).glob (wildcard :: cs)
      = .error ⟨[wildcard], .noSubObjects s.kind⟩ := by
  simp [glob]

theorem glob_wildcard (h : n.isScalar = false) (cs : List String) :
    n.glob (wildcard :: cs) = .ok (n.childPaths (wildcard :: cs)) := by
  cases n with
  | scalar s => cases h
  | sequence items => simp [glob]
  | mapping es => simp [glob]

theorem glob_of_step_error {obstacle : Obstacle} (hc : c ≠ wildcard)
    (h : n.step c = .error obstacle) (cs : List String) :
    n.glob (c :: cs) = .error ⟨[c], .missing⟩ := by
  cases n <;> simp only [glob, if_neg hc, h]

theorem glob_of_step (hc : c ≠ wildcard) (h : n.step c = .ok (d, child))
    (cs : List String) :
    n.glob (c :: cs) =
      match child.glob cs with
      | .ok found => .ok (found.map (d :: ·))
      | .error fault => .error (fault.within d) := by
  cases hrest : child.glob cs <;> cases n <;> simp only [glob, if_neg hc, h, hrest]

/-- A component that is no wildcard is followed. -/
theorem glob_cons_eq_ok (hc : c ≠ wildcard) {found : List (List String)} :
    n.glob (c :: cs) = .ok found ↔ ∃ d child rest, n.step c = .ok (d, child) ∧
      child.glob cs = .ok rest ∧ found = rest.map (d :: ·) := by
  cases hstep : n.step c with
  | error obstacle => simp [glob_of_step_error hc hstep]
  | ok next =>
    obtain ⟨d, child⟩ := next
    rw [glob_of_step hc hstep]
    constructor
    · intro h
      cases hrest : child.glob cs with
      | error fault => rw [hrest] at h; cases h
      | ok rest => rw [hrest] at h; cases h; exact ⟨d, child, rest, rfl, hrest, rfl⟩
    · rintro ⟨_, _, rest, heq, hrest, rfl⟩
      cases heq
      rw [hrest]

theorem eq_childPaths_of_glob : ∀ {n : Node} {found : List (List String)},
    n.glob cs = .ok found → found = n.childPaths cs := by
  induction cs with
  | nil =>
    rintro n found ⟨⟩
    rfl
  | cons c cs ih =>
    intro n found h
    by_cases hc : c = wildcard
    · subst hc
      cases hscalar : n.isScalar with
      | true =>
        cases n with
        | scalar s =>
          rw [glob_wildcard_scalar] at h
          cases h
        | _ => cases hscalar
      | false =>
        rw [glob_wildcard hscalar] at h
        exact (Except.ok.inj h).symm
    · obtain ⟨d, child, rest, hstep, hrest, rfl⟩ := (glob_cons_eq_ok hc).mp h
      simp [childPaths, childrenAt, hc, hstep, ih hrest]

/-! ## Paths that cannot be expanded -/

/-- The components before the first wildcard. -/
def stem (pattern : List String) : List String :=
  pattern.takeWhile (· ≠ wildcard)

theorem stem_wildcard (cs : List String) : stem (wildcard :: cs) = [] := by
  simp [stem]

theorem stem_cons (hc : c ≠ wildcard) (cs : List String) :
    stem (c :: cs) = c :: stem cs := by
  simp [stem, hc]

/-- A path is expanded if its components before the first wildcard lead somewhere, and not to a
scalar if a wildcard follows. -/
theorem exists_glob_iff : ∀ {n : Node}, (∃ found, n.glob cs = .ok found) ↔
    ∃ m, n.resolve (stem cs) = .ok m ∧ (wildcard ∈ cs → m.isScalar = false) := by
  induction cs with
  | nil => exact fun {n} => ⟨fun _ => ⟨n, rfl, nofun⟩, fun _ => ⟨[[]], rfl⟩⟩
  | cons c cs ih =>
    intro n
    by_cases hc : c = wildcard
    · subst hc
      rw [stem_wildcard]
      constructor
      · rintro ⟨found, h⟩
        refine ⟨n, rfl, fun _ => ?_⟩
        cases n with
        | scalar s =>
          rw [glob_wildcard_scalar] at h
          cases h
        | _ => rfl
      · rintro ⟨m, ⟨⟩, hscalar⟩
        exact ⟨_, glob_wildcard (hscalar List.mem_cons_self) cs⟩
    · have hmem : wildcard ∈ c :: cs ↔ wildcard ∈ cs := by
        simp [Ne.symm hc]
      simp only [stem_cons hc, glob_cons_eq_ok hc, resolve_cons_ok, hmem]
      constructor
      · rintro ⟨_, d, child, rest, hstep, hrest, rfl⟩
        obtain ⟨m, hm, hscalar⟩ := ih.mp ⟨rest, hrest⟩
        exact ⟨m, ⟨d, child, hstep, hm⟩, hscalar⟩
      · rintro ⟨m, ⟨d, child, hstep, hm⟩, hscalar⟩
        obtain ⟨rest, hrest⟩ := ih.mpr ⟨m, hm, hscalar⟩
        exact ⟨_, d, child, rest, hstep, hrest, rfl⟩

theorem exists_glob_error_iff : (∃ fault, n.glob cs = .error fault) ↔
    (∃ fault, n.resolve (stem cs) = .error fault) ∨
      ∃ s, n.resolve (stem cs) = .ok (.scalar s) ∧ wildcard ∈ cs := by
  have hok : (∃ found, n.glob cs = .ok found) ↔ ∃ m, n.resolve (stem cs) = .ok m ∧
      (wildcard ∈ cs → m.isScalar = false) := exists_glob_iff
  constructor
  · rintro ⟨fault, h⟩
    cases hstem : n.resolve (stem cs) with
    | error fault' => exact .inl ⟨fault', rfl⟩
    | ok m =>
      right
      by_cases hexpands : wildcard ∈ cs → m.isScalar = false
      · obtain ⟨found, hfound⟩ := hok.mpr ⟨m, hstem, hexpands⟩
        rw [hfound] at h
        cases h
      · obtain ⟨hmem, hscalar⟩ := Classical.not_imp.mp hexpands
        cases m with
        | scalar s => exact ⟨s, rfl, hmem⟩
        | _ => exact absurd rfl hscalar
  · intro h
    cases hglob : n.glob cs with
    | error fault => exact ⟨fault, rfl⟩
    | ok found =>
      obtain ⟨m, hm, hscalar⟩ := hok.mp ⟨found, hglob⟩
      rcases h with ⟨fault, hfault⟩ | ⟨s, hs, hmem⟩
      · rw [hm] at hfault
        cases hfault
      · rw [hm] at hs
        cases hs
        cases hscalar hmem

/-- Without a wildcard there is one match, the canonical form. -/
theorem glob_eq_ok_of_notMem : ∀ {n : Node} {found : List (List String)},
    wildcard ∉ cs →
    (n.glob cs = .ok found ↔ ∃ ds, n.canonical cs = .ok ds ∧ found = [ds]) := by
  induction cs with
  | nil =>
    intro n found _
    constructor
    · rintro ⟨⟩
      exact ⟨[], rfl, rfl⟩
    · rintro ⟨_, ⟨⟩, rfl⟩
      rfl
  | cons c cs ih =>
    intro n found hmem
    simp only [List.mem_cons, not_or] at hmem
    simp only [glob_cons_eq_ok (Ne.symm hmem.1), canonical_cons_ok, ih hmem.2]
    constructor
    · rintro ⟨d, child, _, hstep, ⟨ds, hds, rfl⟩, rfl⟩
      exact ⟨d :: ds, ⟨d, child, ds, hstep, hds, rfl⟩, rfl⟩
    · rintro ⟨_, ⟨d, child, ds, hstep, hds, rfl⟩, rfl⟩
      exact ⟨d, child, [ds], hstep, ⟨ds, hds, rfl⟩, rfl⟩

end Node

namespace Cursor

variable {tree : Node} {c : Cursor} {found : List Cursor}

/-- The cursor before its first wildcard. -/
def stem (c : Cursor) : Cursor :=
  ⟨Node.stem c.components⟩

/-- A list of the positions that match a cursor: all of them, once each and in document order, in
canonical form, and each leads somewhere. -/
structure ListsMatches (tree : Node) (c : Cursor) (found : List Cursor) : Prop where
  mem_iff : ∀ d : Cursor, d ∈ found ↔ tree.Matches c.components d.components
  nodup : found.Nodup
  in_order : found.Pairwise fun d e => tree.Before d.components e.components
  canonical : ∀ d ∈ found, d.canonical tree = .ok d
  resolve : ∀ d ∈ found, ∃ m, d.resolve tree = .ok m

theorem glob_eq_ok_iff :
    c.glob tree = .ok found ↔ tree.glob c.components = .ok (found.map components) := by
  unfold glob
  cases tree.glob c.components with
  | error fault => exact ⟨nofun, nofun⟩
  | ok paths =>
    simp only [Except.map, Except.ok.injEq]
    constructor
    · rintro rfl
      simp [Function.comp_def]
    · rintro rfl
      simp [Function.comp_def]

theorem exists_glob_error : (∃ fault, c.glob tree = .error fault) ↔
    ∃ fault, tree.glob c.components = .error fault := by
  unfold glob
  cases tree.glob c.components <;> simp [Except.map]

theorem listsMatches_of_glob (hwf : tree.WellFormed) (h : c.glob tree = .ok found) :
    ListsMatches tree c found := by
  have hpaths : found.map components = tree.childPaths c.components :=
    Node.eq_childPaths_of_glob (glob_eq_ok_iff.mp h)
  have hmem : ∀ d : Cursor, d ∈ found ↔ tree.Matches c.components d.components := by
    intro d
    rw [← Node.mem_childPaths_iff hwf, ← hpaths, List.mem_map]
    refine ⟨fun hd => ⟨d, hd, rfl⟩, ?_⟩
    rintro ⟨⟨components⟩, he, rfl⟩
    exact he
  have horder : found.Pairwise fun d e => tree.Before d.components e.components := by
    rw [← List.pairwise_map, hpaths]
    exact Node.pairwise_childPaths hwf
  have hat : ∀ d ∈ found, ∃ m, tree.At d.components m := fun d hd => ((hmem d).mp hd).exists_at
  refine ⟨hmem, horder.imp ?_, horder, fun d hd => ?_, fun d hd => ?_⟩
  · rintro d _ hbefore rfl
    exact Node.before_irrefl hwf d.components hbefore
  · obtain ⟨m, hm⟩ := hat d hd
    rw [Cursor.canonical, hm.canonical]
    rfl
  · obtain ⟨m, hm⟩ := hat d hd
    exact ⟨m, hm.resolve⟩

/-- **A cursor with wildcards cannot be expanded if and only if its components before the first
wildcard lead nowhere, or to a scalar. Otherwise its expansion lists the positions that match it,
all of them, once each and in document order; without a wildcard it is the canonical form
alone.** -/
theorem glob_lists_matches {tree : Node} (hwf : tree.WellFormed) (c : Cursor) :
    ((∃ fault, c.glob tree = .error fault) ↔ (∃ fault, c.stem.resolve tree = .error fault) ∨
      ∃ s, c.stem.resolve tree = .ok (.scalar s) ∧ wildcard ∈ c.components) ∧
    (∀ found, c.glob tree = .ok found → ListsMatches tree c found) ∧
    (wildcard ∉ c.components → ∀ found, c.glob tree = .ok found ↔
      ∃ d, c.canonical tree = .ok d ∧ found = [d]) := by
  refine ⟨?_, fun found => listsMatches_of_glob hwf, fun hmem found => ?_⟩
  · rw [exists_glob_error]
    exact Node.exists_glob_error_iff
  · rw [glob_eq_ok_iff, Node.glob_eq_ok_of_notMem hmem]
    simp only [canonical_eq_ok_iff, List.map_eq_singleton_iff]
    constructor
    · rintro ⟨_, hcanonical, d, rfl, rfl⟩
      exact ⟨d, hcanonical, rfl⟩
    · rintro ⟨d, hcanonical, rfl⟩
      exact ⟨d.components, hcanonical, d, rfl, rfl⟩

/-- A mapping with a list, a mapping and a scalar in it. -/
def mixed : Node :=
  .mapping [("a", .sequence [.string "x", .mapping [("name", .string "x"), ("v", .integer 1)]]),
    ("b", .mapping [("x", .mapping [("v", .integer 2)])]), ("c", .string "x")]

/-- In the list the name finds the second element; the scalar is passed over. -/
theorem glob_lists_matches_of_mixed :
    mixed.WellFormed ∧
    glob ⟨["*", "x", "*"]⟩ mixed
      = .ok [⟨["a", "1", "name"]⟩, ⟨["a", "1", "v"]⟩, ⟨["b", "x", "v"]⟩] ∧
    ListsMatches mixed ⟨["*", "x", "*"]⟩
      [⟨["a", "1", "name"]⟩, ⟨["a", "1", "v"]⟩, ⟨["b", "x", "v"]⟩] := by
  have hwf : mixed.WellFormed := by decide
  have hglob : glob ⟨["*", "x", "*"]⟩ mixed
      = .ok [⟨["a", "1", "name"]⟩, ⟨["a", "1", "v"]⟩, ⟨["b", "x", "v"]⟩] := rfl
  exact ⟨hwf, hglob, (glob_lists_matches hwf _).2.1 _ hglob⟩

end Cursor

end Laminate
