import Laminate.Proofs.Cursor.WellFormed
import Laminate.Proofs.Node.WellFormed

/-!
# Spots

A spot is a place in a tree that is told by numbers alone, the number of a child at each level. Keys,
names and the spelling of indices play no part in it, so two cursors lead to the same place if they
lead to the same spot, whatever they look like.

Looking up, writing and making canonical walk along a cursor, each on its own. All three take the
same step everywhere (`Finds`), so they come to the same spot and its canonical form is the same for
every cursor that leads there, or they stop at the same component for the same reason
(`walks_agree`).
-/

namespace Laminate

/-- A place in a tree: the number of the child to go to at each level, from the root on. -/
abbrev Spot := List Nat

namespace Node

/-- The child that a component finds, and its number. In a mapping it is the value under this key;
in a sequence the element of this index or, if the component is no index, the first element of this
name. -/
inductive Finds : Node → String → Nat → Node → Prop
  | key {es : Entries Node} {key : String} {i : Nat} {child : Node}
      (found : es[i]? = some (key, child)) : Finds (.mapping es) key i child
  | index {items : List Node} {component : String} {i : Nat} {child : Node}
      (number : Numeral.index? component.toList = some i) (found : items[i]? = some child) :
      Finds (.sequence items) component i child
  | name {items : List Node} {component : String} {i : Nat} {child : Node}
      (no_number : Numeral.index? component.toList = none) (found : items[i]? = some child)
      (named : child.isNamed component = true)
      (first : ∀ other ∈ items.take i, other.isNamed component = false) :
      Finds (.sequence items) component i child

/-- The spot that a path leads to, and what stands there. -/
inductive Leads : Node → List String → Spot → Node → Prop
  | here (n : Node) : Leads n [] [] n
  | step {n child m : Node} {component : String} {i : Nat} {path : List String} {spot : Spot}
      (found : n.Finds component i child) (rest : Leads child path spot m) :
      Leads n (component :: path) (i :: spot) m

/-- The child with a number, after its canonical component. -/
def numbered? (n : Node) (i : Nat) : Option (String × Node) :=
  match n with
  | mapping es => es[i]?
  | sequence items => items[i]?.map (Numeral.text i, ·)
  | scalar _ => none

/-- The tree with its child of this number changed; unchanged if it has none. -/
def changeChild (n : Node) (i : Nat) (f : Node → Node) : Node :=
  match n with
  | mapping es => mapping (es.modify i fun e => (e.1, f e.2))
  | sequence items => sequence (items.modify i f)
  | scalar s => scalar s

/-- The tree with another node at a spot. -/
def put (n : Node) (spot : Spot) (value : Node) : Node :=
  match spot with
  | [] => value
  | i :: spot => n.changeChild i fun child => child.put spot value

/-! ## One step -/

section Step

variable {n child child' : Node} {component component' d : String} {i i' : Nat}

theorem finds_sequence_iff {items : List Node} :
    (sequence items).Finds component i child ↔
      elementIndex? items component = some i ∧ items[i]? = some child := by
  constructor
  · intro h
    cases h with
    | index number found => exact ⟨(elementIndex?_eq_some_iff found).mpr (.inl number), found⟩
    | name no_number found named first =>
      exact ⟨(elementIndex?_eq_some_iff found).mpr (.inr ⟨no_number, named, first⟩), found⟩
  · rintro ⟨hi, found⟩
    rcases (elementIndex?_eq_some_iff found).mp hi with number | ⟨no_number, named, first⟩
    · exact .index number found
    · exact .name no_number found named first

theorem exists_finds_of_step (h : n.step component = .ok (d, child)) :
    ∃ i, n.Finds component i child := by
  rcases step_cases h with ⟨es, rfl, hget, -⟩ | ⟨items, i, rfl, hi, hget, -⟩
  · obtain ⟨i, hi⟩ := List.mem_iff_getElem?.mp (Entries.mem_of_get? hget)
    exact ⟨i, .key hi⟩
  · exact ⟨i, finds_sequence_iff.mpr ⟨hi, hget⟩⟩

/-- Every walk steps to the child that the component finds, and its canonical component finds it as
well. -/
theorem Finds.step (hwf : n.WellFormed) (h : n.Finds component i child) :
    ∃ d, n.step component = .ok (d, child) ∧ n.numbered? i = some (d, child) ∧
      n.Finds d i child := by
  cases n with
  | scalar s => cases h
  | mapping es =>
    cases h with
    | key found =>
      have hget := Entries.get?_of_mem hwf.nodup (List.mem_of_getElem? found)
      exact ⟨component, step_mapping hget, found, .key found⟩
  | sequence items =>
    obtain ⟨hi, found⟩ := finds_sequence_iff.mp h
    have hindex := Numeral.index?_text (hwf.index_lt found)
    refine ⟨Numeral.text i, step_sequence hi found, ?_, .index hindex found⟩
    rw [numbered?, found, Option.map_some]

theorem numbered?_injective (hwf : n.WellFormed) (h : n.numbered? i = some (d, child))
    (h' : n.numbered? i' = some (d, child')) : i = i' := by
  cases n with
  | scalar s => cases h
  | mapping es =>
    have hkey : ∀ {j : Nat} {m : Node}, es[j]? = some (d, m) →
        (Entries.keys es)[j]? = some d := by
      intro j m hj
      rw [Entries.keys, List.getElem?_map, hj, Option.map_some]
    have hlt := (List.getElem?_eq_some_iff.mp (hkey h)).1
    exact (List.getElem?_inj hlt hwf.nodup).mp ((hkey h).trans (hkey h').symm)
  | sequence items =>
    obtain ⟨_, -, heq⟩ := Option.map_eq_some_iff.mp h
    obtain ⟨_, -, heq'⟩ := Option.map_eq_some_iff.mp h'
    exact Numeral.text_injective ((Prod.mk.inj heq).1.trans (Prod.mk.inj heq').1.symm)

/-- Writing below a component changes the child that it finds. -/
theorem Finds.withChild (hwf : n.WellFormed) (h : n.Finds component i child) (f : Node → Node) :
    n.withChild component (f child) = n.changeChild i f := by
  cases n with
  | scalar s => cases h
  | mapping es =>
    cases h with
    | key found =>
      have hcontains : Entries.contains es component = true :=
        (Entries.contains_iff es component).mpr (List.mem_map_of_mem (List.mem_of_getElem? found))
      rw [Node.withChild, if_pos hcontains, Entries.insert_eq_modify hwf.nodup found, changeChild]
  | sequence items =>
    obtain ⟨hi, found⟩ := finds_sequence_iff.mp h
    simp only [Node.withChild, hi]
    rw [changeChild, List.modify_eq_set, found, Option.getD_some]

end Step

/-! ## Paths that lead to a spot -/

section Paths

variable {n m m' : Node} {path path' : List String} {spot spot' : Spot}

theorem exists_leads_of_resolve : ∀ {n m : Node} {path : List String}, n.resolve path = .ok m →
    ∃ spot, n.Leads path spot m
  | n, _, [], h => by
    cases h
    exact ⟨[], .here n⟩
  | n, _, component :: path, h => by
    obtain ⟨d, child, hstep, hrest⟩ := resolve_cons_ok.mp h
    obtain ⟨i, hfinds⟩ := exists_finds_of_step hstep
    obtain ⟨spot, hleads⟩ := exists_leads_of_resolve hrest
    exact ⟨i :: spot, .step hfinds hleads⟩

namespace Leads

theorem resolve (h : n.Leads path spot m) (hwf : n.WellFormed) : n.resolve path = .ok m := by
  induction h with
  | here => rfl
  | step found _ ih =>
    obtain ⟨d, hstep, -, -⟩ := found.step hwf
    exact resolve_cons_ok.mpr ⟨d, _, hstep, ih (hwf.step hstep)⟩

theorem replace (h : n.Leads path spot m) (hwf : n.WellFormed) (value : Node) :
    n.replace value path = .ok (n.put spot value) := by
  induction h with
  | here => rfl
  | step found _ ih =>
    obtain ⟨d, hstep, -, -⟩ := found.step hwf
    rw [replace_cons hstep (ih (hwf.step hstep)), found.withChild hwf (put · _ value), put]

theorem canonical (h : n.Leads path spot m) (hwf : n.WellFormed) :
    ∃ d, n.canonical path = .ok d ∧ n.Leads d spot m := by
  induction h with
  | here n => exact ⟨[], rfl, .here n⟩
  | step found _ ih =>
    obtain ⟨d, hstep, -, hfinds⟩ := found.step hwf
    obtain ⟨ds, hcanonical, hleads⟩ := ih (hwf.step hstep)
    exact ⟨d :: ds, canonical_cons_ok.mpr ⟨d, _, ds, hstep, hcanonical, rfl⟩, .step hfinds hleads⟩

/-- Paths have the same canonical form if and only if they lead to the same spot. -/
theorem canonical_eq_iff (h : n.Leads path spot m) (h' : n.Leads path' spot' m')
    (hwf : n.WellFormed) : n.canonical path = n.canonical path' ↔ spot = spot' := by
  induction h generalizing path' spot' m' with
  | here n =>
    cases h' with
    | here => exact iff_of_true rfl rfl
    | step found rest =>
      refine iff_of_false (fun heq => ?_) nofun
      obtain ⟨d, child, ds, -, -, hnil⟩ := canonical_cons_ok.mp heq.symm
      cases hnil
  | step found rest ih =>
    obtain ⟨d, hstep, hnumbered, -⟩ := found.step hwf
    have hchild := hwf.step hstep
    obtain ⟨ds, hds, -⟩ := rest.canonical hchild
    rw [canonical_cons_ok.mpr ⟨d, _, ds, hstep, hds, rfl⟩]
    cases h' with
    | here => exact iff_of_false nofun nofun
    | step found' rest' =>
      obtain ⟨d', hstep', hnumbered', -⟩ := found'.step hwf
      obtain ⟨ds', hds', -⟩ := rest'.canonical (hwf.step hstep')
      rw [canonical_cons_ok.mpr ⟨d', _, ds', hstep', hds', rfl⟩, Except.ok.injEq, List.cons.injEq,
        List.cons.injEq]
      -- the numbers of the children agree if and only if their canonical components do
      constructor
      · rintro ⟨rfl, rfl⟩
        obtain rfl := numbered?_injective hwf hnumbered hnumbered'
        rw [hnumbered] at hnumbered'
        cases hnumbered'
        exact ⟨rfl, (ih rest' hchild).mp (hds.trans hds'.symm)⟩
      · rintro ⟨rfl, hspot⟩
        rw [hnumbered] at hnumbered'
        cases hnumbered'
        have heq := (ih rest' hchild).mpr hspot
        rw [hds, hds'] at heq
        exact ⟨rfl, Except.ok.inj heq⟩

end Leads

end Paths

/-! ## Paths that lead nowhere -/

section Nowhere

variable {n m : Node} {before after : List String} {component : String} {obstacle : Obstacle}

/-- What the reason that is given for a failing step says about the node and the component. -/
structure Explains (obstacle : Obstacle) (n : Node) (component : String) : Prop where
  outOfBounds_iff : ∀ i size, obstacle = .outOfBounds i size ↔
    ∃ items, n = .sequence items ∧ Numeral.index? component.toList = some i ∧ size = items.length
  noSubObjects_iff : ∀ kind, obstacle = .noSubObjects kind ↔ ∃ s, n = .scalar s ∧ kind = s.kind
  missing_iff : obstacle = .missing ↔ (∃ es, n = .mapping es) ∨
    ∃ items, n = .sequence items ∧ Numeral.index? component.toList = none

theorem step_sequence_error {items : List Node}
    (h : (sequence items).step component = .error obstacle) :
    obstacle = elementObstacle items component := by
  simp only [step] at h
  split at h
  · split at h
    · cases h
    · exact (Except.error.inj h).symm
  · exact (Except.error.inj h).symm

theorem explains_of_step_error (h : n.step component = .error obstacle) :
    Explains obstacle n component := by
  cases n with
  | scalar s =>
    cases h
    exact ⟨by simp, by simp [eq_comm], by simp⟩
  | mapping es =>
    simp only [step] at h
    split at h
    · cases h
    · cases h
      exact ⟨by simp, by simp, by simp⟩
  | sequence items =>
    obtain rfl := step_sequence_error h
    unfold elementObstacle
    cases hnumber : Numeral.index? component.toList with
    | none => exact ⟨by simp [hnumber], by simp, by simp [hnumber]⟩
    | some k => exact ⟨by simp [hnumber, eq_comm], by simp, by simp [hnumber]⟩

/-- A path that leads nowhere leads somewhere up to a component at which no step can be taken. -/
theorem exists_step_error : ∀ {n : Node} {path : List String} {fault : NotFound},
    n.resolve path = .error fault → ∃ before component after m obstacle,
      path = before ++ component :: after ∧ n.resolve before = .ok m ∧
      m.step component = .error obstacle
  | n, component :: path, fault, h => by
    cases hstep : n.step component with
    | error obstacle => exact ⟨[], component, path, n, obstacle, rfl, rfl, hstep⟩
    | ok found =>
      obtain ⟨d, child⟩ := found
      rw [resolve_cons hstep] at h
      cases hrest : child.resolve path with
      | ok m =>
        rw [hrest] at h
        cases h
      | error fault' =>
        obtain ⟨before, c, after, m, obstacle, rfl, hm, hc⟩ := exists_step_error hrest
        exact ⟨component :: before, c, after, m, obstacle, rfl,
          resolve_cons_ok.mpr ⟨d, child, hstep, hm⟩, hc⟩

theorem exists_resolve_of_append {p q : List String} (h : n.resolve (p ++ q) = .ok m) :
    ∃ k, n.resolve p = .ok k := by
  induction p generalizing n with
  | nil => exact ⟨n, rfl⟩
  | cons c p ih =>
    obtain ⟨d, child, hstep, hrest⟩ := resolve_cons_ok.mp h
    obtain ⟨k, hk⟩ := ih hrest
    exact ⟨k, resolve_cons_ok.mpr ⟨d, child, hstep, hk⟩⟩

theorem resolve_of_step_error (hm : n.resolve before = .ok m)
    (h : m.step component = .error obstacle) (after : List String) :
    n.resolve (before ++ component :: after) = .error ⟨before ++ [component], obstacle⟩ := by
  induction before generalizing n with
  | nil =>
    cases hm
    rw [List.nil_append, resolve, h]
    rfl
  | cons c before ih =>
    obtain ⟨d, child, hstep, hrest⟩ := resolve_cons_ok.mp hm
    rw [List.cons_append, resolve_cons hstep, ih hrest]
    rfl

theorem replace_of_step_error (hm : n.resolve before = .ok m)
    (h : m.step component = .error obstacle) (after : List String) (value : Node) :
    n.replace value (before ++ component :: after)
      = .error ⟨before ++ [component], obstacle⟩ := by
  induction before generalizing n with
  | nil =>
    cases hm
    rw [List.nil_append, replace, h]
    rfl
  | cons c before ih =>
    obtain ⟨d, child, hstep, hrest⟩ := resolve_cons_ok.mp hm
    simp only [List.cons_append, replace, hstep, ih hrest]
    rfl

theorem canonical_of_step_error (hm : n.resolve before = .ok m)
    (h : m.step component = .error obstacle) (after : List String) :
    ∃ ds, n.canonical before = .ok ds ∧
      n.canonical (before ++ component :: after) = .error ⟨ds ++ [component], obstacle⟩ := by
  induction before generalizing n with
  | nil =>
    cases hm
    refine ⟨[], rfl, ?_⟩
    rw [List.nil_append, canonical, h]
    rfl
  | cons c before ih =>
    obtain ⟨d, child, hstep, hrest⟩ := resolve_cons_ok.mp hm
    obtain ⟨ds, hds, herror⟩ := ih hrest
    refine ⟨d :: ds, canonical_cons_ok.mpr ⟨d, child, ds, hstep, hds, rfl⟩, ?_⟩
    simp only [List.cons_append, canonical, hstep, herror]
    rfl

/-- Of the beginnings of a path that leads nowhere, those lead somewhere that end before the
component at fault. -/
theorem resolve_beginning_iff (hm : n.resolve before = .ok m)
    (h : m.step component = .error obstacle) {beginning : List String}
    (hbeginning : beginning <+: before ++ component :: after) :
    (∃ k, n.resolve beginning = .ok k) ↔ beginning.length < (before ++ [component]).length := by
  rw [List.length_append, List.length_singleton, Nat.lt_succ_iff]
  constructor
  · rintro ⟨k, hk⟩
    refine Nat.le_of_not_lt fun hlong => ?_
    have hfault : before ++ [component] <+: beginning := by
      refine List.prefix_of_prefix_length_le ⟨after, by simp⟩ hbeginning ?_
      rw [List.length_append, List.length_singleton]
      omega
    obtain ⟨rest, rfl⟩ := hfault
    rw [List.append_assoc, List.singleton_append, resolve_of_step_error hm h] at hk
    cases hk
  · intro hshort
    obtain ⟨rest, rfl⟩ := List.prefix_of_prefix_length_le hbeginning ⟨_, rfl⟩ hshort
    exact exists_resolve_of_append hm

end Nowhere

end Node

namespace Cursor

/-- All walks along a cursor come to a spot of a tree, and the canonical form leads there by keys and
indices. -/
structure Reaches (c : Cursor) (tree : Node) (spot : Spot) (m : Node) (canon : Cursor) : Prop where
  leads : tree.Leads c.components spot m
  resolve : c.resolve tree = .ok m
  replace : ∀ value, c.replace tree value = .ok (tree.put spot value)
  canonical : c.canonical tree = .ok canon
  depth : canon.depth = c.depth
  position : tree.At canon.components m
  canon_leads : tree.Leads canon.components spot m
  canon_canonical : canon.canonical tree = .ok canon

/-- All walks along a cursor stop at the same component for the same reason. -/
structure StopsWith (c : Cursor) (tree : Node) (fault : NotFound) : Prop where
  leads_nowhere : ∀ spot m, ¬ tree.Leads c.components spot m
  resolve : c.resolve tree = .error fault
  replace : ∀ value, c.replace tree value = .error fault
  begins : fault.path <+: c.components
  shortest : ∀ beginning, beginning <+: c.components →
    ((∃ m, Cursor.resolve ⟨beginning⟩ tree = .ok m) ↔ beginning.length < fault.path.length)
  step : ∃ before component m canon, fault.path = before ++ [component] ∧
    Cursor.resolve ⟨before⟩ tree = .ok m ∧ Node.Explains fault.obstacle m component ∧
    Cursor.canonical ⟨before⟩ tree = .ok canon ∧
    c.canonical tree = .error ⟨canon.components ++ [component], fault.obstacle⟩

variable {tree : Node} {c : Cursor}

theorem exists_reaches (hwf : tree.WellFormed) {m : Node} (h : c.resolve tree = .ok m) :
    ∃ spot canon, c.Reaches tree spot m canon := by
  obtain ⟨spot, hleads⟩ := Node.exists_leads_of_resolve h
  obtain ⟨ds, hcanonical, hds⟩ := hleads.canonical hwf
  obtain ⟨k, hat, hk⟩ := Node.canonical_at hwf hcanonical
  obtain rfl : m = k := Except.ok.inj (h.symm.trans hk)
  exact ⟨spot, ⟨ds⟩, {
    leads := hleads
    resolve := h
    replace := hleads.replace hwf
    canonical := by rw [canonical, hcanonical]; rfl
    depth := Node.length_canonical hcanonical
    position := hat
    canon_leads := hds
    canon_canonical := by rw [canonical, hat.canonical]; rfl }⟩

theorem stopsWith (hwf : tree.WellFormed) {fault : NotFound} (h : c.resolve tree = .error fault) :
    c.StopsWith tree fault := by
  obtain ⟨before, component, after, m, obstacle, hpath, hm, hstep⟩ := Node.exists_step_error h
  obtain ⟨components⟩ := c
  obtain rfl : components = before ++ component :: after := hpath
  have hfault := Node.resolve_of_step_error hm hstep after
  obtain rfl : fault = ⟨before ++ [component], obstacle⟩ := Except.error.inj (h.symm.trans hfault)
  obtain ⟨ds, hds, hcanonical⟩ := Node.canonical_of_step_error hm hstep after
  exact {
    leads_nowhere := fun spot m hleads => by
      rw [hleads.resolve hwf] at hfault
      cases hfault
    resolve := h
    replace := Node.replace_of_step_error hm hstep after
    begins := ⟨after, by simp⟩
    shortest := fun beginning => Node.resolve_beginning_iff hm hstep
    step := ⟨before, component, m, ⟨ds⟩, rfl, hm, Node.explains_of_step_error hstep,
      by rw [canonical, hds]; rfl, by rw [canonical, hcanonical]; rfl⟩ }

/-- **Looking up, writing and making canonical agree on every cursor: they all come to one spot of
the tree, or they all stop at the same component for the same reason; and two cursors that lead
somewhere have the same canonical form if and only if they lead to the same spot.** -/
theorem walks_agree {tree : Node} (hwf : tree.WellFormed) :
    (∀ c : Cursor, (∃ spot m canon, c.Reaches tree spot m canon) ∨
      ∃ fault, c.StopsWith tree fault) ∧
    ∀ (c c' : Cursor) (spot spot' : Spot) (m m' : Node),
      tree.Leads c.components spot m → tree.Leads c'.components spot' m' →
      (c.canonical tree = c'.canonical tree ↔ spot = spot') := by
  constructor
  · intro c
    cases h : c.resolve tree with
    | ok m =>
      obtain ⟨spot, canon, hreaches⟩ := exists_reaches hwf h
      exact .inl ⟨spot, m, canon, hreaches⟩
    | error fault => exact .inr ⟨fault, stopsWith hwf h⟩
  · intro c c' spot spot' m m' hleads hleads'
    obtain ⟨ds, hds, -⟩ := hleads.canonical hwf
    obtain ⟨ds', hds', -⟩ := hleads'.canonical hwf
    rw [← hleads.canonical_eq_iff hleads' hwf, canonical, canonical, hds, hds']
    simp [Except.map]

/-- A list in which the `id` of an element is the name of a later one. -/
def overlapping : Node :=
  .mapping [("list", .sequence [.mapping [("id", .string "x")],
    .mapping [("name", .string "x"), ("key", .string "y")]])]

theorem walks_agree_on_overlapping_names :
    overlapping.WellFormed ∧
    Cursor.canonical ⟨["list", "y"]⟩ overlapping = Cursor.canonical ⟨["list", "+01"]⟩ overlapping ∧
    Cursor.canonical ⟨["list", "x"]⟩ overlapping ≠ Cursor.canonical ⟨["list", "y"]⟩ overlapping := by
  have hwf : overlapping.WellFormed := by decide
  obtain ⟨-, hsame⟩ := walks_agree hwf
  have hx : overlapping.Leads ["list", "x"] [0, 0] (.mapping [("id", .string "x")]) :=
    .step (.key rfl) (.step (.name (by decide) rfl (by decide) nofun) (.here _))
  have hy : overlapping.Leads ["list", "y"] [0, 1] (.mapping [("name", .string "x"),
      ("key", .string "y")]) :=
    .step (.key rfl) (.step (.name (by decide) rfl (by decide) (by decide)) (.here _))
  have hone : overlapping.Leads ["list", "+01"] [0, 1] (.mapping [("name", .string "x"),
      ("key", .string "y")]) :=
    .step (.key rfl) (.step (.index (by decide) rfl) (.here _))
  refine ⟨hwf, (hsame ⟨_⟩ ⟨_⟩ _ _ _ _ hy hone).mpr rfl, fun heq => ?_⟩
  cases (hsame ⟨_⟩ ⟨_⟩ _ _ _ _ hx hy).mp heq

end Cursor

end Laminate
