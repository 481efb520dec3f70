import Laminate.Proofs.Node.WellFormed
import Laminate.Proofs.Prune.Taking

/-!
# Pruning removes what it names

Canonical paths are removed from last to first. A node is removed from a tree that lacks those
behind it in the order of pruning: what contains it is still there, and so are the elements before
it in its list and in the lists on the way to it. So its position is still the one it had in the
whole tree, and to remove it is to leave out one more position (`remove?_without`). All removals
together leave out the canonical positions of the paths, and no others (`prune_eq_without`).
-/

namespace Laminate

open Node

namespace Prune

/-! ## The order of pruning -/

theorem compareComponents_self (c : String) : compareComponents c c = .eq := by
  unfold compareComponents
  cases Numeral.index? c.toList with
  | none => exact Std.ReflOrd.compare_self
  | some i => exact Std.ReflOrd.compare_self

theorem compareComponents_swap (a b : String) :
    compareComponents a b = (compareComponents b a).swap := by
  unfold compareComponents
  cases Numeral.index? a.toList with
  | none =>
    cases Numeral.index? b.toList with
    | none => exact Std.OrientedOrd.eq_swap
    | some j => exact Std.OrientedOrd.eq_swap
  | some i =>
    cases Numeral.index? b.toList with
    | none => exact Std.OrientedOrd.eq_swap
    | some j => exact Std.OrientedOrd.eq_swap

theorem comparePaths_cons (c : String) (p q : List String) :
    comparePaths (c :: p) (c :: q) = comparePaths p q := by
  rw [comparePaths, compareComponents_self]
  rfl

theorem comparePaths_append (front p q : List String) :
    comparePaths (front ++ p) (front ++ q) = comparePaths p q := by
  induction front with
  | nil => rfl
  | cons c front ih => rw [List.cons_append, List.cons_append, comparePaths_cons, ih]

theorem comparePaths_swap : ∀ p q : List String, comparePaths p q = (comparePaths q p).swap
  | [], [] => rfl
  | [], _ :: _ => rfl
  | _ :: _, [] => rfl
  | x :: xs, y :: ys => by
    rw [comparePaths, comparePaths, Ordering.swap_then, ← compareComponents_swap,
      ← comparePaths_swap xs ys]

/-- What contains a node comes before it. -/
theorem comparePaths_container (c : String) {rest : List String} (h : rest ≠ []) :
    comparePaths [c] (c :: rest) = .lt := by
  rw [comparePaths_cons]
  cases rest with
  | nil => exact absurd rfl h
  | cons d rest => rfl

/-- An element comes before the elements behind it in its list, and before what is below them. -/
theorem comparePaths_element {i j : Nat} (hj : j < i) (hi : i < Numeral.indexBound)
    (rest : List String) : comparePaths [Numeral.text j] (Numeral.text i :: rest) = .lt := by
  have hcompare : compareComponents (Numeral.text j) (Numeral.text i) = .lt := by
    rw [compareComponents, Numeral.index?_text (Nat.lt_trans hj hi), Numeral.index?_text hi]
    exact Nat.compare_eq_lt.mpr hj
  rw [comparePaths, hcompare]
  rfl

/-- What stands in the way of a position comes before it. -/
theorem comparePaths_of_inWay {other path : List String} (h : InWay other path) :
    comparePaths other path = .lt := by
  cases h with
  | container front c h => rw [comparePaths_append, comparePaths_container c h]
  | element front rest hj hi => rw [comparePaths_append, comparePaths_element hj hi]

/-! ## Removing from behind -/

/-- All chosen positions come behind a position in the order of pruning. -/
def Behind (gone : Positions) (path : List String) : Prop :=
  ∀ other, gone other = true → comparePaths other path ≠ .lt ∧ other ≠ path

theorem Behind.open {gone : Positions} {path : List String} (h : Behind gone path) :
    Open gone path := fun other hother =>
  Bool.eq_false_iff.mpr fun htrue => (h other htrue).1 (comparePaths_of_inWay hother)

/-- **To remove a node from a tree that lacks nodes behind it in the order of pruning is to leave
out one more position of the whole tree.** -/
theorem remove?_without {n m : Node} {path : List String} (h : n.At path m) {gone : Positions}
    (hpath : path ≠ []) (hwf : n.WellFormed) (hbehind : Behind gone path) :
    remove? (n.without gone) ⟨path⟩ = some (n.without (gone.insert path)) := by
  obtain ⟨taken, htakes, hremove⟩ := removesOneMore_of_open h hpath hwf hbehind.open
  cases htakes with
  | named _ => exact hremove
  | later hgone _ _ => exact absurd rfl (hbehind path hgone).2
  | nothing hgone _ => exact absurd rfl (hbehind path hgone).2

/-! ## The order of removals -/

/-- The canonical forms of the paths that lead somewhere, the root apart. -/
def canonicalForms (tree : Node) (paths : List Cursor) : List Cursor :=
  (paths.filter fun c => !c.isRoot).filterMap fun c => (c.canonical tree).toOption

/-- The order of pruning is transitive on these paths. -/
def TransitiveOn (paths : List Cursor) : Prop :=
  ∀ a ∈ paths, ∀ b ∈ paths, ∀ c ∈ paths,
    (comparePaths a.components b.components).isGE = true →
    (comparePaths b.components c.components).isGE = true →
    (comparePaths a.components c.components).isGE = true

/-- The paths are in the order of their removal: none comes before one that follows it. -/
abbrev LastFirst (paths : List Cursor) : Prop :=
  paths.Pairwise fun a b => comparePaths a.components b.components ≠ .lt

/-- The order of components is transitive on these components. -/
def TransitiveOnComponents (components : List String) : Prop :=
  ∀ x ∈ components, ∀ y ∈ components, ∀ z ∈ components,
    (compareComponents x y).isGE = true → (compareComponents y z).isGE = true →
    (compareComponents x z).isGE = true

section Transitive

theorem isGE_comparePaths_cons {x y : String} {xs ys : List String} :
    (comparePaths (x :: xs) (y :: ys)).isGE = true ↔
      compareComponents x y = .gt ∨
      compareComponents x y = .eq ∧ (comparePaths xs ys).isGE = true := by
  rw [comparePaths]
  cases compareComponents x y <;> simp [Ordering.then]

theorem isGE_comparePaths_trans {components : List String}
    (h : TransitiveOnComponents components) : ∀ {xs ys zs : List String},
    xs ⊆ components → ys ⊆ components → zs ⊆ components →
    (comparePaths xs ys).isGE = true → (comparePaths ys zs).isGE = true →
    (comparePaths xs zs).isGE = true
  | xs, ys, [], _, _, _, _, _ => by cases xs <;> rfl
  | _, [], z :: zs, _, _, _, _, hyz => by cases hyz
  | [], y :: ys, z :: zs, _, _, _, hxy, _ => by cases hxy
  | x :: xs, y :: ys, z :: zs, hxs, hys, hzs, hxy, hyz => by
    obtain ⟨hx, hxs⟩ := List.cons_subset.mp hxs
    obtain ⟨hy, hys⟩ := List.cons_subset.mp hys
    obtain ⟨hz, hzs⟩ := List.cons_subset.mp hzs
    rw [isGE_comparePaths_cons] at hxy hyz ⊢
    have hxz := h x hx y hy z hz
    have hzyx := h z hz x hx y hy
    have hyzx := h y hy z hz x hx
    -- if the two steps end where they began, neither of them goes down
    rw [compareComponents_swap z x, compareComponents_swap z y] at hzyx
    rw [compareComponents_swap z x, compareComponents_swap y x] at hyzx
    have ih := isGE_comparePaths_trans h hxs hys hzs
    rcases hxy with hxy | ⟨hxy, hxys⟩ <;> rcases hyz with hyz | ⟨hyz, hyzs⟩ <;>
      cases hxz' : compareComponents x z <;> simp_all [Ordering.isGE]

/-- An order that is transitive on the components of paths is transitive on the paths. -/
theorem transitiveOn_of_components {paths : List Cursor}
    (h : TransitiveOnComponents (paths.flatMap Cursor.components)) : TransitiveOn paths := by
  have hsub : ∀ c ∈ paths, c.components ⊆ paths.flatMap Cursor.components := fun c hc _ hx =>
    List.mem_flatMap.mpr ⟨c, hc, hx⟩
  intro a ha b hb c hc
  exact isGE_comparePaths_trans h (hsub a ha) (hsub b hb) (hsub c hc)

end Transitive

section Sorting

variable {α : Type} {le : α → α → Bool} {l : List α}

/-- Sorting compares the elements of the list alone. -/
theorem map_val_mergeSort_attach (le : α → α → Bool) (l : List α) :
    (l.attach.mergeSort fun a b => le a.1 b.1).map Subtype.val = l.mergeSort le := by
  rw [List.map_mergeSort (s := le) fun _ _ _ _ => rfl, List.attach_map_subtype_val]

theorem pairwise_mergeSort_of_mem
    (trans : ∀ a ∈ l, ∀ b ∈ l, ∀ c ∈ l, le a b = true → le b c = true → le a c = true)
    (total : ∀ a b, (le a b || le b a) = true) :
    (l.mergeSort le).Pairwise fun a b => le a b = true := by
  have hsorted : (l.attach.mergeSort fun a b => le a.1 b.1).Pairwise
      fun a b => le a.1 b.1 = true :=
    List.pairwise_mergeSort (fun a b c => trans a.1 a.2 b.1 b.2 c.1 c.2)
      (fun a b => total a.1 b.1) _
  rw [← map_val_mergeSort_attach]
  exact List.pairwise_map.mpr hsorted

theorem sublist_mergeSort_of_mem {s : List α}
    (trans : ∀ a ∈ l, ∀ b ∈ l, ∀ c ∈ l, le a b = true → le b c = true → le a c = true)
    (total : ∀ a b, (le a b || le b a) = true) (hs : s.Pairwise fun a b => le a b = true)
    (h : s.Sublist l) : s.Sublist (l.mergeSort le) := by
  obtain ⟨s', hs', rfl⟩ : ∃ s' : List { x // x ∈ l }, s'.Sublist l.attach ∧
      s = s'.map Subtype.val :=
    List.sublist_map_iff.mp (by rwa [List.attach_map_subtype_val])
  have hsorted : s'.Sublist (l.attach.mergeSort fun a b => le a.1 b.1) :=
    List.sublist_mergeSort (fun a b c => trans a.1 a.2 b.1 b.2 c.1 c.2)
      (fun a b => total a.1 b.1) (List.pairwise_map.mp hs) hs'
  rw [← map_val_mergeSort_attach]
  exact hsorted.map Subtype.val

end Sorting

theorem isGE_comparePaths_total (p q : List String) :
    ((comparePaths p q).isGE || (comparePaths q p).isGE) = true := by
  rw [comparePaths_swap q p]
  cases comparePaths p q <;> rfl

theorem lastFirst_sorted {tree : Node} {paths : List Cursor}
    (htrans : TransitiveOn (canonicalForms tree paths)) :
    LastFirst ((canonicalForms tree paths).mergeSort
      fun a b => (comparePaths a.components b.components).isGE) := by
  refine (pairwise_mergeSort_of_mem htrans fun a b => isGE_comparePaths_total _ _).imp ?_
  intro a b h heq
  rw [heq] at h
  cases h

theorem dropRepeated_of_nodup : ∀ {cs : List Cursor}, cs.Nodup → dropRepeated cs = cs
  | [], _ => rfl
  | [_], _ => rfl
  | a :: b :: rest, h => by
    obtain ⟨hnot, hrest⟩ := List.nodup_cons.mp h
    have hne : a ≠ b := fun heq => hnot (heq ▸ List.mem_cons_self)
    rw [dropRepeated, if_neg hne, dropRepeated_of_nodup hrest]

/-- Distinct canonical forms are removed each before those that come before it. -/
theorem pairwise_targets {tree : Node} {paths : List Cursor}
    (hdistinct : (canonicalForms tree paths).Nodup)
    (htrans : TransitiveOn (canonicalForms tree paths)) :
    (targets tree paths).Perm (canonicalForms tree paths) ∧ LastFirst (targets tree paths) := by
  have hperm := List.mergeSort_perm (canonicalForms tree paths)
    fun a b => (comparePaths a.components b.components).isGE
  have htargets : targets tree paths = (canonicalForms tree paths).mergeSort
      fun a b => (comparePaths a.components b.components).isGE :=
    dropRepeated_of_nodup (hperm.nodup_iff.mpr hdistinct)
  rw [htargets]
  exact ⟨hperm, lastFirst_sorted htrans⟩

/-! ## All removals -/

theorem at_of_mem_canonicalForms {tree : Node} (hwf : tree.WellFormed) {paths : List Cursor}
    {c : Cursor} (h : c ∈ canonicalForms tree paths) :
    c.components ≠ [] ∧ ∃ m, tree.At c.components m := by
  obtain ⟨path, hpath, hcanonical⟩ := List.mem_filterMap.mp h
  obtain ⟨-, hroot⟩ := List.mem_filter.mp hpath
  have hcanonical := Cursor.toOption_canonical_eq_some.mp hcanonical
  obtain ⟨m, hat, -⟩ := canonical_at hwf hcanonical
  refine ⟨fun hnil => ?_, m, hat⟩
  -- a canonical form is as long as its path
  have hlength := length_canonical hcanonical
  rw [hnil, List.length_nil, eq_comm, List.length_eq_zero_iff] at hlength
  simp [Cursor.isRoot, hlength] at hroot

/-- Targets that are removed one after the other, each before those that come before it, are left
out all at once. -/
theorem foldl_step_without {tree : Node} (hwf : tree.WellFormed) {rest : List Cursor}
    (hrest : ∀ c ∈ rest, c.components ≠ [] ∧ ∃ m, tree.At c.components m) :
    ∀ {gone : Positions} (count : Nat), rest.Nodup → LastFirst rest →
    (∀ c ∈ rest, Behind gone c.components) →
    rest.foldl step (tree.without gone, count)
      = (tree.without fun path => gone path || decide (⟨path⟩ ∈ rest), count + rest.length) := by
  induction rest with
  | nil =>
    intro gone count _ _ _
    simp
  | cons c rest ih =>
    intro gone count hnodup hsorted hbehind
    obtain ⟨⟨hne, m, hat⟩, hrest⟩ := List.forall_mem_cons.mp hrest
    obtain ⟨hbehindc, hbehind⟩ := List.forall_mem_cons.mp hbehind
    obtain ⟨hnot, hnodup⟩ := List.nodup_cons.mp hnodup
    obtain ⟨hfirst, hsorted⟩ := List.pairwise_cons.mp hsorted
    have hremove : remove? (tree.without gone) c
        = some (tree.without (gone.insert c.components)) :=
      remove?_without hat hne hwf hbehindc
    -- what is removed is behind all that is still to be removed
    have hbehind' : ∀ d ∈ rest, Behind (gone.insert c.components) d.components := by
      intro d hd other hother
      by_cases heq : other = c.components
      · subst heq
        refine ⟨hfirst d hd, fun hcd => hnot ?_⟩
        obtain rfl : c = d := by cases c; cases d; exact congrArg _ hcd
        exact hd
      · rw [Positions.insert_of_ne heq] at hother
        exact hbehind d hd other hother
    have hpositions : (fun path => gone.insert c.components path || decide (⟨path⟩ ∈ rest))
        = fun path => gone path || decide (⟨path⟩ ∈ c :: rest) := by
      funext path
      cases c
      simp only [Positions.insert, Bool.or_assoc, Bool.beq_eq_decide_eq, List.mem_cons,
        Bool.decide_or, Cursor.mk.injEq]
    rw [List.foldl_cons, step, hremove]
    simp only
    rw [ih hrest (count + 1) hnodup hsorted hbehind', hpositions, List.length_cons,
      Nat.add_right_comm, Nat.add_assoc]

end Prune

/-- **Pruning leaves out the nodes at the canonical forms of the paths, and counts them.** What is
left of a mapping or a sequence is said by `entriesWithout_eq` and `itemsWithout_eq`. -/
theorem Node.prune_eq_without {tree : Node} (hwf : tree.WellFormed) {paths : List Cursor}
    (hdistinct : (Prune.canonicalForms tree paths).Nodup)
    (htrans : Prune.TransitiveOn (Prune.canonicalForms tree paths)) :
    tree.prune paths =
      (tree.without fun path => decide (⟨path⟩ ∈ Prune.canonicalForms tree paths),
        (Prune.canonicalForms tree paths).length) := by
  obtain ⟨hperm, hsorted⟩ := Prune.pairwise_targets hdistinct htrans
  have hat : ∀ c ∈ Prune.targets tree paths,
      c.components ≠ [] ∧ ∃ m, tree.At c.components m := fun c hc =>
    Prune.at_of_mem_canonicalForms hwf (hperm.mem_iff.mp hc)
  have hbehind : ∀ c ∈ Prune.targets tree paths, Prune.Behind (fun _ => false) c.components :=
    fun _ _ _ hnone => by cases hnone
  have hfold := Prune.foldl_step_without hwf hat 0 (hperm.nodup_iff.mpr hdistinct) hsorted hbehind
  rw [without_none] at hfold
  rw [prune, hfold, hperm.length_eq, Nat.zero_add]
  simp only [Bool.false_or, hperm.mem_iff]

namespace Prune

/-- Jobs, one of them with a field to prune, and a list of more than ten numbers. -/
def prunedTree : Node :=
  .mapping [("jobs", .sequence [.mapping [("name", .string "web"), ("tmp", .integer 1)],
      .mapping [("name", .string "db"), ("tmp", .integer 2)]]),
    ("list", .sequence (([0, 1, 2, 3, 4, 5, 6, 7, 8, 9, 10, 11] : List Int64).map .integer))]

/-- Paths by name and by index, a node below another one, and a path that leads nowhere. -/
def prunedPaths : List Cursor :=
  [⟨["jobs", "web"]⟩, ⟨["jobs", "db", "tmp"]⟩, ⟨["list", "2"]⟩, ⟨["jobs", "web", "tmp"]⟩,
    ⟨["list", "10"]⟩, ⟨["jobs", "mail"]⟩, ⟨["list", "9"]⟩]

theorem prune_by_name_and_index :
    (prunedTree.prune prunedPaths) =
      (.mapping [("jobs", .sequence [.mapping [("name", .string "db")]]),
        ("list", .sequence (([0, 1, 3, 4, 5, 6, 7, 8, 11] : List Int64).map .integer))], 6) := by
  have hforms : canonicalForms prunedTree prunedPaths = [⟨["jobs", "0"]⟩, ⟨["jobs", "1", "tmp"]⟩,
      ⟨["list", "2"]⟩, ⟨["jobs", "0", "tmp"]⟩, ⟨["list", "10"]⟩, ⟨["list", "9"]⟩] := rfl
  have htrans : TransitiveOn (canonicalForms prunedTree prunedPaths) := by
    refine transitiveOn_of_components ?_
    rw [hforms]
    unfold TransitiveOnComponents
    decide
  rw [prune_eq_without (by decide) (by rw [hforms]; decide) htrans, hforms]
  rfl

end Prune

end Laminate
