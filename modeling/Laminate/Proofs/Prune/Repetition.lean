import Mathlib.Data.List.Dedup
import Mathlib.Data.List.Duplicate
import Mathlib.Data.List.Perm.Subperm
import Laminate.Proofs.Cursor.WellFormed
import Laminate.Proofs.Prune.Removal

/-!
# Repeated and reordered paths

Of the sorted canonical forms only neighbours that are equal are dropped. Two different forms can
compare as equal, by keys that read as one number, and then they keep apart the repetitions of one
of them (`exists_twin_of_duplicate`). A repetition removes nothing, unless the form is that of a
list element: the list has closed up, and a later element that is left goes too (`Run.again`). So
paths with the same canonical forms are pruned alike if and only if no such element is left behind a
form that another one compares equal to (`Node.prune_alike_iff`).
-/

namespace Laminate

open Node

namespace Prune

/-- Two different paths that the order of pruning does not tell apart. -/
def Twins (c d : Cursor) : Prop :=
  c ≠ d ∧ comparePaths c.components d.components = .eq

/-! ## Dropping repetitions -/

section DropRepeated

theorem exists_dropRepeated_cons : ∀ (c : Cursor) (cs : List Cursor),
    ∃ rest, dropRepeated (c :: cs) = c :: rest
  | _, [] => ⟨[], rfl⟩
  | c, d :: cs => by
    rw [dropRepeated]
    split
    · next heq => exact heq ▸ exists_dropRepeated_cons d cs
    · exact ⟨_, rfl⟩

theorem isChain_dropRepeated : ∀ cs : List Cursor, (dropRepeated cs).IsChain (· ≠ ·)
  | [] => .nil
  | [c] => .singleton c
  | c :: d :: cs => by
    have ih := isChain_dropRepeated (d :: cs)
    rw [dropRepeated]
    split
    · exact ih
    · next hne =>
      obtain ⟨rest, hrest⟩ := exists_dropRepeated_cons d cs
      rw [hrest] at ih ⊢
      exact .cons_cons hne ih

theorem dropRepeated_sublist : ∀ cs : List Cursor, (dropRepeated cs).Sublist cs
  | [] => .slnil
  | [_] => .refl _
  | c :: d :: cs => by
    rw [dropRepeated]
    split
    · exact (dropRepeated_sublist (d :: cs)).cons c
    · exact (dropRepeated_sublist (d :: cs)).cons_cons c

/-- What stands in the list without equal neighbours is still there without the repetitions. -/
theorem sublist_dropRepeated : ∀ {cs s : List Cursor}, s.IsChain (· ≠ ·) → s.Sublist cs →
    s.Sublist (dropRepeated cs)
  | [], _, _, h => h
  | [_], _, _, h => h
  | c :: d :: cs, s, hchain, h => by
    rw [dropRepeated]
    cases h with
    | cons _ h =>
      have ih := sublist_dropRepeated hchain h
      split
      · exact ih
      · exact ih.cons c
    | @cons_cons s _ _ h =>
      split
      · next heq =>
        subst heq
        -- the second of two equal neighbours is as good as the first
        refine sublist_dropRepeated hchain (List.Sublist.cons_cons c ?_)
        cases h with
        | cons _ h => exact h
        | cons_cons _ _ => exact absurd rfl (List.isChain_cons_cons.mp hchain).1
      · exact (sublist_dropRepeated hchain.of_cons h).cons_cons c

theorem mem_dropRepeated {c : Cursor} {cs : List Cursor} : c ∈ dropRepeated cs ↔ c ∈ cs :=
  ⟨fun h => (dropRepeated_sublist cs).subset h, fun h => List.singleton_sublist.mp
    (sublist_dropRepeated (.singleton c) (List.singleton_sublist.mpr h))⟩

/-- Only a path that has a twin can be left twice. -/
theorem exists_twin_of_duplicate {c : Cursor} {cs : List Cursor} (h : List.Duplicate c cs)
    (hchain : cs.IsChain (· ≠ ·))
    (hsorted : LastFirst cs) : ∃ d ∈ cs, Twins c d := by
  induction h with
  | @cons_duplicate b cs h ih =>
    obtain ⟨d, hd, htwins⟩ := ih hchain.of_cons (List.pairwise_cons.mp hsorted).2
    exact ⟨d, List.mem_cons_of_mem b hd, htwins⟩
  | @cons_mem cs hmem =>
    obtain ⟨hfirst, hsorted⟩ := List.pairwise_cons.mp hsorted
    cases cs with
    | nil => cases hmem
    | cons d cs =>
      have hne : c ≠ d := (List.isChain_cons_cons.mp hchain).1
      refine ⟨d, by simp, hne, ?_⟩
      -- the path that follows stands behind the path and before it
      have hcd : comparePaths c.components d.components ≠ .lt := hfirst d List.mem_cons_self
      have hdc : comparePaths d.components c.components ≠ .lt :=
        (List.pairwise_cons.mp hsorted).1 c ((List.mem_cons.mp hmem).resolve_left hne)
      rw [comparePaths_swap] at hdc
      cases hcompare : comparePaths c.components d.components with
      | eq => rfl
      | lt => exact absurd hcompare hcd
      | gt => exact absurd (by rw [hcompare]; rfl) hdc

end DropRepeated

section Targets

variable {tree : Node} {paths : List Cursor}

theorem mem_targets {c : Cursor} : c ∈ targets tree paths ↔ c ∈ canonicalForms tree paths :=
  mem_dropRepeated.trans (List.mergeSort_perm _ _).mem_iff

theorem lastFirst_targets (htrans : TransitiveOn (canonicalForms tree paths)) :
    LastFirst (targets tree paths) :=
  (lastFirst_sorted htrans).sublist (dropRepeated_sublist _)

end Targets

/-! ## Later elements -/

section Later

variable {n : Node} {path other : List String}

theorem lt_indexBound_of_at {items : List Node} {front : List String} {j : Nat}
    (hwf : n.WellFormed) (hat : n.At front (.sequence items)) (hj : j < items.length) :
    j < Numeral.indexBound :=
  (hwf.resolve hat.resolve).index_lt (List.getElem?_eq_getElem hj)

/-- An element stands in the way of the later ones. -/
theorem LaterElement.inWay (h : LaterElement n path other) (hwf : n.WellFormed) :
    InWay path other := by
  obtain ⟨front, items, i, j, hat, rfl, rfl, hij, hj⟩ := h
  exact .element front [] hij (lt_indexBound_of_at hwf hat hj)

/-- It stands in the way of what they stand in the way of. -/
theorem LaterElement.inWay_trans (h : LaterElement n path other) (hwf : n.WellFormed)
    {last : List String} (hlast : InWay other last) : InWay path last := by
  obtain ⟨front, items, i, j, hat, rfl, rfl, hij, hj⟩ := h
  generalize hother : front ++ [Numeral.text j] = other at hlast
  cases hlast with
  | container front' c hrest =>
    obtain ⟨rfl, hc⟩ := List.append_inj' hother rfl
    rw [← (List.cons.inj hc).1]
    exact .element front _ hij (lt_indexBound_of_at hwf hat hj)
  | @element front' i' j' rest hj' hi' =>
    obtain ⟨rfl, hc⟩ := List.append_inj' hother rfl
    have hj := Numeral.text_injective (List.cons.inj hc).1
    exact .element front rest (by omega) hi'

/-- What a removal takes is not in the way of what comes not behind it. -/
theorem Open.insert_taken {gone : Positions} {taken : List String} (h : Open gone other)
    (htakes : Takes n gone path (some taken)) (hwf : n.WellFormed)
    (horder : comparePaths path other ≠ .lt) : Open (gone.insert taken) other := by
  intro blocker hblocker
  rw [Positions.insert_of_ne]
  · exact h blocker hblocker
  · rintro rfl
    refine horder (comparePaths_of_inWay ?_)
    cases htakes with
    | named _ => exact hblocker
    | later _ hlater _ => exact hlater.inWay_trans hwf hblocker

end Later

/-! ## All removals -/

/-- The positions in a list. -/
def among (gone : List Cursor) : Positions :=
  fun path => decide (⟨path⟩ ∈ gone)

theorem among_cons (c : Cursor) (gone : List Cursor) :
    among (c :: gone) = (among gone).insert c.components := by
  funext path
  cases c
  simp only [among, Positions.insert, Bool.beq_eq_decide_eq, List.mem_cons, Bool.decide_or,
    Cursor.mk.injEq, Bool.or_comm]

theorem among_eq_true {c : Cursor} {gone : List Cursor} :
    among gone c.components = true ↔ c ∈ gone :=
  decide_eq_true_iff

theorem among_eq_false {c : Cursor} {gone : List Cursor} :
    among gone c.components = false ↔ c ∉ gone :=
  decide_eq_false_iff_not

/-- Every later element of the list that the path is in is one of the paths too. -/
def NoneLeftBehind (tree : Node) (cs : List Cursor) (c : Cursor) : Prop :=
  ∀ other : Cursor, LaterElement tree c.components other.components → other ∈ cs

/-- Removals one after the other, by the positions that are gone before and after. -/
inductive Run (tree : Node) : List Cursor → List Cursor → List Cursor → Prop
  | done (gone : List Cursor) : Run tree [] gone gone
  | take {c : Cursor} {taken : List String} {cs gone after : List Cursor}
      (h : Takes tree (among gone) c.components (some taken))
      (rest : Run tree cs (⟨taken⟩ :: gone) after) : Run tree (c :: cs) gone after
  | skip {c : Cursor} {cs gone after : List Cursor}
      (h : Takes tree (among gone) c.components none) (rest : Run tree cs gone after) :
      Run tree (c :: cs) gone after

/-- Removals from behind leave out what is gone after them, and count it. -/
theorem exists_run {tree : Node} (hwf : tree.WellFormed) {cs : List Cursor}
    (hat : ∀ c ∈ cs, c.components ≠ [] ∧ ∃ m, tree.At c.components m) :
    ∀ {gone : List Cursor}, LastFirst cs →
    (∀ c ∈ cs, Open (among gone) c.components) →
    ∃ after, Run tree cs gone after ∧
      cs.foldl step (tree.without (among gone), gone.length)
        = (tree.without (among after), after.length) := by
  induction cs with
  | nil => exact fun {gone} _ _ => ⟨gone, .done gone, rfl⟩
  | cons c cs ih =>
    intro gone hsorted hopen
    obtain ⟨⟨hne, m, hatc⟩, hat⟩ := List.forall_mem_cons.mp hat
    obtain ⟨hopenc, hopen⟩ := List.forall_mem_cons.mp hopen
    obtain ⟨hfirst, hsorted⟩ := List.pairwise_cons.mp hsorted
    obtain ⟨taken, htakes, hremove⟩ := removesOneMore_of_open hatc hne hwf hopenc
    rw [List.foldl_cons, step, hremove]
    cases taken with
    | none =>
      obtain ⟨after, hrun, hfold⟩ := ih hat hsorted hopen
      exact ⟨after, .skip htakes hrun, hfold⟩
    | some taken =>
      have hopen' : ∀ d ∈ cs, Open (among (⟨taken⟩ :: gone)) d.components := fun d hd => by
        rw [among_cons]
        exact (hopen d hd).insert_taken htakes hwf (hfirst d hd)
      obtain ⟨after, hrun, hfold⟩ := ih hat hsorted hopen'
      rw [among_cons, List.length_cons] at hfold
      exact ⟨after, .take htakes hrun, hfold⟩

namespace Run

variable {tree : Node} {all done cs gone after : List Cursor}

theorem subset (h : Run tree cs gone after) : gone ⊆ after := by
  induction h with
  | done gone => exact List.Subset.refl gone
  | take _ _ ih => exact (List.cons_subset.mp ih).2
  | skip _ _ ih => exact ih

/-- No position is taken twice. -/
theorem nodup (h : Run tree cs gone after) (hgone : gone.Nodup) : after.Nodup := by
  induction h with
  | done gone => exact hgone
  | take htakes _ ih =>
    refine ih (List.nodup_cons.mpr ⟨?_, hgone⟩)
    cases htakes with
    | named hleft => exact among_eq_false.mp hleft
    | later _ _ hleft => exact among_eq_false.mp hleft
  | skip _ _ ih => exact ih hgone

/-- After the first removal the position that it names is gone. -/
theorem first {c : Cursor} (h : Run tree (c :: cs) gone after) :
    ∃ gone', gone ⊆ gone' ∧ c ∈ gone' ∧ Run tree cs gone' after := by
  cases h with
  | @take _ taken _ _ _ htakes hrest =>
    refine ⟨⟨taken⟩ :: gone, List.subset_cons_self _ _, ?_, hrest⟩
    cases htakes with
    | named _ => exact List.mem_cons_self
    | later hgone _ _ => exact List.mem_cons_of_mem _ (among_eq_true.mp hgone)
  | skip htakes hrest =>
    cases htakes with
    | nothing hgone _ => exact ⟨gone, List.Subset.refl gone, among_eq_true.mp hgone, hrest⟩

/-- Every position that is named is gone afterwards. -/
theorem named_subset (h : Run tree cs gone after) : cs ⊆ after := by
  induction cs generalizing gone with
  | nil => exact List.nil_subset after
  | cons c cs ih =>
    obtain ⟨gone', -, hc, hrest⟩ := h.first
    exact List.cons_subset.mpr ⟨hrest.subset hc, ih hrest⟩

/-- Removals that take no more positions than they name take only these. -/
theorem subset_of_length {names : List Cursor} (h : Run tree cs [] after)
    (hnames : ∀ c, c ∈ names ↔ c ∈ cs) (hlength : after.length = names.dedup.length) :
    after ⊆ cs := by
  have hsubset : names.dedup ⊆ after := fun c hc =>
    h.named_subset ((hnames c).mp (List.mem_dedup.mp hc))
  have hperm : names.dedup.Perm after :=
    (List.subperm_of_subset (List.nodup_dedup names) hsubset).perm_of_length_le
      (Nat.le_of_eq hlength)
  exact fun c hc => (hnames c).mp (List.mem_dedup.mp (hperm.mem_iff.mpr hc))

/-- A removal of what is gone already: if there are later elements, one of them is gone
afterwards, a given one or one that was left. -/
theorem again {c other : Cursor} (h : Run tree (c :: cs) gone after) (hc : c ∈ gone)
    (hlater : LaterElement tree c.components other.components) :
    ∃ taken ∈ after, LaterElement tree c.components taken.components ∧
      (taken = other ∨ taken ∉ gone) := by
  cases h with
  | @take _ taken _ _ _ htakes hrest =>
    cases htakes with
    | named hleft => exact absurd hc (among_eq_false.mp hleft)
    | later _ htaken hleft =>
      exact ⟨⟨taken⟩, hrest.subset List.mem_cons_self, htaken, .inr (among_eq_false.mp hleft)⟩
  | skip htakes hrest =>
    cases htakes with
    | nothing _ hnone =>
      exact ⟨other, hrest.subset (among_eq_true.mp (hnone _ hlater)), hlater, .inl rfl⟩

/-- A later element that is to be removed has been removed before. -/
theorem mem_done_of_later {c other : Cursor} (hwf : tree.WellFormed)
    (hsorted : LastFirst (done ++ c :: cs))
    (hlater : LaterElement tree c.components other.components)
    (hother : other ∈ done ++ c :: cs) : other ∈ done := by
  have hlt : comparePaths c.components other.components = .lt :=
    comparePaths_of_inWay (hlater.inWay hwf)
  have hfirst := (List.pairwise_cons.mp (List.pairwise_append.mp hsorted).2.1).1
  rcases List.mem_append.mp hother with hdone | hother
  · exact hdone
  · rcases List.mem_cons.mp hother with rfl | hcs
    · exact absurd rfl hlater.ne
    · exact absurd hlt (hfirst other hcs)

/-- If nothing is left behind the paths that are named twice, only what is named is taken. -/
theorem subset_of_noneLeft (h : Run tree cs gone after) (hwf : tree.WellFormed)
    (hall : all = done ++ cs) (hsorted : LastFirst all)
    (hlast : ∀ c, List.Duplicate c all → NoneLeftBehind tree all c)
    (hgone : ∀ c, c ∈ gone ↔ c ∈ done) : after ⊆ all := by
  induction h generalizing done with
  | done gone =>
    intro c hc
    rw [hall, List.append_nil]
    exact (hgone c).mp hc
  | @take c taken cs gone after htakes _ ih =>
    cases htakes with
    | named _ =>
      have hall' : all = (done ++ [c]) ++ cs := by rw [hall, List.append_assoc]; rfl
      refine ih hall' fun d => ?_
      rw [List.mem_cons, List.mem_append, List.mem_singleton, hgone d]
      exact Or.comm
    | later htaken hlater hleft =>
      -- the path is named for the second time, so the later elements are gone before it
      have hc : c ∈ done := (hgone c).mp (among_eq_true.mp htaken)
      have htwice : List.Duplicate c all := by
        rw [hall, List.duplicate_iff_sublist]
        exact (List.singleton_sublist.mpr hc).append
          (List.singleton_sublist.mpr (List.mem_cons_self (l := cs)))
      have hmem : ⟨taken⟩ ∈ all := hlast c htwice ⟨taken⟩ hlater
      rw [hall] at hmem hsorted
      have hdone := mem_done_of_later hwf hsorted hlater hmem
      exact absurd ((hgone _).mpr hdone) (among_eq_false.mp hleft)
  | @skip c cs gone after htakes _ ih =>
    cases htakes with
    | nothing hskip _ =>
      have hc : c ∈ done := (hgone c).mp (among_eq_true.mp hskip)
      have hall' : all = (done ++ [c]) ++ cs := by rw [hall, List.append_assoc]; rfl
      refine ih hall' fun d => ?_
      rw [List.mem_append, List.mem_singleton, hgone d]
      exact ⟨Or.inl, fun h => h.elim id fun heq => heq ▸ hc⟩

/-- If something is left behind a path that is named twice, more is taken than is named. -/
theorem not_subset_of_left (h : Run tree cs gone after) (hwf : tree.WellFormed)
    (hall : all = done ++ cs) (hsorted : LastFirst all)
    {c other : Cursor} (hlater : LaterElement tree c.components other.components)
    (hother : other ∉ all) (hgone : done ⊆ gone)
    (htwice : List.Duplicate c cs ∨ c ∈ gone ∧ c ∈ cs) : ¬ after ⊆ all := by
  induction cs generalizing done gone with
  | nil => exact absurd htwice (by simp)
  | cons d cs ih =>
    obtain ⟨gone', hgone', hd, hrest⟩ := h.first
    have hall' : all = (done ++ [d]) ++ cs := by rw [hall, List.append_assoc]; rfl
    have hnext : List.Duplicate c cs ∨ c ∈ gone' ∧ c ∈ cs → ¬ after ⊆ all :=
      ih hrest hall'
        (List.append_subset.mpr
          ⟨List.Subset.trans hgone hgone', List.cons_subset.mpr ⟨hd, List.nil_subset _⟩⟩)
    rcases htwice with htwice | ⟨hc, hmem⟩
    · cases htwice with
      | cons_mem hc => exact hnext (.inr ⟨hd, hc⟩)
      | cons_duplicate htwice => exact hnext (.inl htwice)
    · rcases List.mem_cons.mp hmem with rfl | hmem
      · obtain ⟨taken, hafter, htaken, hleft⟩ := h.again hc hlater
        intro hsub
        have hmem := hsub hafter
        rcases hleft with rfl | hleft
        · exact hother hmem
        · rw [hall] at hmem hsorted
          exact hleft (hgone (mem_done_of_later hwf hsorted htaken hmem))
      · exact hnext (.inr ⟨hgone' hc, hmem⟩)

end Run

section Results

variable {tree : Node} {paths : List Cursor}

theorem exists_run_targets (hwf : tree.WellFormed)
    (htrans : TransitiveOn (canonicalForms tree paths)) :
    ∃ after, Run tree (targets tree paths) [] after ∧
      tree.prune paths = (tree.without (among after), after.length) := by
  have hopen : ∀ c ∈ targets tree paths, Open (among []) c.components := fun _ _ _ _ => rfl
  obtain ⟨after, hrun, hfold⟩ := exists_run hwf
    (fun c hc => at_of_mem_canonicalForms hwf (mem_targets.mp hc))
    (lastFirst_targets htrans) hopen
  refine ⟨after, hrun, ?_⟩
  rw [← hfold, prune]
  exact congrArg (fun start => (targets tree paths).foldl step (start, 0)) (without_none tree).symm

/-- None of the paths that compare as equal to another one of them leaves a later element of its
list behind. -/
def Repeatable (tree : Node) (cs : List Cursor) : Prop :=
  ∀ c ∈ cs, ∀ d ∈ cs, Twins c d → NoneLeftBehind tree cs c

/-- Two lists of paths have the same canonical forms in a tree. -/
def SameForms (tree : Node) (paths paths' : List Cursor) : Prop :=
  ∀ c, c ∈ canonicalForms tree paths ↔ c ∈ canonicalForms tree paths'

theorem among_congr {cs cs' : List Cursor} (h : ∀ c, c ∈ cs ↔ c ∈ cs') : among cs = among cs' := by
  funext path
  simp only [among, h]

theorem TransitiveOn.congr {cs cs' : List Cursor} (htrans : TransitiveOn cs')
    (h : ∀ c, c ∈ cs ↔ c ∈ cs') : TransitiveOn cs := by
  intro a ha b hb c hc
  exact htrans a ((h a).mp ha) b ((h b).mp hb) c ((h c).mp hc)

theorem Repeatable.congr {cs cs' : List Cursor} (hrepeat : Repeatable tree cs')
    (h : ∀ c, c ∈ cs ↔ c ∈ cs') : Repeatable tree cs := by
  intro c hc d hd htwins other hlater
  exact (h other).mpr (hrepeat c ((h c).mp hc) d ((h d).mp hd) htwins other hlater)

/-- If nothing is left behind the paths that are left twice, each canonical form is removed, and
counted once. -/
theorem prune_of_noneLeft (hwf : tree.WellFormed)
    (htrans : TransitiveOn (canonicalForms tree paths))
    (hlast : ∀ c, List.Duplicate c (targets tree paths) →
      NoneLeftBehind tree (targets tree paths) c) :
    tree.prune paths = (tree.without (among (canonicalForms tree paths)),
      (canonicalForms tree paths).dedup.length) := by
  obtain ⟨after, hrun, hprune⟩ := exists_run_targets hwf htrans
  have hsubset : after ⊆ targets tree paths :=
    hrun.subset_of_noneLeft hwf (List.nil_append _).symm (lastFirst_targets htrans) hlast
      fun _ => Iff.rfl
  have hmem : ∀ c, c ∈ after ↔ c ∈ canonicalForms tree paths := fun c =>
    ⟨fun hc => mem_targets.mp (hsubset hc), fun hc => hrun.named_subset (mem_targets.mpr hc)⟩
  have hperm : after.Perm (canonicalForms tree paths).dedup :=
    (List.perm_ext_iff_of_nodup (hrun.nodup .nil) (List.nodup_dedup _)).mpr fun c =>
      (hmem c).trans List.mem_dedup.symm
  rw [hprune, among_congr hmem, hperm.length_eq]

theorem prune_of_repeatable (hwf : tree.WellFormed)
    (htrans : TransitiveOn (canonicalForms tree paths))
    (hrepeat : Repeatable tree (canonicalForms tree paths)) :
    tree.prune paths = (tree.without (among (canonicalForms tree paths)),
      (canonicalForms tree paths).dedup.length) := by
  refine prune_of_noneLeft hwf htrans fun c hc other hlater => ?_
  obtain ⟨d, hd, htwins⟩ :=
    exists_twin_of_duplicate hc (isChain_dropRepeated _) (lastFirst_targets htrans)
  exact mem_targets.mpr
    (hrepeat c (mem_targets.mp hc.mem) d (mem_targets.mp hd) htwins other hlater)

/-- What is removed from a tree, and how many nodes, is said by the canonical forms alone if they
are repeatable. -/
theorem prune_of_sameForms {p : List Cursor} (hwf : tree.WellFormed)
    (htrans : TransitiveOn (canonicalForms tree paths))
    (hrepeat : Repeatable tree (canonicalForms tree paths)) (hp : SameForms tree p paths) :
    tree.prune p = (tree.without (among (canonicalForms tree paths)),
      (canonicalForms tree paths).dedup.length) := by
  have hperm : (canonicalForms tree p).dedup.Perm (canonicalForms tree paths).dedup :=
    (List.perm_ext_iff_of_nodup (List.nodup_dedup _) (List.nodup_dedup _)).mpr fun c => by
      rw [List.mem_dedup, List.mem_dedup, hp c]
  rw [prune_of_repeatable hwf (htrans.congr hp) (hrepeat.congr hp), among_congr hp,
    hperm.length_eq]

/-- Canonical forms are their own canonical forms. -/
theorem canonicalForms_self {cs : List Cursor}
    (h : ∀ c ∈ cs, c.components ≠ [] ∧ ∃ m, tree.At c.components m) :
    canonicalForms tree cs = cs := by
  induction cs with
  | nil => rfl
  | cons c cs ih =>
    obtain ⟨⟨hne, m, hat⟩, hcs⟩ := List.forall_mem_cons.mp h
    have hroot : c.isRoot = false := by
      cases hcomponents : c.components with
      | nil => exact absurd hcomponents hne
      | cons d rest => simp [Cursor.isRoot, hcomponents]
    have hcanonical : (c.canonical tree).toOption = some c :=
      Cursor.toOption_canonical_eq_some.mpr hat.canonical
    rw [canonicalForms, List.filter_cons, hroot, Bool.not_false, if_pos rfl, List.filterMap_cons,
      hcanonical]
    exact congrArg (c :: ·) (ih hcs)

/-- A path that is named before and after a twin is left twice. -/
theorem duplicate_targets {cs : List Cursor} {c d : Cursor}
    (hforms : canonicalForms tree paths = c :: d :: c :: cs)
    (htrans : TransitiveOn (canonicalForms tree paths)) (htwins : Twins c d) :
    List.Duplicate c (targets tree paths) := by
  obtain ⟨hne, heq⟩ := htwins
  have heq' : comparePaths d.components c.components = .eq := by
    rw [comparePaths_swap, heq]
    rfl
  have hself : comparePaths c.components c.components = .eq := by
    have h := comparePaths_append c.components [] []
    rwa [List.append_nil] at h
  have hpairwise : [c, d, c].Pairwise fun a b =>
      (comparePaths a.components b.components).isGE = true := by
    simp [heq, heq', hself, Ordering.isGE]
  have hsublist : [c, d, c].Sublist (canonicalForms tree paths) := by
    rw [hforms]
    exact (((List.nil_sublist cs).cons_cons c).cons_cons d).cons_cons c
  have htargets : [c, d, c].Sublist (targets tree paths) :=
    sublist_dropRepeated (.cons_cons hne (.cons_cons hne.symm (.singleton c)))
      (sublist_mergeSort_of_mem htrans (fun _ _ => isGE_comparePaths_total _ _) hpairwise hsublist)
  exact List.duplicate_iff_sublist.mpr
    (List.Sublist.trans ((List.Sublist.refl [c]).cons d |>.cons_cons c) htargets)

/-- Two lists of canonical forms, one with a path before and after a twin and one without
repetitions, are pruned alike only if nothing is left behind the path. -/
theorem repeatable_of_alike (hwf : tree.WellFormed)
    (htrans : TransitiveOn (canonicalForms tree paths))
    (halike : ∀ p q, SameForms tree p paths → SameForms tree q paths →
      tree.prune p = tree.prune q) : Repeatable tree (canonicalForms tree paths) := by
  intro c hc d hd htwins other hlater
  generalize hcs : canonicalForms tree paths = cs at *
  have hat : ∀ e ∈ cs, e.components ≠ [] ∧ ∃ m, tree.At e.components m := fun e he =>
    at_of_mem_canonicalForms hwf (hcs ▸ he)
  -- both lists are their own canonical forms, and these are the ones of the paths
  have hsame : ∀ e, e ∈ c :: d :: c :: cs ↔ e ∈ cs := fun e => by
    simp only [List.mem_cons]
    exact ⟨fun h => by rcases h with rfl | rfl | rfl | h <;> assumption,
      fun h => .inr (.inr (.inr h))⟩
  have hrepeated : canonicalForms tree (c :: d :: c :: cs) = c :: d :: c :: cs :=
    canonicalForms_self fun e he => hat e ((hsame e).mp he)
  have honce : canonicalForms tree cs.dedup = cs.dedup :=
    canonicalForms_self fun e he => hat e (List.mem_dedup.mp he)
  have htransRepeated : TransitiveOn (canonicalForms tree (c :: d :: c :: cs)) :=
    htrans.congr (hrepeated.symm ▸ hsame)
  have htransOnce : TransitiveOn (canonicalForms tree cs.dedup) :=
    htrans.congr (honce.symm ▸ fun _ => List.mem_dedup)
  have hprune : tree.prune (c :: d :: c :: cs) = tree.prune cs.dedup :=
    halike _ _ (fun e => by rw [hrepeated, hcs]; exact hsame e)
      (fun e => by rw [honce, hcs]; exact List.mem_dedup)
  -- the second list removes as many nodes as there are canonical forms, so the first does too
  obtain ⟨after, hrun, hafter⟩ := exists_run_targets hwf htransRepeated
  have hdistinct : (canonicalForms tree cs.dedup).Nodup := honce.symm ▸ List.nodup_dedup cs
  have hnodup : (targets tree cs.dedup).Nodup :=
    (pairwise_targets hdistinct htransOnce).1.nodup_iff.mpr hdistinct
  have hlength : after.length = cs.dedup.length := by
    rw [hafter, prune_of_noneLeft hwf htransOnce fun e he => absurd hnodup he.not_nodup, honce,
      List.dedup_idem] at hprune
    exact congrArg Prod.snd hprune
  have htargets : ∀ e, e ∈ targets tree (c :: d :: c :: cs) ↔ e ∈ cs := fun e => by
    rw [mem_targets, hrepeated, hsame]
  have hsubset := hrun.subset_of_length (fun e => (htargets e).symm) hlength
  by_contra hother
  exact hrun.not_subset_of_left hwf (List.nil_append _).symm
    (lastFirst_targets htransRepeated) hlater (mt (htargets other).mp hother)
    (List.nil_subset []) (.inl (duplicate_targets hrepeated htransRepeated htwins)) hsubset

end Results

end Prune

/-- **Lists of paths that have the same canonical forms are pruned alike, in whatever order and
however often they name them, if and only if the canonical forms are repeatable**: no form that
the order of pruning does not tell apart from another one is that of a list element behind which
an element is left. -/
theorem Node.prune_alike_iff {tree : Node} (hwf : tree.WellFormed) {paths : List Cursor}
    (htrans : Prune.TransitiveOn (Prune.canonicalForms tree paths)) :
    (∀ p q, Prune.SameForms tree p paths → Prune.SameForms tree q paths →
      tree.prune p = tree.prune q) ↔
    Prune.Repeatable tree (Prune.canonicalForms tree paths) := by
  constructor
  · exact Prune.repeatable_of_alike hwf htrans
  · intro hrepeat p q hp hq
    rw [Prune.prune_of_sameForms hwf htrans hrepeat hp,
      Prune.prune_of_sameForms hwf htrans hrepeat hq]

namespace Prune

instance (c d : Cursor) : Decidable (Twins c d) :=
  inferInstanceAs (Decidable (_ ∧ _))

/-- Two lists whose keys read as one number. -/
def twoLists (items items' : List Node) : Node :=
  .mapping [("1", .sequence items), ("01", .sequence items')]

/-- Jobs and two lists. -/
def repeatedTree : Node :=
  .mapping [("jobs", .sequence [.mapping [("name", .string "web"), ("tmp", .integer 1)],
      .mapping [("name", .string "db")]]),
    ("m", twoLists [.string "a", .string "b"] [.string "c", .string "d"])]

/-- The jobs by name and by index, and the last element of a list before and after its twin. -/
def repeatedPaths : List Cursor :=
  [⟨["jobs", "db"]⟩, ⟨["m", "1", "1"]⟩, ⟨["jobs", "web", "tmp"]⟩, ⟨["m", "01", "1"]⟩,
    ⟨["m", "1", "1"]⟩, ⟨["jobs", "1"]⟩, ⟨["jobs", "web"]⟩]

/-- The same by index, each once. -/
def distinctPaths : List Cursor :=
  [⟨["jobs", "0"]⟩, ⟨["m", "01", "1"]⟩, ⟨["jobs", "1"]⟩, ⟨["m", "1", "1"]⟩, ⟨["jobs", "0", "tmp"]⟩]

theorem prune_alike_by_name_and_index :
    repeatedTree.prune repeatedPaths = repeatedTree.prune distinctPaths := by
  have hforms : canonicalForms repeatedTree distinctPaths = distinctPaths := rfl
  have hforms' : canonicalForms repeatedTree repeatedPaths = [⟨["jobs", "1"]⟩,
      ⟨["m", "1", "1"]⟩, ⟨["jobs", "0", "tmp"]⟩, ⟨["m", "01", "1"]⟩, ⟨["m", "1", "1"]⟩,
      ⟨["jobs", "1"]⟩, ⟨["jobs", "0"]⟩] := rfl
  have htrans : TransitiveOn (canonicalForms repeatedTree distinctPaths) := by
    refine transitiveOn_of_components ?_
    rw [hforms]
    unfold TransitiveOnComponents
    decide
  have htwins : ∀ c ∈ distinctPaths, ∀ d ∈ distinctPaths, Twins c d →
      c = ⟨["m", "1", "1"]⟩ ∨ c = ⟨["m", "01", "1"]⟩ := by
    decide
  have hrepeat : Repeatable repeatedTree (canonicalForms repeatedTree distinctPaths) := by
    rw [hforms]
    intro c hc d hd hcd other hlater
    rcases htwins c hc d hd hcd with rfl | rfl
    · have hat : repeatedTree.At ["m", "1"] (.sequence [.string "a", .string "b"]) :=
        .key rfl (.key rfl (.here _))
      obtain ⟨j, -, hlt, hj⟩ := (LaterElement.iff_of_at hat (i := 1)).mp hlater
      exact absurd hj (Nat.not_lt.mpr hlt)
    · have hat : repeatedTree.At ["m", "01"] (.sequence [.string "c", .string "d"]) :=
        .key rfl (.key rfl (.here _))
      obtain ⟨j, -, hlt, hj⟩ := (LaterElement.iff_of_at hat (i := 1)).mp hlater
      exact absurd hj (Nat.not_lt.mpr hlt)
  refine (prune_alike_iff (by decide) htrans).mpr hrepeat _ _ ?_ fun _ => Iff.rfl
  intro c
  rw [hforms, hforms']
  simp only [distinctPaths, List.mem_cons, List.not_mem_nil, or_false]
  tauto

/-- The first elements of two lists compare as equal, so a repetition of one of them is not dropped
when it comes behind the other one. It takes the element that is left in its list. -/
theorem repeated_path_takes_next_element :
    let tree := twoLists [.string "a", .string "b"] [.string "c", .string "d"]
    let once : List Cursor := [⟨["1", "0"]⟩, ⟨["01", "0"]⟩]
    let twice : List Cursor := [⟨["1", "0"]⟩, ⟨["01", "0"]⟩, ⟨["1", "0"]⟩]
    tree.WellFormed ∧ SameForms tree twice once ∧
    TransitiveOnComponents ((canonicalForms tree twice).flatMap Cursor.components) ∧
    tree.prune once = (twoLists [.string "b"] [.string "d"], 2) ∧
    tree.prune twice = (twoLists [] [.string "d"], 3) := by
  intro tree once twice
  have honce : canonicalForms tree once = once := rfl
  have htwice : canonicalForms tree twice = twice := rfl
  -- both lists are sorted already, and no path follows itself
  have htargets : targets tree once = once := by
    show dropRepeated ((canonicalForms tree once).mergeSort _) = once
    rw [honce, List.mergeSort_of_pairwise (by decide)]
    rfl
  have htargets' : targets tree twice = twice := by
    show dropRepeated ((canonicalForms tree twice).mergeSort _) = twice
    rw [htwice, List.mergeSort_of_pairwise (by decide)]
    rfl
  refine ⟨by decide, fun c => ?_, ?_, ?_, ?_⟩
  · rw [honce, htwice]
    simp only [once, twice, List.mem_cons, List.not_mem_nil, or_false]
    tauto
  · rw [htwice]
    unfold TransitiveOnComponents
    decide
  · rw [prune, htargets]
    rfl
  · rw [prune, htargets']
    rfl

end Prune

end Laminate
