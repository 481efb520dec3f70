import Laminate.Proofs.Merge.PlainData
import Mathlib.Data.List.Nodup

/-!
# Merging a document again

Plain data in which names are distinct is left as it is when it is laid over itself
(`NamesDistinct.overlay_self`): every strategy for lists pairs an element with itself, and every
entry comes over its own value. By position that is plain to see; by name an element finds itself
since the first element of its name is the only one. A first copy of such a document is adopted as
it is, so any number of copies gives what one copy gives (`documents_again`).

The fallback has to be the one by position, since to append a list to itself is to double it.
-/

namespace Laminate

namespace Merge

variable {fallback : Fallback} {path : Cursor} {key : String}

/-! ## Lists and mappings of what is kept -/

/-- A node that laying it over itself leaves as it is. -/
def KeptOverSelf (fallback : Fallback) (n : Node) : Prop :=
  ∀ path, (overlay fallback n n path).value = n

theorem mergeInline_self {items : List Node} (h : ∀ n ∈ items, KeptOverSelf fallback n) :
    ∀ index : Nat, (mergeInline path index items (incoming fallback items)).value = items := by
  induction items with
  | nil => exact fun _ => by rw [incoming, mergeInline, Logged.value_pure]
  | cons n items ih =>
    intro index
    obtain ⟨hn, hitems⟩ := List.forall_mem_cons.mp h
    simp only [incoming, mergeInline, Logged.value_bind, Logged.value_pure]
    exact congrArg₂ List.cons (hn _) (ih hitems (index + 1))

/-- Where key texts are distinct an element is found by its own. -/
theorem position?_of_nodup {list : List Node} (hnodup : (Node.keyTexts key list).Nodup) {n : Node}
    (hmem : n ∈ list) {name : String} (hname : n.field? key = some name) :
    ∃ i, position? list key name = some i ∧ list[i]? = some n := by
  cases hposition : position? list key name with
  | none =>
    exact absurd (hname ▸ List.mem_map_of_mem hmem) (position?_eq_none_iff.mp hposition)
  | some i =>
    obtain ⟨hi, hfound⟩ := field?_eq_of_position? hposition
    have heq : list[i] = n :=
      List.inj_on_of_nodup_map hnodup (List.getElem_mem hi) hmem (hfound.trans hname.symm)
    exact ⟨i, rfl, heq ▸ List.getElem?_eq_getElem hi⟩

/-- Elements of a list with distinct key texts, laid over that list, change nothing. -/
theorem layByKey_self {list : List Node} (hnodup : (Node.keyTexts key list).Nodup)
    {items : List Node} (hsub : ∀ n ∈ items, n ∈ list)
    (hnamed : ∀ n ∈ items, (n.field? key).isSome = true)
    (h : ∀ n ∈ items, KeptOverSelf fallback n) :
    (layByKey key path list (incoming fallback items)).value = list := by
  induction items with
  | nil => rfl
  | cons n items ih =>
    obtain ⟨hmem, hsub⟩ := List.forall_mem_cons.mp hsub
    obtain ⟨hname, hnamed⟩ := List.forall_mem_cons.mp hnamed
    obtain ⟨hn, hitems⟩ := List.forall_mem_cons.mp h
    obtain ⟨name, hname⟩ := Option.isSome_iff_exists.mp hname
    obtain ⟨i, hposition, hfound⟩ := position?_of_nodup hnodup hmem hname
    have hset : list.set i n = list := by
      obtain ⟨hi, rfl⟩ := List.getElem?_eq_some_iff.mp hfound
      exact List.set_getElem_self hi
    simp only [incoming, layByKey, hname, Option.getD_some, hposition, hfound, Logged.value_bind,
      hn (path.child (Numeral.text i)), hset]
    exact ih hsub hnamed hitems

/-- Whichever way a list without a directive is merged with itself, it comes out as it is. -/
theorem mergePlain_self {items : List Node}
    (hnodup : allNamed items = true → (Node.keyTexts defaultKey items).Nodup)
    (h : ∀ n ∈ items, KeptOverSelf .inline n) :
    (mergePlain .inline path items (incoming .inline items)).value = .ok items := by
  unfold mergePlain
  rw [map_node_incoming, Bool.and_self]
  split
  · next hnamed =>
    have hlaid : (layByKey defaultKey path items (incoming .inline items)).value = items :=
      layByKey_self (hnodup hnamed) (fun _ hn => hn) (List.all_eq_true.mp hnamed) h
    simp only [mergeByKey, map_node_incoming, keyFault?_of_allNamed hnamed, Option.or_none,
      Logged.value_map, hlaid]
  · exact congrArg Except.ok (mergeInline_self h 0)

/-- Entries that a mapping has, laid over that mapping, change nothing. -/
theorem overlayEntries_self {base es : Entries Node}
    (hsub : ∀ e ∈ es, Entries.get? base e.1 = some e.2)
    (h : ∀ e ∈ es, KeptOverSelf fallback e.2) :
    (overlayEntries fallback es base path).value = base := by
  induction es with
  | nil => rfl
  | cons e es ih =>
    obtain ⟨hget, hsub⟩ := List.forall_mem_cons.mp hsub
    obtain ⟨he, hes⟩ := List.forall_mem_cons.mp h
    rw [value_overlayEntries_cons, hget, Option.getD_some, he, Entries.insert_of_get? hget]
    exact ih hsub hes

end Merge

open Merge

/-- **Plain data in which names are distinct is left as it is when it is laid over itself.** -/
theorem Node.NamesDistinct.overlay_self {n : Node} (h : n.NamesDistinct) :
    n.WellFormed → n.Plain → KeptOverSelf .inline n := by
  induction n using Node.induction with
  | scalar s =>
    rintro - ⟨no_merge⟩ path
    simp only [overlay, no_merge]
    rfl
  | sequence items ih =>
    intro hwf hplain path
    cases h with
    | sequence names items_distinct =>
      have hitems : ∀ n ∈ items, KeptOverSelf .inline n := fun n hn =>
        ih n hn (items_distinct n hn) (hwf.items n hn) (hplain.items n hn)
      have hmerged : (mergeOver .inline items (.sequence items) path).value = .ok items := by
        rw [mergeOver_of_plain hplain]
        exact mergePlain_self names hitems
      rw [value_overlay_sequence, hmerged]
  | mapping es ih =>
    intro hwf hplain path
    cases h with
    | mapping values_distinct =>
      have hvalues : ∀ e ∈ es, KeptOverSelf .inline e.2 := fun e he =>
        ih e he (values_distinct e he) (hwf.values e he) (hplain.values e he)
      rw [value_overlay_mapping]
      exact congrArg Node.mapping
        (overlayEntries_self (fun e he => Entries.get?_of_mem hwf.nodup he) hvalues)

namespace Merge

/-! ## Copies of a document -/

section Copies

variable {es : Entries Node} (hwf : (Node.mapping es).WellFormed)
  (hplain : (Node.mapping es).Plain) (hnames : (Node.mapping es).NamesDistinct)
include hwf hplain hnames

/-- Laid over nothing, or over a copy of itself, the document is the tree, and no fault is added. -/
theorem layer_copy {stack : Stack} (htree : stack.tree = [] ∨ stack.tree = es) :
    (stack.layer .inline es).tree = es ∧ (stack.layer .inline es).faults = stack.faults := by
  have hlaid : ∀ base : Node, stack.tree = base.entries?.getD [] →
      (overlay .inline (.mapping es) base .root).value = .mapping es →
      (stack.layer .inline es).tree = es ∧ (stack.layer .inline es).faults = stack.faults := by
    intro base hbase hvalue
    have hfaultless : Faultless (overlay .inline (.mapping es) base .root).log :=
      hplain.faultless base .root
    rw [value_overlay_mapping, ← hbase] at hvalue
    rw [log_overlay_mapping, ← hbase] at hfaultless
    simp only [Stack.layer]
    refine ⟨Node.mapping.inj hvalue, ?_⟩
    rw [List.filterMap_eq_nil_iff.mpr (List.forall_mem_append.mp hfaultless).2, List.append_nil]
  rcases htree with hempty | hcopy
  · exact hlaid .null hempty (congrArg Logged.value (hnames.overlay_null hwf hplain .root))
  · exact hlaid (.mapping es) hcopy (hnames.overlay_self hwf hplain .root)

theorem layerAll_copies (copies : Nat) : ∀ {stack : Stack} {number : Nat},
    (stack.tree = [] ∨ stack.tree = es) → stack.faults.toList = [] →
    (stack.layerAll .inline number (List.replicate (copies + 1) (.mapping es))).1
      = .ok (.mapping es) := by
  induction copies with
  | zero =>
    intro stack number htree hfaults
    obtain ⟨htree', hfaults'⟩ := layer_copy hwf hplain hnames htree
    exact Stack.finish_eq_ok.mpr ⟨hfaults' ▸ hfaults, congrArg Node.mapping htree'⟩
  | succ copies ih =>
    intro stack number htree hfaults
    obtain ⟨htree', hfaults'⟩ := layer_copy hwf hplain hnames htree
    exact ih (Or.inr htree') (hfaults' ▸ hfaults)

/-- **A document of plain data in which names are distinct gives the same tree, keys in the same
order, whether it is merged once, twice or any number of times.** -/
theorem documents_again (context : Context) :
    (documents .inline [.mapping es, .mapping es] context).1
      = (documents .inline [.mapping es] context).1 ∧
    ∀ copies, (documents .inline (List.replicate (copies + 1) (.mapping es)) context).1
      = .ok (.mapping es) := by
  have hcopies : ∀ copies,
      (documents .inline (List.replicate (copies + 1) (.mapping es)) context).1
        = .ok (.mapping es) := fun copies =>
    layerAll_copies hwf hplain hnames copies (Or.inl rfl) rfl
  exact ⟨(hcopies 1).trans (hcopies 0).symm, hcopies⟩

end Copies

/-- Named elements with a list of numbers and a call to `prune` in one of them. -/
def portsOfJobs : Entries Node :=
  [("jobs", .sequence [.mapping [("name", .string "web"),
    ("ports", .sequence [.integer 80, .string "(( prune ))", .integer 80])],
    .mapping [("name", .string "db")]])]

theorem portsOfJobs_again :
    (Node.mapping portsOfJobs).WellFormed ∧ (Node.mapping portsOfJobs).Plain ∧
    (Node.mapping portsOfJobs).NamesDistinct ∧
    (documents .inline [.mapping portsOfJobs, .mapping portsOfJobs] {}).1
      = (documents .inline [.mapping portsOfJobs] {}).1 ∧
    (documents .inline [.mapping portsOfJobs] {}).1 = .ok (.mapping portsOfJobs) := by
  have hwf : (Node.mapping portsOfJobs).WellFormed := by decide
  have hplain : (Node.mapping portsOfJobs).Plain := by
    refine .mapping (List.forall_mem_singleton.mpr (.sequence ?_ (List.forall_mem_cons.mpr
      ⟨.mapping (List.forall_mem_cons.mpr ⟨.scalar rfl, List.forall_mem_singleton.mpr
        (.sequence ?_ ?_)⟩), List.forall_mem_singleton.mpr (.mapping
          (List.forall_mem_singleton.mpr (.scalar rfl)))⟩)))
    · rintro n ⟨⟩ name -
      rfl
    · rintro n ⟨⟩ name -
      rfl
    · exact List.forall_mem_cons.mpr ⟨.scalar rfl, List.forall_mem_cons.mpr
        ⟨.scalar rfl, List.forall_mem_singleton.mpr (.scalar rfl)⟩⟩
  have hnames : (Node.mapping portsOfJobs).NamesDistinct := by
    refine .mapping (List.forall_mem_singleton.mpr (.sequence (fun _ => by decide)
      (List.forall_mem_cons.mpr ⟨.mapping (List.forall_mem_cons.mpr ⟨.scalar _,
        List.forall_mem_singleton.mpr (.sequence nofun ?_)⟩), List.forall_mem_singleton.mpr
          (.mapping (List.forall_mem_singleton.mpr (.scalar _)))⟩)))
    exact List.forall_mem_cons.mpr ⟨.scalar _, List.forall_mem_cons.mpr
      ⟨.scalar _, List.forall_mem_singleton.mpr (.scalar _)⟩⟩
  obtain ⟨htwice, hcopies⟩ := documents_again hwf hplain hnames {}
  exact ⟨hwf, hplain, hnames, htwice, hcopies 0⟩

/-- Three elements of one name, whose lists are merged by name, by position and by position. -/
def repeatedName : Entries Node :=
  [("list", .sequence
    [.mapping [("name", .string "k"), ("l", .sequence
      [.mapping [("name", .string "b"), ("x", .integer 1)]])],
    .mapping [("name", .string "k"), ("l", .sequence [.integer 1])],
    .mapping [("name", .string "k"), ("l", .sequence
      [.mapping [("name", .string "a")], .mapping [("name", .string "b"), ("y", .integer 2)]])]])]

-- the first copy ends without the key `x`; the second one finds an element named `b` to bring it to
example : (documents .inline [.mapping repeatedName, .mapping repeatedName] {}).1
    ≠ (documents .inline [.mapping repeatedName] {}).1 :=
  nofun

end Merge

end Laminate
