import Laminate.Proofs.Evaluation.CallSitesOnly
import Laminate.Proofs.Evaluation.ChangesAgree

/-!
# Injections that do not meet

Injections are untangled if none of them adds or removes what another one reads, adds or removes
behind its back (`Untangled`). Then the changes that some of them make at a position depend on
nothing but which of them stand there (`gone_changesOf_congr`, `get?_joined_congr`), elements of
lists keep their names (`keepsNames_of_free`), and what an injection adds depends on its entries and
on the tree before all of them (`outcome_eq_of_at`).
-/

namespace Laminate

theorem Operator.injectEntries_ne_replace (input : CallInput) (value : Node) :
    injectEntries input ≠ .ok (.replace value) := by
  unfold injectEntries
  split
  · split <;> nofun
  · nofun

namespace Evaluation

/-! ## Steps of injections -/

namespace Step

/-- The entries that the call answers with. -/
def entries (s : Step) : Entries Node :=
  match s.before.answer s.call with
  | .ok (.inject entries) => entries
  | _ => []

theorem isInjected_of_mem {s : Step} {key : String} (h : key ∈ Entries.keys s.injected) :
    s.isInjected = true := by
  unfold injected at h
  unfold isInjected
  cases houtcome : s.outcome with
  | injected entries => rfl
  | replaced value => rw [houtcome] at h; cases h
  | kept => rw [houtcome] at h; cases h

theorem mem_entries_of_mem_injected {s : Step} {key : String} (h : key ∈ Entries.keys s.injected) :
    key ∈ Entries.keys s.entries := by
  unfold injected outcome at h
  unfold entries
  split at h
  · next heq =>
    split at heq
    · cases heq
    · next hanswer _ _ =>
      cases heq
      rw [hanswer]
      obtain ⟨e, he, rfl⟩ := List.mem_map.mp h
      exact List.mem_map_of_mem (List.mem_of_mem_filter he)
    · cases heq
  · cases h

end Step

/-- Steps of calls that stand in different places of a tree. -/
structure InjectionsOf (tree : Node) (stepList : List Step) : Prop where
  inject : ∀ s ∈ stepList, s.call.operator = Operator.inject
  stands : ∀ s ∈ stepList, ∃ text, tree.At s.place (.string text)
  apart : (stepList.map Step.place).Nodup

/-- Injections none of which depends on when another one is carried out, unless it waits for it. -/
structure Untangled (tree : Node) (stepList : List Step) : Prop where
  /-- None refers to the root. -/
  below_root : ∀ s ∈ stepList, .reference .root ∉ s.call.args
  /-- A reference of which nothing leads anywhere does not begin with a key that joins the root. -/
  beginnings : ∀ s ∈ stepList, ∀ path key, .reference path ∈ s.call.args →
    existingBeginning? tree path = none → path.components.head? = some key →
    ∀ t ∈ stepList, t.place.dropLast = [] → key ∉ Entries.keys t.injected
  /-- None makes of an element of a list, or takes from one, a name that a reference uses. -/
  names : ∀ s ∈ stepList, s.isInjected = true → ∀ items,
    tree.At s.place.dropLast.dropLast (.sequence items) → ∀ field ∈ Node.nameFields, ∀ name,
    s.place.getLast? = some field ∧ tree.At s.place (.string name) ∨
      (Entries.get? s.injected field).bind Node.text? = some name →
    ∀ t ∈ stepList, ∀ path, .reference path ∈ t.call.args → name ∉ path.components
  /-- Two that are carried out in one mapping do not answer with the same new key, nor does one
  answer with the key of the other. -/
  apart : ∀ s ∈ stepList, ∀ t ∈ stepList, s.place ≠ t.place → s.place.dropLast = t.place.dropLast →
    s.isInjected = true → t.isInjected = true → ∀ key ∈ Entries.keys s.entries,
    key ∉ Entries.keys t.injected ∧ t.place.getLast? ≠ some key

/-! ## Changes of injections -/

section Changes

variable {tree : Node} {all stepList others : List Step} {path : List String} {key : String}

theorem gone_changesOf_iff : (changesOf stepList path).gone = true ↔
    ∃ s ∈ stepList, path = s.place ∧ s.isInjected = true := by
  simp [gone_changesOf, Step.gone_changes]

theorem value_changes_of_inject {s : Step} (h : s.call.operator = Operator.inject) :
    (s.changes path).value = none := by
  cases houtcome : s.outcome with
  | kept => rw [changes_of_kept houtcome]; rfl
  | injected entries => rw [changes_of_injected houtcome]; rfl
  | replaced value =>
    cases hanswer : s.before.answer s.call with
    | error fault => simp [Step.outcome, hanswer] at houtcome
    | ok response =>
      cases response with
      | replace value =>
        rw [answer, h] at hanswer
        exact absurd hanswer (Operator.injectEntries_ne_replace _ value)
      | inject entries =>
        rcases outcome_of_inject hanswer with ⟨_, _, _, _, _, hother⟩ | ⟨hother, -⟩
        · cases houtcome.symm.trans hother
        · cases houtcome.symm.trans hother

theorem value_changesOf_of_inject (h : ∀ s ∈ stepList, s.call.operator = Operator.inject) :
    (changesOf stepList path).value = none := by
  induction stepList with
  | nil => rfl
  | cons s rest ih =>
    obtain ⟨hs, hrest⟩ := List.forall_mem_cons.mp h
    rw [changesOf, Changes.followedBy, Change.followedBy, value_changes_of_inject hs, ih hrest]
    rfl

/-- A step is known by its key among those that have added to one mapping. -/
theorem Untangled.eq_of_mem (h : Untangled tree all) (hall : InjectionsOf tree all) {s t : Step}
    (hs : s ∈ all) (ht : t ∈ all) (hparent : s.place.dropLast = t.place.dropLast)
    (hkey : key ∈ Entries.keys s.injected) (hkey' : key ∈ Entries.keys t.injected) : s = t := by
  by_contra hne
  have hplace : s.place ≠ t.place := fun heq =>
    hne (List.inj_on_of_nodup_map hall.apart hs ht heq)
  exact (h.apart s hs t ht hplace hparent (Step.isInjected_of_mem hkey)
    (Step.isInjected_of_mem hkey') key (Step.mem_entries_of_mem_injected hkey)).1 hkey'

/-- What some untangled injections have added to a mapping under a key. -/
theorem get?_joined_eq_some (h : Untangled tree all) (hall : InjectionsOf tree all)
    (hsub : stepList ⊆ all) {value : Node} :
    Entries.get? (changesOf stepList path).joined key = some value ↔
      ∃ s ∈ stepList, path = s.place.dropLast ∧ Entries.get? s.injected key = some value := by
  induction stepList with
  | nil => simp [changesOf, Changes.empty]
  | cons s rest ih =>
    obtain ⟨hs, hrest⟩ := List.cons_subset.mp hsub
    have hjoined : (changesOf (s :: rest) path).joined
        = (if path = s.place.dropLast then s.injected else []) ++ (changesOf rest path).joined := by
      rw [← Step.joined_changes]
      rfl
    rw [hjoined, Entries.get?_concat, List.exists_mem_cons_iff, ← ih hrest]
    by_cases hpath : path = s.place.dropLast
    · rw [if_pos hpath]
      cases hget : Entries.get? s.injected key with
      | none => simp
      | some found =>
        -- no other step has added the key
        have hother : Entries.get? (changesOf rest path).joined key = some value →
            some found = some value := by
          intro hvalue
          obtain ⟨t, ht, hparent, hget'⟩ := (ih hrest).mp hvalue
          have heq := h.eq_of_mem hall hs (hrest ht) (hpath.symm.trans hparent)
            (Entries.mem_keys_of_get? hget) (Entries.mem_keys_of_get? hget')
          rw [← heq, hget] at hget'
          exact hget'
        simpa [hpath] using fun hvalue => Option.some.inj (hother (hpath ▸ hvalue))
    · simp [hpath]

/-- Which of all steps stand at a position decides whether it goes. -/
theorem gone_changesOf_congr (hsub : stepList ⊆ all) (hsub' : others ⊆ all)
    (hsame : ∀ s ∈ all, path = s.place → (s ∈ stepList ↔ s ∈ others)) :
    (changesOf stepList path).gone = (changesOf others path).gone := by
  rw [Bool.eq_iff_iff, gone_changesOf_iff, gone_changesOf_iff]
  constructor
  · rintro ⟨s, hs, hpath, hinjected⟩
    exact ⟨s, (hsame s (hsub hs) hpath).mp hs, hpath, hinjected⟩
  · rintro ⟨s, hs, hpath, hinjected⟩
    exact ⟨s, (hsame s (hsub' hs) hpath).mpr hs, hpath, hinjected⟩

/-- Which of all steps add a key to a mapping decides what it has under the key. -/
theorem get?_joined_congr (h : Untangled tree all) (hall : InjectionsOf tree all)
    (hsub : stepList ⊆ all) (hsub' : others ⊆ all)
    (hsame : ∀ s ∈ all, path = s.place.dropLast → key ∈ Entries.keys s.injected →
      (s ∈ stepList ↔ s ∈ others)) :
    Entries.get? (changesOf stepList path).joined key
      = Entries.get? (changesOf others path).joined key := by
  refine Option.ext fun value => ?_
  rw [get?_joined_eq_some h hall hsub, get?_joined_eq_some h hall hsub']
  constructor
  · rintro ⟨s, hs, hpath, hget⟩
    exact ⟨s, (hsame s (hsub hs) hpath (Entries.mem_keys_of_get? hget)).mp hs, hpath, hget⟩
  · rintro ⟨s, hs, hpath, hget⟩
    exact ⟨s, (hsame s (hsub' hs) hpath (Entries.mem_keys_of_get? hget)).mpr hs, hpath, hget⟩

/-! ## Names of elements -/

/-- The changes neither take any of these names from an element of a list nor add one. -/
def NamesFree (names : List String) (tree : Node) (c : Changes) : Prop :=
  ∀ path items i item, tree.At path (.sequence items) → items[i]? = some item →
    ∀ field ∈ Node.nameFields, ∀ name ∈ names,
    ((c (path ++ [Numeral.text i, field])).gone = true → item.field? field ≠ some name) ∧
    (Entries.get? (c (path ++ [Numeral.text i])).joined field).bind Node.text? ≠ some name

theorem Untangled.namesFree (h : Untangled tree all) (hall : InjectionsOf tree all)
    (hsub : stepList ⊆ all) {s : Step} (hs : s ∈ all) {reference : Cursor}
    (hreference : .reference reference ∈ s.call.args) :
    NamesFree reference.components tree (changesOf stepList) := by
  intro path items i item hat hitem field hfield name hname
  constructor
  · intro hgone hnamed
    obtain ⟨t, ht, hplace, hinjected⟩ := gone_changesOf_iff.mp hgone
    have hlist : t.place.dropLast.dropLast = path := by
      rw [← hplace]
      simp
    have hlast : t.place.getLast? = some field := by
      rw [← hplace]
      simp
    obtain ⟨text, htext⟩ := hall.stands t (hsub ht)
    -- the text of the call is the name
    have htext_name : text = name := by
      rw [← hplace] at htext
      obtain ⟨m, hm, hbelow⟩ := htext.exists_of_append
      rw [hm.unique hat] at hbelow
      have hentry := hbelow.of_item hitem
      cases item with
      | scalar scalar => cases hentry
      | sequence items => cases hnamed
      | mapping es =>
        cases hentry with
        | key found hhere =>
          cases hhere
          rw [Node.field?, Node.get?, found] at hnamed
          exact Option.some.inj hnamed
    exact h.names t (hsub ht) hinjected items (hlist ▸ hat) field hfield name
      (Or.inl ⟨hlast, htext_name ▸ htext⟩) s hs reference hreference hname
  · intro hnamed
    obtain ⟨value, hvalue, htext⟩ := Option.bind_eq_some_iff.mp hnamed
    obtain ⟨t, ht, hparent, hget⟩ := (get?_joined_eq_some h hall hsub).mp hvalue
    have hlist : t.place.dropLast.dropLast = path := by
      rw [← hparent]
      simp
    have hinjected := Step.isInjected_of_mem (Entries.mem_keys_of_get? hget)
    exact h.names t (hsub ht) hinjected items (hlist ▸ hat) field hfield name
      (Or.inr (by rw [hget]; exact htext)) s hs reference hreference hname

/-- Changes of a reordered tree that come to the same leave the names alone too. -/
theorem NamesFree.reordered {names : List String} {tree' : Node} {c c' : Changes}
    (h : NamesFree names tree c) (hreordered : tree.Reordered tree')
    (hagree : ∀ path, (c path).Agree (c' path)) : NamesFree names tree' c' := by
  intro path items' i item' hat' hitem' field hfield name hname
  obtain ⟨m, hat, hm⟩ := hat'.reordered hreordered.symm
  cases hm with
  | @sequence _ items pairs =>
    have hrel := getElem?_of_forall₂ pairs i
    rw [hitem'] at hrel
    generalize hitem : items[i]? = x at hrel
    cases hrel with
    | @some _ item hitems =>
      obtain ⟨hgone, hjoined⟩ := h path items i item hat hitem field hfield name hname
      refine ⟨fun hgone' => ?_, fun hnamed => hjoined ?_⟩
      · rw [hitems.field?_eq]
        exact hgone ((hagree _).gone.trans hgone')
      · have hvalue := (hagree (path ++ [Numeral.text i])).joined field
        obtain ⟨value', hvalue', htext⟩ := Option.bind_eq_some_iff.mp hnamed
        rw [hvalue'] at hvalue
        generalize Entries.get? (c (path ++ [Numeral.text i])).joined field = y at hvalue ⊢
        cases hvalue with
        | some hvalues => rwa [Option.bind_some, hvalues.text?_eq]

theorem text?_changed {n : Node} {c : Changes} (hvalue : (c []).value = none) :
    (n.changed c).text? = n.text? := by
  cases n with
  | scalar s => rw [Node.changed_scalar, hvalue]; rfl
  | _ => rfl

theorem keepsNames_of_free {names : List String} {c : Changes}
    (hvalue : ∀ path, (c path).value = none) (h : NamesFree names tree c) :
    tree.KeepsNames names c := by
  intro path items i item hat hitem name hname
  have hfield : ∀ field ∈ Node.nameFields,
      (item.changed (c.below (path ++ [Numeral.text i]))).field? field = some name
        ↔ item.field? field = some name := by
    intro field hfield
    obtain ⟨hkept, hjoined⟩ := h path items i item hat hitem field hfield name hname
    cases item with
    | scalar s =>
      rw [Node.changed_scalar, Changes.below, List.append_nil, hvalue]
      rfl
    | sequence items => rfl
    | mapping es =>
      rw [Node.field?, Node.changed_mapping, Node.get?, Entries.get?_concat,
        Node.get?_changedEntries]
      simp only [Changes.below, List.append_assoc, List.cons_append, List.nil_append,
        List.append_nil]
      cases hgone : (c (path ++ [Numeral.text i, field])).gone with
      | true => exact iff_of_false hjoined (hkept hgone)
      | false =>
        rw [Node.field?, Node.get?]
        cases Entries.get? es field with
        | none => exact iff_of_false hjoined (by rintro ⟨⟩)
        | some n => exact Eq.congr_left (text?_changed (hvalue _))
  unfold Node.isNamed
  rw [Bool.eq_iff_iff, List.any_eq_true, List.any_eq_true]
  simp only [beq_iff_eq]
  exact exists_congr fun field => and_congr_right (hfield field)

end Changes

/-! ## What an injection does -/

section Outcome

variable {tree : Node} {prior : List Step} {s : Step} {entries : Entries Node}
  {path : List String} {key : String}

/-- Injections that were carried out in the same mapping as a call and do not meet its entries. -/
def Clear (prior : List Step) (place : List String) (entries : Entries Node) : Prop :=
  ∀ t ∈ prior, place.dropLast = t.place.dropLast → t.isInjected = true →
    ∀ key ∈ Entries.keys entries, key ∉ Entries.keys t.injected ∧ t.place.getLast? ≠ some key

/-- Injections that do not meet the entries of a call leave it to the tree before them which of the
entries are new. -/
theorem contains_erase_changed (hclear : Clear prior (path ++ [key]) entries) {es : Entries Node}
    {k : String} (hk : k ∈ Entries.keys entries) :
    Entries.contains (Entries.erase (Node.changedEntries es ((changesOf prior).below path) ++
      (changesOf prior path).joined) key) k = Entries.contains (Entries.erase es key) k := by
  have hjoined : k ∉ Entries.keys (changesOf prior path).joined := by
    intro hmem
    obtain ⟨e, he, rfl⟩ := List.mem_map.mp hmem
    rw [joined_changesOf] at he
    obtain ⟨t, ht, hadded⟩ := List.mem_flatMap.mp he
    rw [Step.joined_changes] at hadded
    split at hadded
    · next hparent =>
      have hkey : e.1 ∈ Entries.keys t.injected := List.mem_map_of_mem hadded
      exact (hclear t ht (by rw [List.dropLast_concat, hparent]) (Step.isInjected_of_mem hkey) _
        hk).1 hkey
    · cases hadded
  have hgone : ((changesOf prior).below path [k]).gone = false := by
    refine Bool.eq_false_iff.mpr fun hgone => ?_
    obtain ⟨t, ht, hplace, hinjected⟩ := gone_changesOf_iff.mp hgone
    refine (hclear t ht ?_ hinjected k hk).2 ?_
    · rw [← hplace, List.dropLast_concat, List.dropLast_concat]
    · rw [← hplace]
      simp
  have hkeys : k ∈ Entries.keys (Node.changedEntries es ((changesOf prior).below path) ++
      (changesOf prior path).joined) ↔ k ∈ Entries.keys es := by
    rw [Entries.keys, List.map_append, List.mem_append, ← Entries.keys, ← Entries.keys,
      Node.keys_changedEntries, List.mem_filter, hgone]
    simp [hjoined]
  rw [Bool.eq_iff_iff, Entries.contains_iff, Entries.contains_iff, Entries.keys_erase,
    Entries.keys_erase, List.mem_filter, List.mem_filter, hkeys]

/-- What an injection adds does not depend on injections before it that do not meet it. -/
theorem outcome_eq_of_at (hpending : Pending tree (changesOf prior) s.call)
    (hbefore : s.before.tree = tree.changed (changesOf prior))
    (hanswer : s.before.answer s.call = .ok (.inject entries)) {es : Entries Node}
    (hplace : s.place = path ++ [key]) (hat : tree.At path (.mapping es))
    (hclear : Clear prior s.place entries) :
    s.outcome = .injected
      (entries.filter fun e => !Entries.contains (Entries.erase es key) e.1) := by
  have hkeeps : (changesOf prior).Keeps (path ++ [key]) := hplace ▸ hpending.keeps
  have hthere := (hat.changed (hkeeps.of_prefix (List.prefix_append _ _))).resolve
  rw [← hbefore, Node.changed_mapping, Changes.below, List.append_nil] at hthere
  rw [Step.outcome, hanswer, hplace, List.getLast?_append_cons, List.getLast?_singleton,
    List.dropLast_concat, hthere]
  refine congrArg Outcome.injected (List.filter_congr fun e he => congrArg Bool.not ?_)
  exact contains_erase_changed (hplace ▸ hclear) (List.mem_map_of_mem he)

theorem refused_at_root (hanswer : s.before.answer s.call = .ok (.inject entries))
    (hplace : s.place = []) :
    s.outcome = .kept ∧ s.faults = [.structural "$" .injectAtRoot] := by
  have hlast : s.call.site.place.cursor.last? = none := congrArg List.getLast? hplace
  have hrefused : respond s.before.tree s.call.site.place.cursor (.inject entries)
      = .error (.structural "$" .injectAtRoot) := by
    simp only [respond, injectAt, hlast]
  constructor
  · rw [Step.outcome, hanswer, hplace]
    rfl
  · rw [Step.faults, runCall_of_respond_error (Prod.ext hanswer rfl) hrefused]

theorem refused_in_sequence (hanswer : s.before.answer s.call = .ok (.inject entries))
    (hplace : s.place = path ++ [key]) {items : List Node}
    (hparent : s.before.tree.resolve path = .ok (.sequence items)) :
    s.outcome = .kept ∧
      s.faults = [.structural s.call.site.place.cursor.qualified .injectOutsideMap] := by
  have hlast : s.call.site.place.cursor.last? = some key := by
    rw [Cursor.last?, show s.call.site.place.cursor.components = path ++ [key] from hplace,
      List.getLast?_append_cons, List.getLast?_singleton]
  have hresolve : s.call.site.place.cursor.parent.resolve s.before.tree
      = .ok (.sequence items) := by
    rw [Cursor.parent, Cursor.resolve,
      show s.call.site.place.cursor.components = path ++ [key] from hplace, List.dropLast_concat,
      hparent]
  have hrefused : respond s.before.tree s.call.site.place.cursor (.inject entries)
      = .error (.structural s.call.site.place.cursor.qualified .injectOutsideMap) := by
    simp only [respond, injectAt, hlast, hresolve]
  constructor
  · simp [Step.outcome, hanswer, hplace, hparent]
  · rw [Step.faults, runCall_of_respond_error (Prod.ext hanswer rfl) hrefused]

end Outcome

end Evaluation

end Laminate
