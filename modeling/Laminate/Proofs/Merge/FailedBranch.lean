import Laminate.Proofs.Merge.Frame

/-!
# Branches that fail

A branch fails on its own if it is a call to `merge` out of place, or a list that cannot be merged
(`Branch.ownFault?`). It then leaves what it was laid over, which is its slot, or null if there was
no slot: a new place keeps the null, and does not disappear again (`value_laid_of_ownFault`).
A list that fails has noted by then that it overwrites a call that marks its value for removal,
although it does not (`log_laid_of_ownFault`). Otherwise the merge is as without the entry
(`EntryFrame.keepsTarget`).
-/

namespace Laminate.Merge

namespace Branch

variable {fallback : Fallback} {b : Branch} {fault : Fault}

/-- The fault of a branch itself, not of one of its parts. -/
def ownFault? (fallback : Fallback) (b : Branch) : Option Fault :=
  match b.node with
  | .scalar s =>
    if isCall (.scalar s) "merge" then some (.structural b.path.qualified .misplacedMerge) else none
  | .mapping _ => none
  | .sequence nodes =>
    match (mergeOver fallback nodes b.base b.path).value with
    | .ok _ => none
    | .error fault => some fault

/-- What a failing branch leaves is what was in its place, if anything was, and it records no
overwritten call that marks its value for removal. -/
structure KeepsSlot (fallback : Fallback) (b : Branch) : Prop where
  value : some (b.laid fallback).value = b.slot
  marks : (b.laid fallback).log.filterMap Note.overwritten? = []

/-- The branch is no list over a call that marks its value for removal, and no part of it overwrites
such a call. -/
structure Quiet (fallback : Fallback) (b : Branch) : Prop where
  slot : b.node.isSequence = true → isCall b.base "prune" = false
  parts : ∀ part ∈ b.parts fallback, (part.laid fallback).log.filterMap Note.overwritten? = []

theorem value_laid_of_ownFault (h : b.ownFault? fallback = some fault) :
    (b.laid fallback).value = b.base := by
  obtain ⟨node, slot, path⟩ := b
  cases node with
  | scalar s =>
    simp only [ownFault?] at h
    split at h
    · next hcall => simp only [laid, overlay, hcall, if_true]; rfl
    · cases h
  | mapping es => cases h
  | sequence nodes =>
    simp only [ownFault?] at h
    rw [laid, value_overlay_sequence]
    split at h
    · cases h
    · next _ heq => simp only [heq]

theorem log_laid_of_ownFault (h : b.ownFault? fallback = some fault) :
    (b.laid fallback).log = (if b.node.isSequence then overwrittenNotes b.base b.path else []) ++
      (notes fallback (b.parts fallback) ++ [.fault fault]) := by
  obtain ⟨node, slot, path⟩ := b
  cases node with
  | scalar s =>
    simp only [ownFault?] at h
    split at h
    · next hcall =>
      cases h
      simp only [laid, overlay, hcall, if_true]
      rfl
    · cases h
  | mapping es => cases h
  | sequence nodes =>
    simp only [ownFault?] at h
    split at h
    · cases h
    · next fault' heq =>
      cases h
      -- the slot is noted as overwritten before it is known whether the list can be merged
      rw [laid, log_overlay_sequence, heq, mergeOver, log_mergeList]
      rfl

theorem filterMap_overwrittenNotes_eq_nil {base : Node} {path : Cursor} :
    (overwrittenNotes base path).filterMap Note.overwritten? = [] ↔
      isCall base "prune" = false := by
  unfold overwrittenNotes
  cases isCall base "prune" <;> simp [Note.overwritten?]

theorem filterMap_notes_eq_nil {branches : List Branch} :
    (notes fallback branches).filterMap Note.overwritten? = [] ↔
      ∀ part ∈ branches, (part.laid fallback).log.filterMap Note.overwritten? = [] := by
  induction branches with
  | nil => simp [notes]
  | cons b branches ih => simp [notes_cons, List.filterMap_append, ih]

/-- A branch that fails records nothing if and only if it is quiet. -/
theorem marks_iff_quiet (h : b.ownFault? fallback = some fault) :
    (b.laid fallback).log.filterMap Note.overwritten? = [] ↔ b.Quiet fallback := by
  rw [log_laid_of_ownFault h, List.filterMap_append, List.filterMap_append,
    List.append_eq_nil_iff, List.append_eq_nil_iff, filterMap_notes_eq_nil]
  cases hsequence : b.node.isSequence with
  | false =>
    constructor
    · rintro ⟨-, hparts, -⟩
      exact ⟨fun h => absurd (hsequence.symm.trans h) Bool.false_ne_true, hparts⟩
    · rintro ⟨-, hparts⟩
      exact ⟨rfl, hparts, rfl⟩
  | true =>
    rw [if_pos rfl, filterMap_overwrittenNotes_eq_nil]
    constructor
    · rintro ⟨hslot, hparts, -⟩
      exact ⟨fun _ => hslot, hparts⟩
    · rintro ⟨hslot, hparts⟩
      exact ⟨hslot hsequence, hparts, rfl⟩

/-- A branch that fails leaves its slot as it was if and only if it had one. -/
theorem value_iff_isSome (h : b.ownFault? fallback = some fault) :
    some (b.laid fallback).value = b.slot ↔ b.slot.isSome := by
  rw [value_laid_of_ownFault h, base]
  cases b.slot <;> simp

/-- **A branch that fails keeps its slot if and only if it had one and is quiet.** -/
theorem keepsSlot_iff (h : b.ownFault? fallback = some fault) :
    b.KeepsSlot fallback ↔ b.slot.isSome ∧ b.Quiet fallback := by
  rw [← value_iff_isSome h, ← marks_iff_quiet h]
  exact ⟨fun ⟨hvalue, hmarks⟩ => ⟨hvalue, hmarks⟩, fun ⟨hvalue, hmarks⟩ => ⟨hvalue, hmarks⟩⟩

end Branch

/-! ## Items matched by a key -/

theorem isMapping_of_keyFault? {side : Side} {key : String} {path : Cursor} {nodes : List Node} :
    ∀ {index : Nat}, keyFault? side key path index nodes = none →
    ∀ n ∈ nodes, n.isMapping = true := by
  induction nodes with
  | nil => exact fun _ => List.forall_mem_nil _
  | cons n nodes ih =>
    intro index h
    rw [keyFault?] at h
    split at h
    · cases h
    · next hproblem =>
      refine List.forall_mem_cons.mpr ⟨?_, ih h⟩
      unfold keyProblem? at hproblem
      split at hproblem
      · assumption
      · cases hproblem

theorem node_mem_of_mem_matchedParts {fallback : Fallback} {key : String} {path : Cursor}
    {nodes : List Node} {b : Branch} : ∀ {result : List Node},
    b ∈ matchedParts fallback key path result nodes → b.node ∈ nodes := by
  induction nodes with
  | nil => exact fun h => nomatch h
  | cons n nodes ih =>
    intro result h
    simp only [matchedParts] at h
    split at h
    all_goals
      rcases List.mem_cons.mp h with rfl | hrest
      · exact List.mem_cons_self
      · exact List.mem_cons_of_mem _ (ih hrest)

/-- Items that are matched by a key are mappings, and do not fail on their own. -/
theorem ownFault?_of_mem_keyedParts {fallback : Fallback} {key : String} {path : Cursor}
    {base nodes : List Node} {b : Branch} (h : b ∈ keyedParts fallback key path base nodes) :
    b.ownFault? fallback = none := by
  unfold keyedParts at h
  split at h
  · cases h
  · next hnone =>
    have hmapping := isMapping_of_keyFault? (Option.or_eq_none_iff.mp hnone).2 b.node
      (node_mem_of_mem_matchedParts h)
    obtain ⟨node, slot, path⟩ := b
    cases node with
    | mapping es => rfl
    | _ => cases hmapping

/-! ## Entries that fail -/

section Layers

variable {fallback : Fallback} {stack : Stack} {doc : Entries Node} {keys : List String}
  {key : String} {n : Node}

/-- After a document has been laid over the tree, the place of an entry holds what it held before,
no overwritten call is recorded for the entry, and tree and context are as if the entry had not been
in the document. -/
structure KeepsTarget (fallback : Fallback) (stack : Stack) (doc : Entries Node)
    (keys : List String) (key : String) (n : Node) : Prop where
  value : valueAt? (stack.layer fallback doc).tree keys key = valueAt? stack.tree keys key
  marks : ((entryBranch n stack.tree .root keys key).laid fallback).log.filterMap Note.overwritten?
    = []
  tree : (stack.layer fallback doc).tree = (stack.layer fallback (eraseAt doc keys key)).tree
  context : (stack.layer fallback doc).context
    = (stack.layer fallback (eraseAt doc keys key)).context

/-- What a layer records depends on the tree that it gives and on the calls that it overwrites. -/
theorem context_layer_congr {doc' : Entries Node}
    (htree : (stack.layer fallback doc).tree = (stack.layer fallback doc').tree)
    (hmarks : (overlayEntries fallback doc stack.tree .root).log.filterMap Note.overwritten?
      = (overlayEntries fallback doc' stack.tree .root).log.filterMap Note.overwritten?) :
    (stack.layer fallback doc).context = (stack.layer fallback doc').context := by
  simp only [Stack.layer] at htree ⊢
  rw [htree, hmarks]

/-- An entry that gives what is there already and overwrites no marked call changes nothing. -/
theorem EntryFrame.keepsTarget (h : EntryFrame fallback doc stack.tree .root keys key n)
    (hsame : some ((entryBranch n stack.tree .root keys key).laid fallback).value
      = valueAt? stack.tree keys key)
    (hmarks : ((entryBranch n stack.tree .root keys key).laid fallback).log.filterMap
      Note.overwritten? = []) : KeepsTarget fallback stack doc keys key n := by
  have htree : (stack.layer fallback doc).tree
      = (stack.layer fallback (eraseAt doc keys key)).tree := h.unchanged hsame.symm
  refine ⟨h.value.trans hsame, hmarks, htree, context_layer_congr htree ?_⟩
  obtain ⟨before, after, hwith, hwithout⟩ := h.notes
  rw [hwith, hwithout, List.filterMap_append, List.filterMap_append, List.filterMap_append, hmarks,
    List.append_nil]

end Layers

/-- **A failing branch leaves the tree as it was if and only if there was something in its place and
it is quiet; the rest of the tree is in any case as without it.** That holds for the entries of
mappings with regard to the whole tree, and for every branch, in mappings and in lists of any kind,
with regard to its slot. Items of lists that are matched by a key do not fail; items by position and
new items end in elements of their own, whatever the others do. -/
theorem failing_branch_keeps_target_iff (fallback : Fallback) {doc : Entries Node}
    (hdoc : (Node.mapping doc).WellFormed) (stack : Stack) :
    (∀ keys key n fault, valueAt? doc keys key = some n →
      (entryBranch n stack.tree .root keys key).ownFault? fallback = some fault →
      EntryFrame fallback doc stack.tree .root keys key n ∧
      (KeepsTarget fallback stack doc keys key n ↔
        (valueAt? stack.tree keys key).isSome ∧
          (entryBranch n stack.tree .root keys key).Quiet fallback)) ∧
    (∀ (b : Branch) (fault : Fault), b.Within fallback (.ofEntries doc stack.tree .root) →
      b.ownFault? fallback = some fault →
      (b.laid fallback).log <:+: (overlayEntries fallback doc stack.tree .root).log ∧
      (b.KeepsSlot fallback ↔ b.slot.isSome ∧ b.Quiet fallback)) ∧
    (∀ here base nodes,
      (∀ key, ∀ b ∈ keyedParts fallback key here base nodes, b.ownFault? fallback = none) ∧
      (∀ index, (mergeInline here index base (incoming fallback nodes)).value
        = ((inlineParts here index base nodes).map fun b => (b.laid fallback).value) ++
          base.drop nodes.length) ∧
      (∀ index, (Incoming.adoptAll here index (incoming fallback nodes)).value
        = (adoptedParts here index nodes).map fun b => (b.laid fallback).value)) := by
  refine ⟨fun keys key n fault hentry hfault => ?_, fun b fault hwithin hfault => ⟨?_, ?_⟩,
    fun here base nodes => ⟨fun key b => ownFault?_of_mem_keyedParts,
      fun index => value_mergeInline nodes index base, fun index => value_adoptAll nodes index⟩⟩
  · have hframe : EntryFrame fallback doc stack.tree .root keys key n :=
      entryFrame_of_valueAt? hdoc hentry
    have hslot : some ((entryBranch n stack.tree .root keys key).laid fallback).value
        = valueAt? stack.tree keys key ↔ (valueAt? stack.tree keys key).isSome :=
      Branch.value_iff_isSome hfault
    rw [← Branch.marks_iff_quiet hfault, ← hslot]
    refine ⟨hframe, fun hkeeps => ⟨?_, hkeeps.marks⟩, fun ⟨hsame, hmarks⟩ => ?_⟩
    · exact hframe.value.symm.trans hkeeps.value
    · exact hframe.keepsTarget hsame hmarks
  · rw [← Branch.log_laid_ofEntries]
    exact hwithin.infix
  · exact Branch.keepsSlot_iff hfault

/-- A list with a directive that needs an element that the base list does not have. -/
def deleteMissing : Node :=
  .sequence [.string "(( delete \"x\" ))"]

theorem failing_list_keeps_target :
    KeepsTarget .inline
      { tree := [("m", .mapping [("list", .sequence [.string "y"]), ("b", .integer 1)])] }
      [("m", .mapping [("list", deleteMissing), ("b", .integer 2)])] ["m"] "list"
      deleteMissing := by
  have hdoc : (Node.mapping [("m", .mapping [("list", deleteMissing),
      ("b", .integer 2)])]).WellFormed := by
    refine .mapping (by decide) (List.forall_mem_singleton.mpr (.mapping (by decide)
      (List.forall_mem_cons.mpr ⟨.sequence (by decide) ?_,
        List.forall_mem_singleton.mpr (.scalar _)⟩)))
    exact List.forall_mem_singleton.mpr (.scalar _)
  refine ((failing_branch_keeps_target_iff .inline hdoc _).1 _ _ _
    (.structural "$.m.list" (.anchorMissing "name" "x")) rfl rfl).2.mpr ⟨rfl, ?_, ?_⟩
  · exact fun _ => rfl
  · exact List.forall_mem_nil _

/-- A new key keeps the null that its failing entry was laid over, and a failing list records that
it overwrites the call to `prune` that it leaves in place. -/
theorem failing_branch_changes_target :
    ((entryBranch (.string "(( merge ))") [] .root [] "a").ownFault? .inline
        = some (.structural "$.a" .misplacedMerge) ∧
      (Stack.layer .inline {} [("a", .string "(( merge ))")]).tree = [("a", .null)] ∧
      ¬KeepsTarget .inline {} [("a", .string "(( merge ))")] [] "a" (.string "(( merge ))")) ∧
    ((entryBranch deleteMissing [("a", .string "(( prune ))")] .root [] "a").ownFault? .inline
        = some (.structural "$.a" (.anchorMissing "name" "x")) ∧
      (Stack.layer .inline { tree := [("a", .string "(( prune ))")] } [("a", deleteMissing)]).tree
        = [("a", .string "(( prune ))")] ∧
      (Stack.layer .inline { tree := [("a", .string "(( prune ))")] }
        [("a", deleteMissing)]).context.prune = [⟨["a"]⟩] ∧
      ¬KeepsTarget .inline { tree := [("a", .string "(( prune ))")] } [("a", deleteMissing)] [] "a"
        deleteMissing) := by
  refine ⟨⟨rfl, rfl, fun h => ?_⟩, rfl, rfl, rfl, fun h => ?_⟩
  · exact absurd h.value nofun
  · exact absurd h.marks nofun

end Laminate.Merge
