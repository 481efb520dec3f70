import Laminate.Proofs.Merge.Branches
import Laminate.Proofs.Node.Entries

/-!
# No call to `merge` is left

A call to `merge` stands for itself nowhere: as the first element of a list it is used up, and
anywhere else it is refused and leaves what was in its place. So laying a node over one without such
calls gives one without them, whatever becomes of it (`freeOf_overlay`), and the tree that documents
give, which starts empty, never holds any (`no_merge_call_left`).

The lists are treated for any property of nodes: if null has it, and all incoming elements keep it
wherever they are laid, then each strategy makes lists of nodes with the property of such lists
(`forall_mem_mergeList`).
-/

namespace Laminate

namespace Node

mutual

/-- The texts in a tree, at any depth, in order. -/
def texts : Node → List String
  | .scalar s => (string? (.scalar s)).toList
  | .sequence items => textsOfItems items
  | .mapping es => textsOfEntries es
termination_by structural n => n

/-- The texts in the items of a sequence. -/
def textsOfItems : List Node → List String
  | [] => []
  | n :: items => texts n ++ textsOfItems items
termination_by structural items => items

/-- The texts in the values of a mapping. -/
def textsOfEntries : List (String × Node) → List String
  | [] => []
  | (_, n) :: es => texts n ++ textsOfEntries es
termination_by structural es => es

end

theorem texts_sequence (items : List Node) : (sequence items).texts = items.flatMap texts := by
  show textsOfItems items = _
  induction items with
  | nil => rfl
  | cons n items ih => rw [textsOfItems, ih, List.flatMap_cons]

theorem texts_mapping (es : Entries Node) :
    (mapping es).texts = es.flatMap fun e => e.2.texts := by
  show textsOfEntries es = _
  induction es with
  | nil => rfl
  | cons e es ih => rw [textsOfEntries, ih, List.flatMap_cons]

/-- No text in the tree calls the operator of this name. -/
def FreeOf (name : String) (n : Node) : Prop :=
  ∀ text ∈ n.texts, Call.isCallTo text name = false

variable {name : String}

theorem freeOf_scalar_iff {s : Scalar} :
    (scalar s).FreeOf name ↔ Merge.isCall (scalar s) name = false := by
  unfold FreeOf Merge.isCall
  rw [texts]
  cases string? (scalar s) <;> simp

theorem freeOf_sequence_iff {items : List Node} :
    (sequence items).FreeOf name ↔ ∀ n ∈ items, n.FreeOf name := by
  unfold FreeOf
  rw [texts_sequence]
  simp only [List.mem_flatMap]
  exact ⟨fun h n hn text htext => h text ⟨n, hn, htext⟩,
    fun h text ⟨n, hn, htext⟩ => h n hn text htext⟩

theorem freeOf_mapping_iff {es : Entries Node} :
    (mapping es).FreeOf name ↔ ∀ e ∈ es, e.2.FreeOf name := by
  unfold FreeOf
  rw [texts_mapping]
  simp only [List.mem_flatMap]
  exact ⟨fun h e he text htext => h text ⟨e, he, htext⟩,
    fun h text ⟨e, he, htext⟩ => h e he text htext⟩

end Node

namespace Merge

/-! ## Elements of merged lists -/

section Elements

variable {P : Node → Prop} {path : Cursor} {items : List Incoming} {base merged : List Node}

/-- An incoming element that has a property in the end if what it is laid over has it. -/
def Incoming.Keeps (P : Node → Prop) (item : Incoming) : Prop :=
  ∀ base path, P base → P (item.layOver base path).value

theorem forall_mem_adoptAll (hnull : P .null) (hitems : ∀ item ∈ items, item.Keeps P) :
    ∀ index : Nat, ∀ n ∈ (Incoming.adoptAll path index items).value, P n := by
  induction items with
  | nil => exact fun _ => List.forall_mem_nil _
  | cons item items ih =>
    intro index
    obtain ⟨hitem, hitems⟩ := List.forall_mem_cons.mp hitems
    exact List.forall_mem_cons.mpr ⟨hitem _ _ hnull, ih hitems (index + 1)⟩

theorem forall_mem_mergeInline (hnull : P .null) (hitems : ∀ item ∈ items, item.Keeps P) :
    ∀ (index : Nat) {base : List Node}, (∀ n ∈ base, P n) →
    ∀ n ∈ (mergeInline path index base items).value, P n := by
  induction items with
  | nil =>
    intro index base hbase
    rwa [mergeInline, Logged.value_pure]
  | cons item items ih =>
    intro index base hbase
    obtain ⟨hitem, hitems⟩ := List.forall_mem_cons.mp hitems
    cases base with
    | nil =>
      rw [mergeInline]
      exact List.forall_mem_cons.mpr ⟨hitem _ _ hnull, ih hitems (index + 1) hbase⟩
    | cons slot base =>
      obtain ⟨hslot, hbase⟩ := List.forall_mem_cons.mp hbase
      rw [mergeInline]
      exact List.forall_mem_cons.mpr ⟨hitem _ _ hslot, ih hitems (index + 1) hbase⟩

theorem forall_mem_layByKey (key : String) (hnull : P .null)
    (hitems : ∀ item ∈ items, item.Keeps P) : ∀ {result : List Node}, (∀ n ∈ result, P n) →
    ∀ n ∈ (layByKey key path result items).value, P n := by
  induction items with
  | nil => exact fun hresult => hresult
  | cons item items ih =>
    intro result hresult
    obtain ⟨hitem, hitems⟩ := List.forall_mem_cons.mp hitems
    rw [layByKey]
    split
    · next i _ =>
      have hslot : P (result[i]?.getD .null) := by
        cases hget : result[i]? with
        | none => exact hnull
        | some n => exact hresult n (List.mem_of_getElem? hget)
      refine ih hitems fun n hn => ?_
      rcases List.mem_or_eq_of_mem_set hn with hmem | rfl
      · exact hresult n hmem
      · exact hitem _ _ hslot
    · exact ih hitems (List.forall_mem_append.mpr
        ⟨hresult, List.forall_mem_singleton.mpr (hitem _ _ hnull)⟩)

theorem forall_mem_mergeByKey (key : String) (hnull : P .null)
    (hitems : ∀ item ∈ items, item.Keeps P) (hbase : ∀ n ∈ base, P n)
    (h : (mergeByKey key path base items).value = .ok merged) : ∀ n ∈ merged, P n := by
  unfold mergeByKey at h
  dsimp only at h
  split at h
  · cases h
  · cases h
    exact forall_mem_layByKey key hnull hitems hbase

theorem forall_mem_mergePlain {fallback : Fallback} (hnull : P .null)
    (hitems : ∀ item ∈ items, item.Keeps P) (hbase : ∀ n ∈ base, P n)
    (h : (mergePlain fallback path base items).value = .ok merged) : ∀ n ∈ merged, P n := by
  unfold mergePlain at h
  split at h
  · exact forall_mem_mergeByKey defaultKey hnull hitems hbase h
  · cases fallback with
    | inline =>
      cases h
      exact forall_mem_mergeInline hnull hitems 0 hbase
    | append =>
      cases h
      exact List.forall_mem_append.mpr ⟨hbase, forall_mem_adoptAll hnull hitems _⟩

theorem forall_mem_applyBatch {batch : Batch} (hnull : P .null)
    (hentries : ∀ item ∈ batch.entries, item.Keeps P) (hbase : ∀ n ∈ base, P n)
    (h : (applyBatch path base batch).value = .ok merged) : ∀ n ∈ merged, P n := by
  unfold applyBatch at h
  split at h
  · -- a delete leaves a part of the list
    split at h
    · cases hposition : deletePosition base _ with
      | error problem =>
        rw [hposition] at h
        cases h
      | ok i =>
        rw [hposition] at h
        cases h
        exact fun n hn => hbase n (List.mem_of_mem_eraseIdx hn)
    · cases h
  · -- an insert puts its entries between two parts of it
    split at h
    · cases h
    · split at h
      · cases h
      · cases h
        refine List.forall_mem_append.mpr ⟨List.forall_mem_append.mpr ⟨?_, ?_⟩, ?_⟩
        · exact fun n hn => hbase n (List.mem_of_mem_take hn)
        · exact forall_mem_adoptAll hnull hentries _
        · exact fun n hn => hbase n (List.mem_of_mem_drop hn)

theorem forall_mem_applyBatches {batches : List Batch} (hnull : P .null)
    (hbatches : ∀ batch ∈ batches, ∀ item ∈ batch.entries, item.Keeps P) :
    ∀ {base : List Node}, (∀ n ∈ base, P n) →
    (applyBatches path base batches).value = .ok merged → ∀ n ∈ merged, P n := by
  induction batches with
  | nil =>
    intro base hbase h
    cases h
    exact hbase
  | cons batch batches ih =>
    intro base hbase h
    obtain ⟨hbatch, hbatches⟩ := List.forall_mem_cons.mp hbatches
    rw [applyBatches, Logged.value_bind] at h
    cases happlied : (applyBatch path base batch).value with
    | error problem =>
      rw [happlied] at h
      cases h
    | ok list =>
      rw [happlied] at h
      exact ih hbatches (forall_mem_applyBatch hnull hbatch hbase happlied) h

theorem forall_mem_mergeEdits (hnull : P .null) (hitems : ∀ item ∈ items, item.Keeps P)
    (hbase : ∀ n ∈ base, P n) (h : (mergeEdits path base items).value = .ok merged) :
    ∀ n ∈ merged, P n := by
  unfold mergeEdits at h
  split at h
  · cases h
  · next hcut =>
    have hparts := forall_mem_batches hitems (cut_eq_ok_iff.mp hcut)
    exact forall_mem_applyBatches hnull hparts.2 hbase h

/-- **Whichever strategy is chosen, all elements of a merged list have a property that null and the
elements of the base list have and that the incoming elements keep.** -/
theorem forall_mem_mergeList {fallback : Fallback} (hnull : P .null)
    (hitems : ∀ item ∈ items, item.Keeps P) (hbase : ∀ n ∈ base, P n)
    (h : (mergeList fallback path base items).value = .ok merged) : ∀ n ∈ merged, P n := by
  cases items with
  | nil => exact forall_mem_mergePlain hnull hitems hbase h
  | cons first rest =>
    have hrest := (List.forall_mem_cons.mp hitems).2
    rw [mergeList] at h
    cases hdirective : Directive.ofNode? first.node with
    | none =>
      rw [hdirective] at h
      exact forall_mem_mergePlain hnull hitems hbase h
    | some directive =>
      rw [hdirective] at h
      cases directive with
      | error problem => cases h
      | ok directive =>
        cases directive with
        | inline =>
          cases h
          exact forall_mem_mergeInline hnull hrest 0 hbase
        | replace =>
          cases h
          exact forall_mem_adoptAll hnull hrest 0
        | append =>
          cases h
          exact List.forall_mem_append.mpr ⟨hbase, forall_mem_adoptAll hnull hrest _⟩
        | prepend =>
          cases h
          exact List.forall_mem_append.mpr ⟨forall_mem_adoptAll hnull hrest _, hbase⟩
        | merge key => exact forall_mem_mergeByKey key hnull hrest hbase h
        | edit edit => exact forall_mem_mergeEdits hnull hitems hbase h

end Elements

/-! ## Documents -/

variable {fallback : Fallback}

theorem freeOf_overlayEntries {es : Entries Node} {path : Cursor}
    (hes : ∀ e ∈ es, ∀ base path, base.FreeOf "merge" →
      (overlay fallback e.2 base path).value.FreeOf "merge") :
    ∀ {base : Entries Node}, (∀ e ∈ base, e.2.FreeOf "merge") →
    ∀ e ∈ (overlayEntries fallback es base path).value, e.2.FreeOf "merge" := by
  induction es with
  | nil => exact fun hbase => hbase
  | cons e es ih =>
    intro base hbase
    obtain ⟨he, hes⟩ := List.forall_mem_cons.mp hes
    have hslot : ((Entries.get? base e.1).getD .null).FreeOf "merge" := by
      cases hget : Entries.get? base e.1 with
      | none => exact Node.freeOf_scalar_iff.mpr rfl
      | some n => exact hbase _ (Entries.mem_of_get? hget)
    rw [value_overlayEntries_cons]
    exact ih hes (Entries.forall_mem_insert hbase (he _ _ hslot))

/-- **Whatever is laid over a tree without calls to `merge`, there are none in the result.** -/
theorem freeOf_overlay (n : Node) : ∀ (base : Node) (path : Cursor), base.FreeOf "merge" →
    (overlay fallback n base path).value.FreeOf "merge" := by
  induction n using Node.induction with
  | scalar s =>
    intro base path hbase
    rw [overlay]
    split
    · exact hbase
    · next hcall => exact Node.freeOf_scalar_iff.mpr (Bool.eq_false_iff.mpr hcall)
  | sequence items ih =>
    intro base path hbase
    have hitems : ∀ item ∈ incoming fallback items, item.Keeps (Node.FreeOf "merge") := by
      rw [incoming_eq_map]
      exact List.forall_mem_map.mpr ih
    have hslot : ∀ n ∈ base.items?.getD [], n.FreeOf "merge" := by
      cases base with
      | sequence items => exact Node.freeOf_sequence_iff.mp hbase
      | _ => exact List.forall_mem_nil _
    rw [value_overlay_sequence]
    split
    · next hmerged =>
      exact Node.freeOf_sequence_iff.mpr
        (forall_mem_mergeList (Node.freeOf_scalar_iff.mpr rfl) hitems hslot hmerged)
    · exact hbase
  | mapping es ih =>
    intro base path hbase
    have hslot : ∀ e ∈ base.entries?.getD [], e.2.FreeOf "merge" := by
      cases base with
      | mapping es => exact Node.freeOf_mapping_iff.mp hbase
      | _ => exact List.forall_mem_nil _
    rw [value_overlay_mapping]
    exact Node.freeOf_mapping_iff.mpr (freeOf_overlayEntries ih hslot)

theorem freeOf_layer {stack : Stack} (h : (Node.mapping stack.tree).FreeOf "merge")
    (doc : Entries Node) : (Node.mapping (stack.layer fallback doc).tree).FreeOf "merge" :=
  freeOf_overlay (.mapping doc) (.mapping stack.tree) .root h

theorem freeOf_layerAll {docs : List Node} {tree : Node} : ∀ {stack : Stack} {number : Nat},
    (Node.mapping stack.tree).FreeOf "merge" →
    (stack.layerAll fallback number docs).1 = .ok tree → tree.FreeOf "merge" := by
  induction docs with
  | nil =>
    intro stack number hstack h
    obtain ⟨-, rfl⟩ := Stack.finish_eq_ok.mp h
    exact hstack
  | cons doc docs ih =>
    intro stack number hstack h
    cases doc with
    | mapping es => exact ih (freeOf_layer hstack es) h
    | _ => cases h

/-- **When documents can be merged, no text at any depth of the tree that they give is a call to
`merge`.** -/
theorem no_merge_call_left (fallback : Fallback) (docs : List Node) (context : Context)
    {tree : Node} (h : (documents fallback docs context).1 = .ok tree) :
    ∀ text ∈ tree.texts, Call.isCallTo text "merge" = false :=
  freeOf_layerAll (Node.freeOf_mapping_iff.mpr (List.forall_mem_nil _)) h

/-- Documents with calls to `merge` at the head of lists, in lists and in new elements of lists. -/
def keyedDocuments : List Node :=
  [.mapping [("jobs", .sequence [.string "(( merge on id ))", .mapping [("id", .string "a"),
      ("ports", .sequence [.string "(( merge ))", .mapping [("name", .string "http")]])]])],
    .mapping [("jobs", .sequence [.string "(( merge on id ))", .mapping [("id", .string "a"),
      ("ports", .sequence [.string "(( merge ))",
        .mapping [("name", .string "http"), ("number", .integer 80)]])]])]]

/-- What they give. -/
def keyedTree : Node :=
  .mapping [("jobs", .sequence [.mapping [("id", .string "a"),
    ("ports", .sequence [.mapping [("name", .string "http"), ("number", .integer 80)]])]])]

theorem no_merge_call_left_in_lists :
    (documents .inline keyedDocuments {}).1 = .ok keyedTree ∧ keyedTree.texts = ["a", "http"] ∧
    ∀ text ∈ keyedTree.texts, Call.isCallTo text "merge" = false :=
  ⟨rfl, rfl, no_merge_call_left .inline keyedDocuments {} rfl⟩

end Merge

end Laminate
