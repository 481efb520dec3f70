import Laminate.Merge.List
import Laminate.Proofs.Node.Reordered

/-!
# Lists are merged alike

Two incoming lists whose elements are laid alike are merged alike over lists whose elements are
reordered (`mergeList_agree`): a strategy looks at nothing in an element but texts and kinds, so it
takes the same decisions in both.
-/

namespace Laminate.Merge

open List (Forall₂)

/-- Elements that are laid alike over nodes that are reordered. -/
structure Incoming.Agree (item item' : Incoming) : Prop where
  node : item.node.Reordered item'.node
  layOver : ∀ {base base' : Node}, base.Reordered base' → ∀ path : Cursor,
    Logged.Agree Node.Reordered (item.layOver base path) (item'.layOver base' path)

variable {path : Cursor} {key : String} {list list' base base' : List Node}
  {items items' : List Incoming}

theorem nodes_agree (h : Forall₂ Incoming.Agree items items') :
    Forall₂ Node.Reordered (items.map Incoming.node) (items'.map Incoming.node) := by
  rw [List.forall₂_map_left_iff, List.forall₂_map_right_iff]
  exact h.imp fun _ _ hitem => hitem.node

theorem adoptAll_agree (h : Forall₂ Incoming.Agree items items') : ∀ index : Nat,
    Logged.Agree (Forall₂ Node.Reordered) (Incoming.adoptAll path index items)
      (Incoming.adoptAll path index items') := by
  induction h with
  | nil => exact fun _ => .pure .nil
  | cons hitem _ ih =>
    intro index
    exact (hitem.layOver (.scalar .null) _).bind fun _ _ hadopted =>
      (ih (index + 1)).bind fun _ _ hrest => .pure (.cons hadopted hrest)

/-! ## By position -/

theorem mergeInline_agree (h : Forall₂ Incoming.Agree items items') :
    ∀ (index : Nat) {base base' : List Node}, Forall₂ Node.Reordered base base' →
    Logged.Agree (Forall₂ Node.Reordered) (mergeInline path index base items)
      (mergeInline path index base' items') := by
  induction h with
  | nil => exact fun _ _ _ hbase => by simpa only [mergeInline] using .pure hbase
  | cons hitem _ ih =>
    intro index base base' hbase
    cases hbase with
    | nil =>
      simp only [mergeInline]
      exact (hitem.layOver (.scalar .null) _).bind fun _ _ hadopted =>
        (ih (index + 1) .nil).bind fun _ _ hrest => .pure (.cons hadopted hrest)
    | cons hslot hbase =>
      simp only [mergeInline]
      exact (hitem.layOver hslot _).bind fun _ _ hmerged =>
        (ih (index + 1) hbase).bind fun _ _ hrest => .pure (.cons hmerged hrest)

/-! ## By key -/

theorem position?_eq (h : Forall₂ Node.Reordered list list') (key name : String) :
    position? list key name = position? list' key name :=
  findIdx?_of_forall₂ h fun _ _ hn => by rw [hn.field?_eq]

theorem keyFault?_eq (side : Side) (h : Forall₂ Node.Reordered list list') : ∀ index : Nat,
    keyFault? side key path index list = keyFault? side key path index list' := by
  induction h with
  | nil => exact fun _ => rfl
  | cons hn _ ih =>
    intro index
    simp only [keyFault?, keyProblem?, hn.isMapping_eq, hn.field?_eq, hn.kind_eq, ih]

theorem layByKey_agree (h : Forall₂ Incoming.Agree items items') :
    ∀ {result result' : List Node}, Forall₂ Node.Reordered result result' →
    Logged.Agree (Forall₂ Node.Reordered) (layByKey key path result items)
      (layByKey key path result' items') := by
  induction h with
  | nil => exact fun hresult => .pure hresult
  | cons hitem _ ih =>
    intro result result' hresult
    simp only [layByKey, hitem.node.field?_eq, position?_eq hresult, hresult.length_eq]
    split
    · next i _ =>
      have hslot : (result[i]?.getD .null).Reordered (result'[i]?.getD .null) :=
        getD_of_rel (getElem?_of_forall₂ hresult i) (.scalar .null)
      exact (hitem.layOver hslot _).bind fun _ _ hmerged =>
        ih (set_of_forall₂ hresult hmerged i)
    · exact (hitem.layOver (.scalar .null) _).bind fun _ _ hadopted =>
        ih (List.rel_append hresult (.cons hadopted .nil))

/-- Merges of lists that agree: in the fault, or in the elements up to their order of keys. -/
abbrev ListsAgree : Merged (Except Fault (List Node)) → Merged (Except Fault (List Node)) → Prop :=
  Logged.Agree (ResultsAgree Eq (Forall₂ Node.Reordered))

theorem mergeByKey_agree (key : String) (path : Cursor) (hbase : Forall₂ Node.Reordered base base')
    (h : Forall₂ Incoming.Agree items items') :
    ListsAgree (mergeByKey key path base items) (mergeByKey key path base' items') := by
  simp only [mergeByKey, keyFault?_eq .base hbase, keyFault?_eq .incoming (nodes_agree h)]
  split
  · exact .pure (.error rfl)
  · exact (layByKey_agree h hbase).map fun _ _ => .ok

/-! ## By edits -/

/-- Batches with the same edit whose entries are laid alike. -/
structure Batch.Agree (batch batch' : Batch) : Prop where
  edit : batch.edit = batch'.edit
  entries : Forall₂ Incoming.Agree batch.entries batch'.entries

theorem ofNode?_eq {n n' : Node} (h : n.Reordered n') :
    Directive.ofNode? n = Directive.ofNode? n' := by
  rw [Directive.ofNode?, Directive.ofNode?, h.string?_eq]

theorem batches_agree (h : Forall₂ Incoming.Agree items items') : ∀ index : Nat,
    ResultsAgree Eq
      (fun p q => Forall₂ Incoming.Agree p.1 q.1 ∧ Forall₂ Batch.Agree p.2 q.2)
      (batches path index items) (batches path index items') := by
  induction h with
  | nil => exact fun _ => .ok ⟨.nil, .nil⟩
  | cons hitem _ ih =>
    intro index
    simp only [batches, ofNode?_eq hitem.node]
    split
    · exact (ih (index + 1)).map fun _ _ hrest => ⟨.nil, .cons ⟨rfl, hrest.1⟩ hrest.2⟩
    · exact .error rfl
    · exact .error rfl
    · exact (ih (index + 1)).map fun _ _ hrest => ⟨.cons hitem hrest.1, hrest.2⟩

theorem anchor_position_eq (h : Forall₂ Node.Reordered list list') (anchor : Anchor) :
    anchor.position list = anchor.position list' := by
  cases anchor with
  | index i => rfl
  | named key name => simp only [Anchor.position, position?_eq h]

theorem ne_nil_iff (h : Forall₂ Node.Reordered list list') : list ≠ [] ↔ list' ≠ [] := by
  cases h <;> simp

theorem deletePosition_eq (h : Forall₂ Node.Reordered list list') (anchor : Anchor) :
    deletePosition list anchor = deletePosition list' anchor := by
  simp only [deletePosition, anchor_position_eq h, h.length_eq, ne_nil_iff h]

theorem insertPosition_eq (h : Forall₂ Node.Reordered list list') (after : Bool)
    (anchor : Anchor) : insertPosition list after anchor = insertPosition list' after anchor := by
  simp only [insertPosition, anchor_position_eq h, h.length_eq]

theorem insertClash?_eq (hlist : Forall₂ Node.Reordered list list')
    (h : Forall₂ Incoming.Agree items items') (key : String) :
    insertClash? list key items = insertClash? list' key items' := by
  induction h with
  | nil => rfl
  | cons hitem _ ih => simp only [insertClash?, hitem.node.field?_eq, position?_eq hlist, ih]

theorem clash?_eq (hlist : Forall₂ Node.Reordered list list')
    (h : Forall₂ Incoming.Agree items items') (anchor : Anchor) :
    anchor.clash? list items = anchor.clash? list' items' := by
  cases anchor with
  | index i => rfl
  | named key name => exact insertClash?_eq hlist h key

theorem applyBatch_agree {batch batch' : Batch} (hlist : Forall₂ Node.Reordered list list')
    (h : batch.Agree batch') :
    Logged.Agree (ResultsAgree Eq (Forall₂ Node.Reordered)) (applyBatch path list batch)
      (applyBatch path list' batch') := by
  obtain ⟨hedit, hentries⟩ := h
  have hempty : batch.entries.isEmpty = batch'.entries.isEmpty := by
    rw [Bool.eq_iff_iff, List.isEmpty_iff_length_eq_zero, List.isEmpty_iff_length_eq_zero,
      hentries.length_eq]
  unfold applyBatch
  rw [hedit]
  cases batch'.edit with
  | delete anchor =>
    simp only [hempty, deletePosition_eq hlist]
    split
    · refine .pure ((ResultsAgree.of_eq rfl).map ?_)
      rintro i _ rfl
      exact eraseIdx_of_forall₂ hlist i
    · exact .pure (.error rfl)
  | insert after anchor =>
    simp only [insertPosition_eq hlist, clash?_eq hlist hentries]
    split
    · exact .pure (.error rfl)
    · next i _ =>
      split
      · exact .pure (.error rfl)
      · exact (adoptAll_agree hentries i).bind fun _ _ hadopted => .pure (.ok
          (List.rel_append (List.rel_append (List.forall₂_take i hlist) hadopted)
            (List.forall₂_drop i hlist)))

theorem applyBatches_agree {edits edits' : List Batch} (h : Forall₂ Batch.Agree edits edits') :
    ∀ {list list' : List Node}, Forall₂ Node.Reordered list list' →
    ListsAgree (applyBatches path list edits) (applyBatches path list' edits') := by
  induction h with
  | nil => exact fun hlist => .pure (.ok hlist)
  | cons hbatch _ ih =>
    intro list list' hlist
    refine (applyBatch_agree hlist hbatch).bind fun _ _ hresult => ?_
    cases hresult with
    | ok hlist => exact ih hlist
    | error heq => exact .pure (.error (congrArg _ heq))

theorem cut_agree (h : Forall₂ Incoming.Agree items items') :
    ResultsAgree Eq (Forall₂ Batch.Agree) (cut path items) (cut path items') := by
  have hparts : ResultsAgree Eq _ (batches path 0 items) (batches path 0 items') :=
    batches_agree h 0
  have hbatches := hparts.map fun _ _ hagree => hagree.2
  cases h with
  | nil => exact .ok .nil
  | cons hfirst _ =>
    simp only [cut, ofNode?_eq hfirst.node]
    split
    · exact .error rfl
    · exact hbatches

theorem mergeEdits_agree (hbase : Forall₂ Node.Reordered base base')
    (h : Forall₂ Incoming.Agree items items') :
    ListsAgree (mergeEdits path base items) (mergeEdits path base' items') := by
  have hcut : ResultsAgree Eq _ (cut path items) (cut path items') := cut_agree h
  unfold mergeEdits
  generalize cut path items = x at hcut
  generalize cut path items' = y at hcut
  cases hcut with
  | ok hbatches => exact applyBatches_agree hbatches hbase
  | error heq => exact .pure (.error heq)

/-! ## The choice of strategy -/

theorem allNamed_eq (h : Forall₂ Node.Reordered list list') : allNamed list = allNamed list' :=
  all_of_forall₂ h fun _ _ hn => by rw [hn.field?_eq]

theorem mergePlain_agree (fallback : Fallback) (hbase : Forall₂ Node.Reordered base base')
    (h : Forall₂ Incoming.Agree items items') :
    ListsAgree (mergePlain fallback path base items) (mergePlain fallback path base' items') := by
  simp only [mergePlain, allNamed_eq hbase, allNamed_eq (nodes_agree h), hbase.length_eq]
  split
  · exact mergeByKey_agree _ _ hbase h
  · cases fallback with
    | inline => exact (mergeInline_agree h 0 hbase).map fun _ _ => .ok
    | append =>
      exact (adoptAll_agree h _).map fun _ _ htail => .ok (List.rel_append hbase htail)

/-- **Lists are merged alike, whatever the strategy.** -/
theorem mergeList_agree (fallback : Fallback) (path : Cursor)
    (hbase : Forall₂ Node.Reordered base base') (h : Forall₂ Incoming.Agree items items') :
    ListsAgree (mergeList fallback path base items) (mergeList fallback path base' items') := by
  cases h with
  | nil => exact mergePlain_agree fallback hbase .nil
  | cons hfirst hrest =>
    simp only [mergeList, ofNode?_eq hfirst.node, hbase.length_eq]
    split
    · exact mergePlain_agree fallback hbase (.cons hfirst hrest)
    · exact .pure (.error rfl)
    · exact (mergeInline_agree hrest 0 hbase).map fun _ _ => .ok
    · exact (adoptAll_agree hrest 0).map fun _ _ => .ok
    · exact (adoptAll_agree hrest _).map fun _ _ htail => .ok (List.rel_append hbase htail)
    · exact (adoptAll_agree hrest 0).map fun _ _ hhead => .ok (List.rel_append hhead hbase)
    · exact mergeByKey_agree _ _ hbase hrest
    · exact mergeEdits_agree hbase (.cons hfirst hrest)

end Laminate.Merge
