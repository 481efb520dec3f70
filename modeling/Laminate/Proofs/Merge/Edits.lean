import Laminate.Proofs.Merge.PlainData

/-!
# Edits

Inserts and deletes only insert and delete. To say so, each element of a list that is being edited
is tracked with where it comes from (`Tracked`), and `EditRun` says what a run of edits does to
tracked elements: an insert puts the adopted entries of its batch between what stands before and
after its spot, and a delete takes away the element at its spot. Whatever `mergeEdits` makes of a
list comes from such a run (`mergeEdits_run`), so every element of the base list and of a batch is
in the result or has been deleted, once, and the elements of one source keep their order.
-/

namespace Laminate.Merge

variable {fallback : Fallback} {path : Cursor}

/-! ## Tracked elements -/

/-- The list that an element comes from. -/
inductive Source
  | base
  | batch (number : Nat)
deriving DecidableEq, Repr

/-- An element with the list that it comes from and its position there. -/
structure Tracked where
  source : Source
  index : Nat
  node : Node

/-- What tells elements apart. -/
def Tracked.mark (t : Tracked) : Source × Nat :=
  (t.source, t.index)

/-- The elements of a list before any edit. -/
def track (source : Source) (nodes : List Node) : List Tracked :=
  nodes.mapIdx fun i n => ⟨source, i, n⟩

/-- The elements that come from one list. -/
def ofSource (source : Source) (list : List Tracked) : List Tracked :=
  list.filter fun t => t.source = source

/-- What the entries of a batch become when they are added at consecutive positions. -/
def adopted (fallback : Fallback) (path : Cursor) (position : Nat) (entries : List Node) :
    List Node :=
  (adoptedParts path position entries).map fun b => (b.laid fallback).value

theorem length_adopted (position : Nat) (entries : List Node) :
    (adopted fallback path position entries).length = entries.length := by
  have hlength : ((adoptedParts path position entries).map Branch.node).length = entries.length :=
    congrArg List.length (map_node_adoptedParts entries position)
  rw [List.length_map] at hlength
  exact (List.length_map _).trans hlength

/-! ## Runs of edits -/

/-- The position that an anchor stands for in a list: a number for itself, and a name for the first
element that has it. -/
inductive Anchor.At (list : List Node) : Anchor → Nat → Prop
  | index {i : Int64} {position : Nat} (h : i.toInt = position) : At list (.index i) position
  | named {front back : List Node} {n : Node} {key name : String}
      (split : list = front ++ n :: back) (has_name : n.field? key = some name)
      (first : ∀ m ∈ front, m.field? key ≠ some name) : At list (.named key name) front.length

/-- Where an insert puts its entries: before or after the anchor, or at the end. -/
inductive InsertSpot (list : List Node) : Bool → Anchor → Nat → Prop
  | last {after : Bool} : InsertSpot list after (.index (-1)) list.length
  | before {anchor : Anchor} {i : Nat} (h : anchor.At list i) : InsertSpot list false anchor i
  | after {anchor : Anchor} {i : Nat} (h : anchor.At list i) : InsertSpot list true anchor (i + 1)

/-- Which element a delete takes away: the one at the anchor, or the last one. -/
inductive DeleteSpot (list : List Node) : Anchor → Nat → Prop
  | last : DeleteSpot list (.index (-1)) (list.length - 1)
  | at {anchor : Anchor} {i : Nat} (h : anchor.At list i) : DeleteSpot list anchor i

/-- An edit with the entries that follow it. -/
abbrev WrittenBatch := Edit × List Node

/-- A list that consists of edits, each one followed by its entries. -/
inductive Batched : List Node → List WrittenBatch → Prop
  | nil : Batched [] []
  | cons {n : Node} {edit : Edit} {entries nodes : List Node} {rest : List WrittenBatch}
      (edit_read : Directive.ofNode? n = some (.ok (.edit edit)))
      (entries_data : ∀ m ∈ entries, Directive.ofNode? m = none)
      (rest_batched : Batched nodes rest) :
      Batched (n :: (entries ++ nodes)) ((edit, entries) :: rest)

/-- One edit of a list: the elements that it adds, those that it removes, and the list after it. The
batch has a number, which is the source of its entries. -/
inductive EditStep (fallback : Fallback) (path : Cursor) (number : Nat) (list : List Tracked) :
    WrittenBatch → List Tracked → List Tracked → List Tracked → Prop
  | insert {front back new : List Tracked} {after : Bool} {anchor : Anchor} {entries : List Node}
      (split : list = front ++ back)
      (spot : InsertSpot (list.map Tracked.node) after anchor front.length)
      (new_eq : new = track (.batch number) (adopted fallback path front.length entries)) :
      EditStep fallback path number list (.insert after anchor, entries) new []
        (front ++ new ++ back)
  | delete {front back : List Tracked} {t : Tracked} {anchor : Anchor}
      (split : list = front ++ t :: back)
      (spot : DeleteSpot (list.map Tracked.node) anchor front.length) :
      EditStep fallback path number list (.delete anchor, []) [] [t] (front ++ back)

/-- A run of edits on a list: all elements that have been added, all that have been removed, and the
list in the end. Batches have numbers from the given one on. -/
inductive EditRun (fallback : Fallback) (path : Cursor) :
    Nat → List Tracked → List WrittenBatch → List Tracked → List Tracked → List Tracked → Prop
  | done {number : Nat} {list : List Tracked} : EditRun fallback path number list [] [] [] list
  | step {number : Nat} {list next new gone added removed final : List Tracked}
      {batch : WrittenBatch} {rest : List WrittenBatch}
      (edit : EditStep fallback path number list batch new gone next)
      (run : EditRun fallback path (number + 1) next rest added removed final) :
      EditRun fallback path number list (batch :: rest) (new ++ added) (gone ++ removed) final

/-! ### What a run keeps -/

theorem map_node_track (source : Source) (nodes : List Node) :
    (track source nodes).map Tracked.node = nodes := by
  refine List.ext_getElem (by simp [track]) fun i _ _ => ?_
  simp [track]

theorem length_track (source : Source) (nodes : List Node) :
    (track source nodes).length = nodes.length :=
  List.length_mapIdx

theorem source_of_mem_track {source : Source} {nodes : List Node} {t : Tracked}
    (h : t ∈ track source nodes) : t.source = source := by
  obtain ⟨i, _, rfl⟩ := List.mem_mapIdx.mp h
  rfl

theorem nodup_track (source : Source) (nodes : List Node) :
    ((track source nodes).map Tracked.mark).Nodup := by
  have hmarks : (track source nodes).map Tracked.mark
      = (List.range nodes.length).map (Prod.mk source) := by
    refine List.ext_getElem (by simp [track]) fun i _ _ => ?_
    simp [track, Tracked.mark]
  rw [hmarks]
  exact List.Pairwise.map _ (fun _ _ hne heq => hne (congrArg Prod.snd heq)) List.nodup_range

/-- In a list there is nothing yet from batches with these numbers. -/
def Before (number : Nat) (list : List Tracked) : Prop :=
  ∀ t ∈ list, ∀ i, t.source = .batch i → i < number

namespace EditStep

variable {number : Nat} {list next new gone : List Tracked} {batch : WrittenBatch}

/-- Every element that was there or has been added is there now or has been removed. -/
theorem perm (h : EditStep fallback path number list batch new gone next) :
    (next ++ gone).Perm (list ++ new) := by
  cases h with
  | @insert front back _ _ _ _ split =>
    rw [split, List.append_nil, List.append_assoc, List.append_assoc]
    exact .append_left front List.perm_append_comm
  | @delete front back t _ split =>
    rw [split, List.append_nil, List.append_assoc]
    exact .append_left front (List.perm_append_singleton t back)

theorem length_new (h : EditStep fallback path number list batch new gone next) :
    new.length = batch.2.length := by
  cases h with
  | insert _ _ new_eq => rw [new_eq, length_track, length_adopted]
  | delete => rfl

theorem length_gone (h : EditStep fallback path number list batch new gone next) :
    gone.length = [batch].countP fun e => e.1 matches .delete _ := by
  cases h <;> rfl

theorem source_of_mem_new (h : EditStep fallback path number list batch new gone next)
    {t : Tracked} (ht : t ∈ new) : t.source = .batch number := by
  cases h with
  | insert _ _ new_eq => exact source_of_mem_track (new_eq ▸ ht)
  | delete => cases ht

theorem nodup_new (h : EditStep fallback path number list batch new gone next) :
    (new.map Tracked.mark).Nodup := by
  cases h with
  | insert _ _ new_eq => exact new_eq ▸ nodup_track _ _
  | delete => exact List.nodup_nil

theorem before (h : EditStep fallback path number list batch new gone next)
    (hbefore : Before number list) : Before (number + 1) next := by
  intro t ht i hsource
  rcases List.mem_append.mp (h.perm.subset (List.mem_append_left gone ht)) with hold | hnew
  · exact Nat.lt_succ_of_lt (hbefore t hold i hsource)
  · cases (h.source_of_mem_new hnew).symm.trans hsource
    exact Nat.lt_succ_self _

/-- The elements of each source stay in order, and those that are added come after those that were
there. -/
theorem sublist_ofSource (h : EditStep fallback path number list batch new gone next)
    (hbefore : Before number list) (source : Source) :
    (ofSource source next).Sublist (ofSource source (list ++ new)) := by
  have hsources := fun t => h.source_of_mem_new (t := t)
  cases h with
  | @insert front back _ _ _ _ split =>
    subst split
    simp only [ofSource, List.filter_append, List.append_assoc]
    by_cases hsource : source = .batch number
    · -- what comes from this batch is not in the list yet
      have hback : back.filter (fun t => t.source = source) = [] :=
        List.filter_eq_nil_iff.mpr fun t ht heq => Nat.lt_irrefl number
          (hbefore t (List.mem_append_right _ ht) number (by simpa [hsource] using heq))
      simp only [hback, List.append_nil, List.nil_append, List.Sublist.refl]
    · have hnew : new.filter (fun t => t.source = source) = [] :=
        List.filter_eq_nil_iff.mpr fun t ht heq =>
          hsource ((of_decide_eq_true heq).symm.trans (hsources t ht))
      simp only [hnew, List.append_nil, List.nil_append, List.Sublist.refl]
  | @delete front back t _ split =>
    rw [split, List.append_nil]
    exact ((List.sublist_cons_self t back).append_left front).filter _

end EditStep

namespace EditRun

variable {number : Nat} {list added removed final : List Tracked} {edits : List WrittenBatch}

theorem perm (h : EditRun fallback path number list edits added removed final) :
    (final ++ removed).Perm (list ++ added) := by
  induction h with
  | done => exact .refl _
  | @step _ list next new gone added removed final _ _ edit _ ih =>
    calc
      (final ++ (gone ++ removed)).Perm (gone ++ (final ++ removed)) :=
        List.perm_append_comm_assoc final gone removed
      _ |>.Perm (gone ++ (next ++ added)) := ih.append_left gone
      _ |>.Perm (next ++ gone ++ added) := by
        rw [← List.append_assoc]
        exact List.perm_append_comm.append_right added
      _ |>.Perm (list ++ new ++ added) := edit.perm.append_right added
      _ |>.Perm (list ++ (new ++ added)) := .of_eq (List.append_assoc _ _ _)

theorem length_added (h : EditRun fallback path number list edits added removed final) :
    added.length = (edits.flatMap Prod.snd).length := by
  induction h with
  | done => rfl
  | step edit _ ih =>
    rw [List.length_append, edit.length_new, ih, List.flatMap_cons, List.length_append]

/-- Every delete removes one element. -/
theorem length_removed (h : EditRun fallback path number list edits added removed final) :
    removed.length = edits.countP fun e => e.1 matches .delete _ := by
  induction h with
  | done => rfl
  | step edit _ ih => rw [List.length_append, edit.length_gone, ih, ← List.countP_append]; rfl

/-- The elements that are added come from batches, each with its own number. -/
theorem exists_batch_of_mem_added
    (h : EditRun fallback path number list edits added removed final) {t : Tracked}
    (ht : t ∈ added) : ∃ i, number ≤ i ∧ t.source = .batch i := by
  induction h with
  | done => cases ht
  | step edit _ ih =>
    rcases List.mem_append.mp ht with hnew | hrest
    · exact ⟨_, Nat.le_refl _, edit.source_of_mem_new hnew⟩
    · obtain ⟨i, hi, hsource⟩ := ih hrest
      exact ⟨i, Nat.le_of_succ_le hi, hsource⟩

theorem nodup_added (h : EditRun fallback path number list edits added removed final) :
    (added.map Tracked.mark).Nodup := by
  induction h with
  | done => exact List.nodup_nil
  | step edit run ih =>
    rw [List.map_append]
    refine List.nodup_append.mpr ⟨edit.nodup_new, ih, fun a ha b hb heq => ?_⟩
    obtain ⟨t, ht, rfl⟩ := List.mem_map.mp ha
    obtain ⟨u, hu, rfl⟩ := List.mem_map.mp hb
    obtain ⟨i, hi, hsource⟩ := run.exists_batch_of_mem_added hu
    have hsame : t.source = u.source := congrArg Prod.fst heq
    rw [edit.source_of_mem_new ht, hsource] at hsame
    cases hsame
    exact Nat.not_succ_le_self _ hi

/-- The elements of each source keep their order. -/
theorem sublist_ofSource (h : EditRun fallback path number list edits added removed final)
    (hbefore : Before number list) (source : Source) :
    (ofSource source final).Sublist (ofSource source (list ++ added)) := by
  induction h with
  | done => exact List.append_nil _ ▸ .refl _
  | @step _ _ _ _ _ added _ _ _ _ edit _ ih =>
    refine (ih (edit.before hbefore)).trans ?_
    have hstep := (edit.sublist_ofSource hbefore source).append_right (ofSource source added)
    simpa only [ofSource, List.filter_append, List.append_assoc] using hstep

end EditRun

/-! ## The edits of the program -/

section Program

variable {anchor : Anchor} {list : List Node} {i : Nat}

theorem Anchor.at_of_position (h : anchor.position list = .ok i) : anchor.At list i := by
  cases anchor with
  | index n =>
    simp only [position] at h
    split at h
    · cases h
    · next hn =>
      cases h
      exact .index (Int.toNat_of_nonneg (Int64.le_iff_toInt_le.mp (Int64.not_lt.mp hn))).symm
  | named key name =>
    simp only [position] at h
    cases hposition : position? list key name with
    | none =>
      rw [hposition] at h
      cases h
    | some j =>
      rw [hposition] at h
      cases h
      obtain ⟨hi, hfound, hfirst⟩ := List.findIdx?_eq_some_iff_getElem.mp hposition
      have hlength : (list.take i).length = i := List.length_take_of_le (Nat.le_of_lt hi)
      have hsplit : list = list.take i ++ list[i] :: list.drop (i + 1) := by
        rw [List.getElem_cons_drop, List.take_append_drop]
      refine hlength ▸ .named hsplit (by simpa using hfound) fun m hm => ?_
      obtain ⟨j, hj, rfl⟩ := List.mem_take_iff_getElem.mp hm
      simpa using hfirst j (Nat.lt_of_lt_of_le hj (Nat.min_le_left _ _))

theorem spot_of_insertPosition {after : Bool} (h : insertPosition list after anchor = .ok i) :
    i ≤ list.length ∧ InsertSpot list after anchor i := by
  by_cases hlast : anchor = .index (-1)
  · simp only [insertPosition, hlast, if_true, Except.bind, Nat.le_refl] at h
    cases h
    exact ⟨Nat.le_refl _, hlast ▸ .last⟩
  · simp only [insertPosition, hlast, if_false] at h
    cases hposition : anchor.position list with
    | error problem =>
      rw [hposition] at h
      cases h
    | ok k =>
      have hat := Anchor.at_of_position hposition
      simp only [hposition, Except.map, Except.bind] at h
      cases after with
      | false =>
        simp only [Bool.false_eq_true, if_false] at h
        split at h
        · next hle =>
          cases h
          exact ⟨hle, .before hat⟩
        · cases h
      | true =>
        simp only [if_true] at h
        split at h
        · next hle =>
          cases h
          exact ⟨hle, .after hat⟩
        · cases h

theorem spot_of_deletePosition (h : deletePosition list anchor = .ok i) :
    i < list.length ∧ DeleteSpot list anchor i := by
  by_cases hlast : anchor = .index (-1) ∧ list ≠ []
  · simp only [deletePosition, hlast, ne_eq, not_false_eq_true, and_self, if_true, Except.bind] at h
    split at h
    · next hlt =>
      cases h
      exact ⟨hlt, hlast.1 ▸ .last⟩
    · cases h
  · simp only [deletePosition, hlast, if_false] at h
    cases hposition : anchor.position list with
    | error problem =>
      rw [hposition] at h
      cases h
    | ok k =>
      simp only [hposition, Except.bind] at h
      split at h
      · next hlt =>
        cases h
        exact ⟨hlt, .at (Anchor.at_of_position hposition)⟩
      · cases h

end Program

/-- A batch as it is written. -/
def Batch.written (batch : Batch) : WrittenBatch :=
  (batch.edit, batch.entries.map Incoming.node)

/-- Cutting a list gives batches that are the list from its first edit on. -/
theorem batched_of_batches {items : List Incoming} : ∀ {index : Nat} {entries : List Incoming}
    {list : List Batch}, batches path index items = .ok (entries, list) →
    (∀ item ∈ entries, Directive.ofNode? item.node = none) ∧
      ∃ nodes, items.map Incoming.node = entries.map Incoming.node ++ nodes ∧
        Batched nodes (list.map Batch.written) := by
  induction items with
  | nil =>
    intro index entries list h
    cases h
    exact ⟨List.forall_mem_nil _, [], rfl, .nil⟩
  | cons item items ih =>
    intro index entries list h
    simp only [batches] at h
    cases hrest : batches path (index + 1) items with
    | error fault =>
      rw [hrest] at h
      split at h <;> cases h
    | ok parts =>
      obtain ⟨restEntries, restList⟩ := parts
      obtain ⟨hdata, nodes, hnodes, hbatched⟩ := ih hrest
      rw [hrest] at h
      split at h
      · next hread =>
        cases h
        refine ⟨List.forall_mem_nil _, _, rfl, ?_⟩
        rw [List.map_cons, hnodes]
        exact .cons hread (List.forall_mem_map.mpr hdata) hbatched
      · cases h
      · cases h
      · next hread =>
        cases h
        exact ⟨List.forall_mem_cons.mpr ⟨hread, hdata⟩, nodes, congrArg (item.node :: ·) hnodes,
          hbatched⟩

theorem batches_append_of_data {entries : List Incoming} (items : List Incoming)
    (hdata : ∀ item ∈ entries, Directive.ofNode? item.node = none) : ∀ index : Nat,
    batches path index (entries ++ items) = (batches path (index + entries.length) items).map
      fun (found, rest) => (entries ++ found, rest) := by
  induction entries with
  | nil =>
    intro index
    show batches path index items = Except.map id (batches path index items)
    exact (congrFun Except.map_id _).symm
  | cons item entries ih =>
    intro index
    obtain ⟨hitem, hentries⟩ := List.forall_mem_cons.mp hdata
    rw [List.cons_append, batches, hitem, ih hentries, List.length_cons, Nat.add_right_comm,
      Nat.add_assoc]
    simp only
    cases batches path (index + (entries.length + 1)) items <;> rfl

/-- A list of edits, each one followed by its entries, is cut into these batches. -/
theorem batches_of_batched {nodes : List Node} {edits : List WrittenBatch}
    (h : Batched nodes edits) : ∀ index : Nat,
    ∃ list, batches path index (incoming fallback nodes) = .ok ([], list) ∧
      list.map Batch.written = edits := by
  induction h with
  | nil => exact fun _ => ⟨[], rfl, rfl⟩
  | @cons n edit entries nodes rest edit_read entries_data _ ih =>
    intro index
    obtain ⟨list, hlist, hwritten⟩ := ih (index + 1 + entries.length)
    have hdata : ∀ item ∈ incoming fallback entries, Directive.ofNode? item.node = none :=
      List.forall_mem_map.mp ((map_node_incoming entries).symm ▸ entries_data)
    have hlength : (incoming fallback entries).length = entries.length := by
      rw [incoming_eq_map, List.length_map]
    refine ⟨⟨edit, incoming fallback entries⟩ :: list, ?_, ?_⟩
    · have happend : incoming fallback (entries ++ nodes)
          = incoming fallback entries ++ incoming fallback nodes := by
        simp only [incoming_eq_map, List.map_append]
      rw [incoming, batches, happend, batches_append_of_data _ hdata, hlength, hlist]
      simp only [edit_read]
      simp [Except.map]
    · rw [List.map_cons, hwritten, Batch.written, map_node_incoming]

/-- An insert that can be applied found its anchor and no clash, and its entries are between what
stood before and after its position. -/
theorem exists_of_applyBatch_insert {after : Bool} {anchor : Anchor} {entries : List Incoming}
    (hoverlays : AreOverlays fallback entries) {list nodes : List Node}
    (h : (applyBatch path list ⟨.insert after anchor, entries⟩).value = .ok nodes) :
    ∃ i, insertPosition list after anchor = .ok i ∧ anchor.clash? list entries = none ∧
      nodes = list.take i ++ adopted fallback path i (entries.map Incoming.node)
        ++ list.drop i := by
  simp only [applyBatch] at h
  cases hposition : insertPosition list after anchor with
  | error problem =>
    rw [hposition] at h
    cases h
  | ok i =>
    rw [hposition] at h
    cases hclash : anchor.clash? list entries with
    | some problem =>
      simp only [hclash] at h
      cases h
    | none =>
      simp only [hclash, Logged.value_bind, Logged.value_pure] at h
      rw [eq_incoming hoverlays, value_adoptAll] at h
      exact ⟨i, rfl, rfl, (Except.ok.inj h).symm⟩

/-- A batch that can be applied is one edit. -/
theorem exists_step_of_applyBatch {batch : Batch} (hoverlays : AreOverlays fallback batch.entries)
    (number : Nat) {list : List Tracked} {nodes : List Node}
    (h : (applyBatch path (list.map Tracked.node) batch).value = .ok nodes) :
    ∃ new gone next, EditStep fallback path number list batch.written new gone next ∧
      nodes = next.map Tracked.node := by
  obtain ⟨edit, entries⟩ := batch
  cases edit with
  | delete anchor =>
    cases entries with
    | cons item items => cases h
    | nil =>
      simp only [applyBatch, List.isEmpty_nil, if_true, Logged.value_pure] at h
      cases hposition : deletePosition (list.map Tracked.node) anchor with
      | error problem =>
        rw [hposition] at h
        cases h
      | ok i =>
        rw [hposition] at h
        cases h
        obtain ⟨hlt, hspot⟩ := spot_of_deletePosition hposition
        rw [List.length_map] at hlt
        have hlength : (list.take i).length = i := List.length_take_of_le (Nat.le_of_lt hlt)
        have hsplit : list = list.take i ++ list[i] :: list.drop (i + 1) := by
          rw [List.getElem_cons_drop, List.take_append_drop]
        refine ⟨[], [list[i]], _, .delete hsplit (by rwa [hlength]), ?_⟩
        show (list.map Tracked.node).eraseIdx i = _
        rw [List.eraseIdx_eq_take_drop_succ, List.map_append, List.map_take, List.map_drop]
  | insert after anchor =>
    obtain ⟨i, hposition, -, rfl⟩ := exists_of_applyBatch_insert hoverlays h
    obtain ⟨hle, hspot⟩ := spot_of_insertPosition hposition
    rw [List.length_map] at hle
    have hlength : (list.take i).length = i := List.length_take_of_le hle
    refine ⟨_, [], _, .insert (List.take_append_drop i list).symm (by rwa [hlength]) rfl, ?_⟩
    rw [List.map_append, List.map_append, map_node_track, List.map_take, List.map_drop, hlength]

/-- Batches that can be applied are a run of edits. -/
theorem exists_run_of_applyBatches {batches : List Batch}
    (hoverlays : ∀ batch ∈ batches, AreOverlays fallback batch.entries) :
    ∀ (number : Nat) {list : List Tracked} {merged : List Node},
    (applyBatches path (list.map Tracked.node) batches).value = .ok merged →
    ∃ added removed final, EditRun fallback path number list (batches.map Batch.written)
      added removed final ∧ merged = final.map Tracked.node := by
  induction batches with
  | nil =>
    intro number list merged h
    cases h
    exact ⟨[], [], list, .done, rfl⟩
  | cons batch rest ih =>
    intro number list merged h
    obtain ⟨hbatch, hrest⟩ := List.forall_mem_cons.mp hoverlays
    simp only [applyBatches, Logged.value_bind] at h
    cases happlied : (applyBatch path (list.map Tracked.node) batch).value with
    | error problem =>
      rw [happlied] at h
      cases h
    | ok nodes =>
      rw [happlied] at h
      obtain ⟨new, gone, next, hstep, rfl⟩ := exists_step_of_applyBatch hbatch number happlied
      obtain ⟨added, removed, final, hrun, hmerged⟩ := ih hrest (number + 1) h
      exact ⟨_, _, final, .step hstep hrun, hmerged⟩

/-- All elements that there have been, those of the base list and those of the batches, are in the
list in the end or have been removed, each of them once, and those of one source are in order. -/
structure Accounted (base : List Node) (added removed final : List Tracked) : Prop where
  distinct : ((track .base base ++ added).map Tracked.mark).Nodup
  perm : (final ++ removed).Perm (track .base base ++ added)
  order : ∀ source, (ofSource source final).Sublist (ofSource source (track .base base ++ added))

theorem before_track_base (base : List Node) : Before 0 (track .base base) := by
  intro t ht i hsource
  cases (source_of_mem_track ht).symm.trans hsource

theorem EditRun.accounted {base : List Node} {edits : List WrittenBatch}
    {added removed final : List Tracked}
    (h : EditRun fallback path 0 (track .base base) edits added removed final) :
    Accounted base added removed final where
  distinct := by
    rw [List.map_append]
    refine List.nodup_append.mpr ⟨nodup_track _ _, h.nodup_added, fun a ha b hb heq => ?_⟩
    obtain ⟨t, ht, rfl⟩ := List.mem_map.mp ha
    obtain ⟨u, hu, rfl⟩ := List.mem_map.mp hb
    obtain ⟨i, -, hsource⟩ := h.exists_batch_of_mem_added hu
    cases ((source_of_mem_track ht).symm.trans (congrArg Prod.fst heq)).trans hsource
  perm := h.perm
  order := h.sublist_ofSource (before_track_base base)

/-- **Edits that can be applied are a run of inserts and deletes: nothing else happens to an element
of the base list or to an entry that has been added, and the length changes by the sizes of the
batches and the number of deletes.** -/
theorem mergeEdits_run {nodes base merged : List Node}
    (h : (mergeEdits path base (incoming fallback nodes)).value = .ok merged) :
    ∃ edits added removed final, Batched nodes edits ∧
      EditRun fallback path 0 (track .base base) edits added removed final ∧
      merged = final.map Tracked.node ∧ Accounted base added removed final ∧
      merged.length + (edits.countP fun e => e.1 matches .delete _)
        = base.length + (edits.flatMap Prod.snd).length := by
  unfold mergeEdits at h
  cases hcut : cut path (incoming fallback nodes) with
  | error fault =>
    rw [hcut] at h
    cases h
  | ok list =>
    rw [hcut] at h
    have hbatches := cut_eq_ok_iff.mp hcut
    obtain ⟨-, rest, hnodes, hbatched⟩ := batched_of_batches hbatches
    rw [map_node_incoming, List.map_nil, List.nil_append] at hnodes
    have hoverlays := (forall_mem_batches (areOverlays_incoming nodes) hbatches).2
    rw [← map_node_track .base base] at h
    obtain ⟨added, removed, final, hrun, hmerged⟩ := exists_run_of_applyBatches hoverlays 0 h
    refine ⟨_, added, removed, final, hnodes ▸ hbatched, hrun, hmerged, hrun.accounted, ?_⟩
    have hlength := hrun.perm.length_eq
    rwa [List.length_append, List.length_append, hrun.length_removed, hrun.length_added,
      length_track, ← List.length_map (f := Tracked.node), ← hmerged] at hlength

/-- An element with a name. -/
def namedElement (name : String) : Node :=
  .mapping [("name", .string name)]

/-- Edits at names, numbers and the end, one of which deletes what another one has added. -/
def mixedEdits : List Node :=
  [.string "(( insert after \"a\" ))", namedElement "x", namedElement "y",
    .string "(( delete \"x\" ))", .string "(( insert before 0 ))", namedElement "z",
    .string "(( delete -1 ))", .string "(( insert after -1 ))", namedElement "w"]

theorem mergeEdits_run_mixed :
    ∃ merged,
      (mergeEdits .root [namedElement "a", namedElement "b"] (incoming .inline mixedEdits)).value
        = .ok merged ∧
      Node.keyTexts defaultKey merged = [some "z", some "a", some "y", some "w"] ∧
      ∃ edits added removed final, Batched mixedEdits edits ∧
        EditRun .inline .root 0 (track .base [namedElement "a", namedElement "b"]) edits added
          removed final ∧
        merged = final.map Tracked.node := by
  have hnames : (mergeEdits .root [namedElement "a", namedElement "b"]
      (incoming .inline mixedEdits)).value.toOption.map (Node.keyTexts defaultKey)
        = some [some "z", some "a", some "y", some "w"] := by decide +kernel
  cases h : (mergeEdits .root [namedElement "a", namedElement "b"]
      (incoming .inline mixedEdits)).value with
  | error fault =>
    rw [h] at hnames
    cases hnames
  | ok merged =>
    rw [h] at hnames
    obtain ⟨edits, added, removed, final, hbatched, hrun, hmerged, -⟩ := mergeEdits_run h
    exact ⟨merged, rfl, Option.some.inj hnames, edits, added, removed, final, hbatched, hrun,
      hmerged⟩

end Laminate.Merge
