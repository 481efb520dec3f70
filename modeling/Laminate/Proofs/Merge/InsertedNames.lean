import Laminate.Proofs.Merge.Edits
import Laminate.Proofs.Merge.Precedence

/-!
# Names of inserted entries

An insert at a name refuses entries that have the name of an element of the list as it is before the
batch goes in. So names that were distinct stay distinct from those of the batch, and whether the
names of the result are distinct comes down to the batches, each for itself
(`nodup_names_mergeEdits_iff`): nothing compares two entries of one batch.
-/

namespace Laminate.Merge

variable {fallback : Fallback} {path : Cursor} {key : String}

/-- The texts that elements have under a key. -/
def names (key : String) (nodes : List Node) : List String :=
  nodes.filterMap fun n => n.field? key

/-- The text that an entry has under a key once it is in a list: a call to `merge` has no place
there, and is dropped. -/
def adoptedName? (key : String) (n : Node) : Option String :=
  (n.get? key).bind fun m => if isCall m "merge" then none else m.text?

/-! ## Names of adopted entries -/

theorem field?_eq_of_adoptedName? {n : Node} {name : String}
    (h : adoptedName? key n = some name) : n.field? key = some name := by
  obtain ⟨m, hget, hname⟩ := Option.bind_eq_some_iff.mp h
  split at hname
  · cases hname
  · rw [Node.field?, hget]
    exact hname

theorem text?_overlay_null (n : Node) (path : Cursor) :
    (overlay fallback n .null path).value.text?
      = if isCall n "merge" then none else n.text? := by
  cases n with
  | scalar s =>
    cases hcall : isCall (.scalar s) "merge" with
    | true => simp [overlay, hcall, Node.text?, Scalar.text?]
    | false => simp [overlay, hcall]
  | sequence items =>
    rw [value_overlay_sequence]
    split <;> rfl
  | mapping es => rfl

theorem field?_overlay_null {n : Node} (hwf : n.WellFormed) (path : Cursor) :
    (overlay fallback n .null path).value.field? key = adoptedName? key n := by
  cases n with
  | scalar s =>
    rw [Node.field?, adoptedName?]
    cases hcall : isCall (.scalar s) "merge" <;> simp [overlay, hcall, Node.get?]
  | sequence items =>
    rw [value_overlay_sequence]
    split <;> rfl
  | mapping es =>
    rw [value_overlay_mapping]
    by_cases hmem : key ∈ Entries.keys es
    · obtain ⟨e, he, rfl⟩ := List.mem_map.mp hmem
      have hget := Entries.get?_of_mem hwf.nodup he
      rw [Node.field?, Node.get?, get?_overlayEntries_of_mem fallback path hwf.nodup he]
      rw [adoptedName?, Node.get?, hget]
      exact text?_overlay_null e.2 _
    · rw [Node.field?, Node.get?, get?_overlayEntries hmem, adoptedName?, Node.get?,
        (Entries.get?_eq_none_iff es key).mpr hmem]
      rfl

theorem names_adopted {entries : List Node} (hwf : ∀ n ∈ entries, n.WellFormed) :
    ∀ position : Nat, names key (adopted fallback path position entries)
      = entries.filterMap (adoptedName? key) := by
  induction entries with
  | nil => exact fun _ => rfl
  | cons n entries ih =>
    intro position
    obtain ⟨hn, hentries⟩ := List.forall_mem_cons.mp hwf
    have hname : (overlay fallback n .null (path.child (Numeral.text position))).value.field? key
        = adoptedName? key n := field?_overlay_null hn _
    rw [List.filterMap_cons, ← hname, ← ih hentries (position + 1)]
    exact List.filterMap_cons

/-! ## Names after an insert -/

theorem mem_names {list : List Node} {name : String} :
    name ∈ names key list ↔ some name ∈ Node.keyTexts key list := by
  rw [names, List.mem_filterMap, Node.keyTexts, List.mem_map]

theorem notMem_names_of_insertClash? {list : List Node} {items : List Incoming} {name : String}
    (h : insertClash? list key items = none) {item : Incoming} (hitem : item ∈ items)
    (hname : item.node.field? key = some name) : name ∉ names key list := by
  induction items with
  | nil => cases hitem
  | cons first items ih =>
    simp only [insertClash?] at h
    rcases List.mem_cons.mp hitem with rfl | hrest
    · rw [hname] at h
      simp only at h
      split at h
      · cases h
      · next hnone =>
        rw [mem_names, ← position?_eq_none_iff]
        exact Option.not_isSome_iff_eq_none.mp hnone
    · refine ih ?_ hrest
      split at h
      · split at h
        · cases h
        · exact h
      · exact h

variable {list nodes base merged : List Node} {entries : List Incoming} {after : Bool}
  {name : String}

/-- After an insert at a name, the names are distinct if they were before it and those of the batch
are. -/
theorem nodup_names_applyBatch_iff (hoverlays : AreOverlays fallback entries)
    (hwf : ∀ item ∈ entries, item.node.WellFormed)
    (h : (applyBatch path list ⟨.insert after (.named key name), entries⟩).value = .ok nodes) :
    (names key nodes).Nodup ↔ (names key list).Nodup ∧
      ((entries.map Incoming.node).filterMap (adoptedName? key)).Nodup := by
  obtain ⟨i, -, hclash, rfl⟩ := exists_of_applyBatch_insert hoverlays h
  have hnew : names key (adopted fallback path i (entries.map Incoming.node))
      = (entries.map Incoming.node).filterMap (adoptedName? key) :=
    names_adopted (List.forall_mem_map.mpr hwf) i
  have hperm : (names key (list.take i ++ adopted fallback path i (entries.map Incoming.node)
      ++ list.drop i)).Perm
        (names key list ++ (entries.map Incoming.node).filterMap (adoptedName? key)) := by
    rw [← hnew]
    have hsplit : names key list = names key (list.take i) ++ names key (list.drop i) := by
      rw [names, names, names, ← List.filterMap_append, List.take_append_drop]
    rw [hsplit, names, List.filterMap_append, List.filterMap_append, List.append_assoc,
      List.append_assoc]
    exact .append_left _ List.perm_append_comm
  rw [hperm.nodup_iff, List.nodup_append]
  refine ⟨fun ⟨hlist, hentries, _⟩ => ⟨hlist, hentries⟩, fun ⟨hlist, hentries⟩ =>
    ⟨hlist, hentries, fun a ha b hb heq => ?_⟩⟩
  -- a name that a new element has was that of its entry, which has been compared with the list
  obtain ⟨n, hn, hadopted⟩ := List.mem_filterMap.mp hb
  obtain ⟨item, hitem, rfl⟩ := List.mem_map.mp hn
  exact notMem_names_of_insertClash? hclash hitem (field?_eq_of_adoptedName? hadopted) (heq ▸ ha)

/-! ## Names after all inserts -/

/-- Every batch is inserted at an element with a name under one key. -/
def InsertsAtNames (key : String) (edits : List WrittenBatch) : Prop :=
  ∀ e ∈ edits, ∃ after name, e.1 = .insert after (.named key name)

/-- In every batch the entries come to have distinct names. -/
def BatchNamesDistinct (key : String) (edits : List WrittenBatch) : Prop :=
  ∀ e ∈ edits, (e.2.filterMap (adoptedName? key)).Nodup

theorem nodup_names_applyBatches_iff {batches : List Batch}
    (hoverlays : ∀ batch ∈ batches, AreOverlays fallback batch.entries)
    (hwf : ∀ batch ∈ batches, ∀ item ∈ batch.entries, item.node.WellFormed)
    (hinserts : InsertsAtNames key (batches.map Batch.written)) :
    ∀ {list : List Node}, (applyBatches path list batches).value = .ok merged →
    ((names key merged).Nodup ↔ (names key list).Nodup ∧
      BatchNamesDistinct key (batches.map Batch.written)) := by
  induction batches with
  | nil =>
    intro list h
    cases h
    exact (and_iff_left (List.forall_mem_nil _)).symm
  | cons batch rest ih =>
    intro list h
    obtain ⟨edit, entries⟩ := batch
    obtain ⟨⟨after, name, hedit⟩, hinserts_rest⟩ := List.forall_mem_cons.mp hinserts
    cases hedit
    obtain ⟨hoverlays_batch, hoverlays_rest⟩ := List.forall_mem_cons.mp hoverlays
    obtain ⟨hwf_batch, hwf_rest⟩ := List.forall_mem_cons.mp hwf
    simp only [applyBatches, Logged.value_bind] at h
    cases happlied : (applyBatch path list ⟨.insert after (.named key name), entries⟩).value with
    | error problem =>
      rw [happlied] at h
      cases h
    | ok nodes =>
      rw [happlied] at h
      rw [ih hoverlays_rest hwf_rest hinserts_rest h,
        nodup_names_applyBatch_iff hoverlays_batch hwf_batch happlied, BatchNamesDistinct,
        BatchNamesDistinct, List.map_cons, List.forall_mem_cons, and_assoc]
      rfl

/-- **After inserts at names of one key the names under that key, distinct before, are distinct if
and only if those within each batch are.** -/
theorem nodup_names_mergeEdits_iff {edits : List WrittenBatch} (hbatched : Batched nodes edits)
    (hinserts : InsertsAtNames key edits) (hwf : ∀ n ∈ nodes, n.WellFormed)
    (hbase : (names key base).Nodup)
    (h : (mergeEdits path base (incoming fallback nodes)).value = .ok merged) :
    (names key merged).Nodup ↔ BatchNamesDistinct key edits := by
  obtain ⟨list, hlist, rfl⟩ : ∃ list, batches path 0 (incoming fallback nodes) = .ok ([], list) ∧
      list.map Batch.written = edits := batches_of_batched hbatched 0
  simp only [mergeEdits, cut_eq_ok_iff.mpr hlist] at h
  have hoverlays := (forall_mem_batches (areOverlays_incoming nodes) hlist).2
  have hitems : ∀ item ∈ incoming fallback nodes, item.node.WellFormed :=
    List.forall_mem_map.mp ((map_node_incoming nodes).symm ▸ hwf)
  rw [nodup_names_applyBatches_iff hoverlays (forall_mem_batches hitems hlist).2 hinserts h]
  exact and_iff_right hbase

/-- Two inserts, the second one at an entry of the first one. -/
def twoInserts : List Node :=
  [.string "(( insert after \"a\" ))", namedElement "b", .string "(( insert before \"b\" ))",
    namedElement "d", namedElement "e"]

theorem batched_twoInserts : Batched twoInserts
    [(.insert true (.named "name" "a"), [namedElement "b"]),
      (.insert false (.named "name" "b"), [namedElement "d", namedElement "e"])] :=
  @Batched.cons _ _ [namedElement "b"] _ _ rfl (by decide)
    (@Batched.cons _ _ [namedElement "d", namedElement "e"] _ _ rfl (by decide) .nil)

theorem nodup_names_of_two_inserts :
    (mergeEdits .root [namedElement "a", namedElement "c"] (incoming .inline twoInserts)).value
        = .ok (["a", "d", "e", "b", "c"].map namedElement) ∧
      (names "name" (["a", "d", "e", "b", "c"].map namedElement)).Nodup := by
  have hmerged : (mergeEdits .root [namedElement "a", namedElement "c"]
      (incoming .inline twoInserts)).value = .ok (["a", "d", "e", "b", "c"].map namedElement) := rfl
  refine ⟨hmerged,
    (nodup_names_mergeEdits_iff batched_twoInserts ?_ (by decide) (by decide) hmerged).mpr ?_⟩
  · exact List.forall_mem_cons.mpr
      ⟨⟨true, "a", rfl⟩, List.forall_mem_singleton.mpr ⟨false, "b", rfl⟩⟩
  · unfold BatchNamesDistinct
    decide

/-- An insert of two entries with one name. -/
def repeatedInsert : List Node :=
  [.string "(( insert after \"a\" ))", namedElement "b", namedElement "b"]

theorem names_repeated_by_one_insert :
    (names "name" [namedElement "a"]).Nodup ∧
    Batched repeatedInsert
      [(.insert true (.named "name" "a"), [namedElement "b", namedElement "b"])] ∧
    InsertsAtNames "name"
      [(.insert true (.named "name" "a"), [namedElement "b", namedElement "b"])] ∧
    (mergeEdits .root [namedElement "a"] (incoming .inline repeatedInsert)).value
      = .ok (["a", "b", "b"].map namedElement) ∧
    ¬(names "name" (["a", "b", "b"].map namedElement)).Nodup :=
  ⟨by decide, @Batched.cons _ _ [namedElement "b", namedElement "b"] _ _ rfl (by decide) .nil,
    List.forall_mem_singleton.mpr ⟨true, "a", rfl⟩, rfl, by decide⟩

end Laminate.Merge
