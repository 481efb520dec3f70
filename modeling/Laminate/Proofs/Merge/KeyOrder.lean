import Laminate.Proofs.Merge.Frame
import Laminate.Proofs.Merge.ListAgreement
import Laminate.Proofs.Node.WellFormed

/-!
# Merging does not depend on the order of keys

An entry of a document is laid over what the tree has had under its key before the document, since
the other entries have other keys (`log_overlayEntries_of_nodup`). So the order of the entries is an
order of the notes, and of nothing else: trees whose keys are reordered are laid alike
(`overlay_agree`), the messages of collected faults sort them, and the paths of overwritten calls
are named alike in reordered trees (`namedPath_eq`).
-/

namespace Laminate

namespace Node.Reordered

/-! ## Named paths -/

theorem bind_name?_eq {n n' : Option Node} (h : Option.Rel Reordered n n') :
    n.bind name? = n'.bind name? := by
  cases h with
  | none => rfl
  | some hn => exact hn.name?_eq

theorem namedComponents_eq (cs : List String) : ∀ {n n' : Option Node}, Option.Rel Reordered n n' →
    namedComponents n cs = namedComponents n' cs := by
  induction cs with
  | nil =>
    intro n n' _
    simp only [namedComponents]
  | cons c cs ih =>
    intro n n' h
    cases h with
    | none => simp only [namedComponents]
    | some hn =>
      have hchild := ih (hn.get? c)
      cases hn with
      | scalar s => simp only [namedComponents]
      | mapping nodup keys_perm values => simp only [namedComponents, hchild]
      | @sequence items items' pairs =>
        -- an index finds elements that correspond to each other
        have hitem : Option.Rel Reordered ((Numeral.index? c.toList).bind fun i => items[i]?)
            ((Numeral.index? c.toList).bind fun i => items'[i]?) := by
          cases Numeral.index? c.toList with
          | none => exact .none
          | some i => exact getElem?_of_forall₂ pairs i
        have hname := bind_name?_eq hitem
        simp only [namedComponents, namedComponent, ih hitem, hname]

theorem namedPath_eq {n n' : Node} (h : n.Reordered n') (path : Cursor) :
    n.namedPath path = n'.namedPath path :=
  congrArg Cursor.mk (namedComponents_eq path.components (.some h))

end Node.Reordered

namespace Merge

variable {fallback : Fallback} {path : Cursor}

/-! ## Entries one by one -/

theorem nodup_keys_overlayEntries {es : Entries Node} : ∀ {base : Entries Node},
    (Entries.keys base).Nodup →
    (Entries.keys (overlayEntries fallback es base path).value).Nodup := by
  induction es with
  | nil => exact fun h => h
  | cons e es ih =>
    intro base h
    rw [value_overlayEntries_cons]
    exact ih (Entries.nodup_keys_insert h _ _)

/-- The notes of a node that is laid over what is under a key. -/
def entryNotes (fallback : Fallback) (base : Entries Node) (path : Cursor) (key : String)
    (n : Node) : List Note :=
  (overlay fallback n ((Entries.get? base key).getD .null) (path.child key)).log

/-- With distinct keys the notes of entries are those of each entry over what the tree has had under
its key. -/
theorem log_overlayEntries_of_nodup {es : Entries Node} (hes : (Entries.keys es).Nodup) :
    ∀ base : Entries Node, (overlayEntries fallback es base path).log
      = es.flatMap fun e => entryNotes fallback base path e.1 e.2 := by
  induction es with
  | nil => exact fun _ => rfl
  | cons e es ih =>
    intro base
    obtain ⟨hnew, hes⟩ := List.nodup_cons.mp hes
    rw [log_overlayEntries_cons, ih hes, List.flatMap_cons]
    refine congrArg _ (List.flatMap_congr fun e' he' => ?_)
    have hne : ¬e.1 = e'.1 := fun heq => hnew (heq ▸ List.mem_map_of_mem he')
    rw [entryNotes, entryNotes, Entries.get?_insert, if_neg hne]

/-! ## One laying -/

theorem isCall_eq {n n' : Node} (h : n.Reordered n') (name : String) :
    isCall n name = isCall n' name := by
  rw [isCall, isCall, h.string?_eq]

theorem noteOverwritten_agree {base base' : Node} (h : base.Reordered base') (path : Cursor) :
    Logged.Agree Eq (noteOverwritten base path) (noteOverwritten base' path) := by
  rw [noteOverwritten, noteOverwritten, isCall_eq h]
  exact ⟨rfl, .refl _⟩

theorem overlayEntries_agree {es es' : Entries Node}
    (h : (Node.mapping es).Reordered (.mapping es'))
    (ih : ∀ e ∈ es, ∀ n', e.2.Reordered n' → ∀ {base base' : Node}, base.Reordered base' →
      ∀ path, Logged.Agree Node.Reordered (overlay fallback e.2 base path)
        (overlay fallback n' base' path))
    {base base' : Entries Node} (hbase : (Node.mapping base).Reordered (.mapping base')) :
    Logged.Agree (fun es es' => (Node.mapping es).Reordered (.mapping es'))
      (overlayEntries fallback es base path) (overlayEntries fallback es' base' path) := by
  have hslot : ∀ key, ((Entries.get? base key).getD .null).Reordered
      ((Entries.get? base' key).getD .null) := fun key =>
    getD_of_rel (hbase.get?_entries key) (.scalar .null)
  refine ⟨?_, ?_⟩
  · refine .of_get?_entries (nodup_keys_overlayEntries hbase.nodup)
      (nodup_keys_overlayEntries hbase.nodup') fun key => ?_
    have hrel := h.get?_entries key
    generalize hget : Entries.get? es key = x at hrel
    generalize hget' : Entries.get? es' key = y at hrel
    cases hrel with
    | none =>
      rw [get?_overlayEntries ((Entries.get?_eq_none_iff es key).mp hget),
        get?_overlayEntries ((Entries.get?_eq_none_iff es' key).mp hget')]
      exact hbase.get?_entries key
    | some hn =>
      have hmem := Entries.mem_of_get? hget
      rw [get?_overlayEntries_of_mem fallback path h.nodup hmem,
        get?_overlayEntries_of_mem fallback path h.nodup' (Entries.mem_of_get? hget')]
      exact .some (ih _ hmem _ hn (hslot key) _).value
  · rw [log_overlayEntries_of_nodup h.nodup, log_overlayEntries_of_nodup h.nodup']
    refine Entries.flatMap_perm h.keys_perm h.nodup fun key n n' hget hget' => ?_
    have hrel := h.get?_entries key
    rw [hget, hget'] at hrel
    cases hrel with
    | some hn => exact (ih _ (Entries.mem_of_get? hget) _ hn (hslot key) _).log

/-- **Trees whose keys are reordered are laid alike.** -/
theorem overlay_agree {n : Node} : ∀ n' : Node, n.Reordered n' →
    ∀ {base base' : Node}, base.Reordered base' → ∀ path : Cursor,
    Logged.Agree Node.Reordered (overlay fallback n base path)
      (overlay fallback n' base' path) := by
  induction n using Node.induction with
  | scalar s =>
    rintro n' ⟨⟩ base base' hbase path
    simp only [overlay]
    split
    · exact .bind (R := Eq) ⟨rfl, .refl _⟩ fun _ _ _ => .pure hbase
    · exact (noteOverwritten_agree hbase path).bind fun _ _ _ => .pure (.scalar s)
  | sequence items ih =>
    rintro n' ⟨⟩ base base' hbase path
    next items' pairs =>
    have hitems : List.Forall₂ Incoming.Agree (incoming fallback items)
        (incoming fallback items') := by
      rw [incoming_eq_map, incoming_eq_map, List.forall₂_map_left_iff, List.forall₂_map_right_iff]
      refine List.forall₂_iff_get.mpr ⟨pairs.length_eq, fun i hi hi' => ?_⟩
      have hn := pairs.get hi hi'
      exact ⟨hn, ih _ (List.get_mem items ⟨i, hi⟩) _ hn⟩
    refine (noteOverwritten_agree hbase path).bind fun _ _ _ =>
      (mergeList_agree fallback path hbase.items?_getD hitems).bind fun _ _ hmerged => ?_
    cases hmerged with
    | ok hmerged => exact .pure (.sequence hmerged)
    | error heq =>
      subst heq
      exact .bind (R := Eq) ⟨rfl, .refl _⟩ fun _ _ _ => .pure hbase
  | mapping es ih =>
    rintro n' ⟨⟩ base base' hbase path
    next es' nodup keys_perm values =>
    exact (noteOverwritten_agree hbase path).bind fun _ _ _ =>
      (overlayEntries_agree (.mapping nodup keys_perm values) ih hbase.entries?_getD).map
        fun _ _ hmerged => hmerged

/-! ## Stacks -/

/-- Stacks with reordered trees, the same faults and the same paths to remove. -/
structure Stack.Agree (stack stack' : Stack) : Prop where
  tree : (Node.mapping stack.tree).Reordered (.mapping stack'.tree)
  faults : stack.faults.toList.Perm stack'.faults.toList
  prune : ∀ path, path ∈ stack.context.prune ↔ path ∈ stack'.context.prune

namespace Stack.Agree

variable {stack stack' : Stack} {doc doc' : Entries Node}

theorem layer (h : stack.Agree stack') (hdoc : (Node.mapping doc).Reordered (.mapping doc')) :
    (stack.layer fallback doc).Agree (stack'.layer fallback doc') := by
  have hmerged : Logged.Agree _ (overlayEntries fallback doc stack.tree .root)
      (overlayEntries fallback doc' stack'.tree .root) :=
    overlayEntries_agree hdoc (fun e _ => overlay_agree) h.tree
  have hmarks := hmerged.log.filterMap Note.overwritten?
  refine ⟨hmerged.value, h.faults.append (hmerged.log.filterMap _), fun path => ?_⟩
  -- the paths are named in the trees that the layers give
  simp only [Stack.layer, Context.mem_prune_markPruneAll, h.prune, List.mem_map, hmarks.mem_iff,
    hmerged.value.namedPath_eq]

theorem finish (h : stack.Agree stack') :
    ResultsAgree (fun failure failure' => failure.message = failure'.message)
      (fun tree tree' => tree.same tree' = true) stack.finish stack'.finish :=
  Faults.toExcept_agree h.faults h.tree.same

theorem layerAll {docs docs' : List Node} (hdocs : List.Forall₂ Node.Reordered docs docs') :
    ∀ {stack stack' : Stack}, stack.Agree stack' → ∀ number : Nat,
    ResultsAgree (fun failure failure' => failure.message = failure'.message)
      (fun tree tree' => tree.same tree' = true) (stack.layerAll fallback number docs).1
      (stack'.layerAll fallback number docs').1 ∧
    ∀ path, path ∈ (stack.layerAll fallback number docs).2.prune ↔
      path ∈ (stack'.layerAll fallback number docs').2.prune := by
  induction hdocs with
  | nil => exact fun h _ => ⟨h.finish, h.prune⟩
  | cons hdoc _ ih =>
    intro stack stack' h number
    cases hdoc with
    | mapping nodup keys_perm values =>
      exact ih (h.layer (.mapping nodup keys_perm values)) (number + 1)
    | scalar s => exact ⟨.error rfl, h.prune⟩
    | sequence pairs => exact ⟨.error rfl, h.prune⟩

end Stack.Agree

/-- **Merging does not depend on the order of keys.** -/
theorem documents_reordered (fallback : Fallback) {docs docs' : List Node}
    (h : List.Forall₂ Node.Reordered docs docs') (context : Context) :
    ResultsAgree (fun failure failure' => failure.message = failure'.message)
      (fun tree tree' => tree.same tree' = true) (documents fallback docs context).1
      (documents fallback docs' context).1 ∧
    ∀ path, path ∈ (documents fallback docs context).2.prune ↔
      path ∈ (documents fallback docs' context).2.prune :=
  have hstart : (Node.mapping []).Reordered (.mapping []) := .refl (.mapping .nil nofun)
  Stack.Agree.layerAll h ⟨hstart, .refl _, fun _ => .rfl⟩ 1

/-- Two documents, of which the second overwrites a call and has a fault. -/
def orderedDocuments : List Node :=
  [.mapping [("list", .sequence [.mapping [("name", .string "x"), ("v", .integer 1)]]),
      ("a", .string "(( prune ))")],
    .mapping [("a", .integer 2), ("b", .string "(( merge ))"), ("c", .string "(( merge ))"),
      ("list", .sequence [.mapping [("v", .integer 2), ("name", .string "x")]])]]

/-- The same documents with other orders of keys. -/
def reorderedDocuments : List Node :=
  [.mapping [("a", .string "(( prune ))"),
      ("list", .sequence [.mapping [("v", .integer 1), ("name", .string "x")]])],
    .mapping [("list", .sequence [.mapping [("name", .string "x"), ("v", .integer 2)]]),
      ("c", .string "(( merge ))"), ("b", .string "(( merge ))"), ("a", .integer 2)]]

theorem documents_reordered_pair :
    ResultsAgree (fun failure failure' => failure.message = failure'.message)
      (fun tree tree' => tree.same tree' = true) (documents .inline orderedDocuments {}).1
      (documents .inline reorderedDocuments {}).1 ∧
    ∀ path, path ∈ (documents .inline orderedDocuments {}).2.prune ↔
      path ∈ (documents .inline reorderedDocuments {}).2.prune := by
  refine documents_reordered .inline (.cons ?_ (.cons ?_ .nil)) {}
  · exact (Node.reordered_iff_same (by decide) (by decide)).mpr rfl
  · exact (Node.reordered_iff_same (by decide) (by decide)).mpr rfl

end Merge

end Laminate
