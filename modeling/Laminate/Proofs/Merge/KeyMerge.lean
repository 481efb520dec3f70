import Laminate.Proofs.Merge.PlainData

/-!
# Merging by key

Without faults a merge by key keeps the key text of everything that is laid over something
(`field?_overlay_of_faultless`), so every look-up finds what it would have found in the beginning.
That gives the list that comes out (`mergeByKey_eq_keyMerged`): the elements of the base list in
their places, the first one with each key text under all incoming elements with that text, and then
one element for each new key text.
-/

namespace Laminate.Merge

variable {fallback : Fallback} {key : String} {path : Cursor}

/-! ## The list that comes out -/

/-- A node after others have been laid over it, one after the other. -/
def overlayAll (fallback : Fallback) (path : Cursor) (base : Node) (nodes : List Node) : Node :=
  nodes.foldl (fun base n => (overlay fallback n base path).value) base

/-- The nodes that have this text under a key. -/
def withText (key : String) (text : Option String) (nodes : List Node) : List Node :=
  nodes.filter fun n => n.field? key == text

/-- The key texts of nodes that no element of the base list has, in the order in which they first
occur. -/
def newTexts (key : String) (base nodes : List Node) : List (Option String) :=
  ((Node.keyTexts key nodes).filter fun text => text ∉ Node.keyTexts key base).eraseDups

/-- What becomes of an element at an index of the base list: the first one with its key text comes
under all nodes with that text, any other one stays. -/
def matchedElement (fallback : Fallback) (key : String) (path : Cursor) (base nodes : List Node)
    (i : Nat) (n : Node) : Node :=
  if (Node.keyTexts key base).idxOf (n.field? key) = i then
    overlayAll fallback (path.child (Numeral.text i)) n (withText key (n.field? key) nodes)
  else n

/-- The new element for a key text: all nodes with that text, laid over nothing. -/
def addedElement (fallback : Fallback) (key : String) (path : Cursor) (base nodes : List Node)
    (j : Nat) (text : Option String) : Node :=
  overlayAll fallback (path.child (Numeral.text (base.length + j))) .null (withText key text nodes)

/-- The elements of the base list in their places, and after them one element for each new key
text. -/
def keyMerged (fallback : Fallback) (key : String) (path : Cursor) (base nodes : List Node) :
    List Node :=
  base.mapIdx (matchedElement fallback key path base nodes) ++
    (newTexts key base nodes).mapIdx (addedElement fallback key path base nodes)

theorem position?_eq_some_iff {list : List Node} {name : String} {i : Nat} :
    position? list key name = some i ↔
      i < list.length ∧ (Node.keyTexts key list).idxOf (some name) = i := by
  rw [position?, List.findIdx?_eq_some_iff_findIdx_eq, Node.keyTexts, List.idxOf,
    List.findIdx_map]
  rfl

/-! ## One more incoming element -/

section Step

variable {n merged : Node} {base nodes : List Node} {text : Option String} {i : Nat}

theorem withText_cons_self (h : n.field? key = text) :
    withText key text (n :: nodes) = n :: withText key text nodes := by
  simp [withText, h]

theorem withText_cons_of_ne (h : n.field? key ≠ text) :
    withText key text (n :: nodes) = withText key text nodes := by
  simp [withText, h]

theorem keyTexts_cons : Node.keyTexts key (n :: nodes)
    = n.field? key :: Node.keyTexts key nodes := rfl

theorem field?_mem_keyTexts (h : n ∈ nodes) : n.field? key ∈ Node.keyTexts key nodes :=
  List.mem_map_of_mem h

theorem length_keyTexts : (Node.keyTexts key nodes).length = nodes.length :=
  List.length_map _

theorem mem_newTexts : text ∈ newTexts key base nodes ↔
    text ∈ Node.keyTexts key nodes ∧ text ∉ Node.keyTexts key base := by
  rw [newTexts, List.mem_eraseDups, List.mem_filter, decide_eq_true_iff]

theorem newTexts_cons_of_mem (h : n.field? key ∈ Node.keyTexts key base) :
    newTexts key base (n :: nodes) = newTexts key base nodes := by
  rw [newTexts, keyTexts_cons, List.filter_cons_of_neg (by simpa using h)]
  rfl

theorem newTexts_cons_of_notMem (h : n.field? key ∉ Node.keyTexts key base)
    (hkept : merged.field? key = n.field? key) :
    newTexts key base (n :: nodes) = n.field? key :: newTexts key (base ++ [merged]) nodes := by
  rw [newTexts, newTexts, keyTexts_append_singleton hkept, keyTexts_cons,
    List.filter_cons_of_pos (by simpa using h), List.eraseDups_cons, List.filter_filter]
  refine congrArg (fun texts => _ :: List.eraseDups texts) (List.filter_congr fun text _ => ?_)
  simp [Bool.and_comm, Bool.beq_eq_decide_eq]

/-- A matched element is as good as the element it is laid over. -/
theorem keyMerged_cons_of_mem (hi : i < base.length)
    (hfirst : (Node.keyTexts key base).idxOf (n.field? key) = i)
    (hsame : base[i].field? key = n.field? key)
    (hmerged : merged = (overlay fallback n base[i] (path.child (Numeral.text i))).value)
    (hkept : merged.field? key = n.field? key) :
    keyMerged fallback key path base (n :: nodes)
      = keyMerged fallback key path (base.set i merged) nodes := by
  have htexts := keyTexts_set hi (hkept.trans hsame.symm)
  have hmem : n.field? key ∈ Node.keyTexts key base :=
    hsame ▸ field?_mem_keyTexts (List.getElem_mem hi)
  have hnew : newTexts key (base.set i merged) nodes = newTexts key base nodes := by
    rw [newTexts, newTexts, htexts]
  unfold keyMerged
  rw [newTexts_cons_of_mem hmem, hnew]
  congr 1
  · refine List.ext_getElem (by simp) fun j hj _ => ?_
    rw [List.length_mapIdx] at hj
    rw [List.getElem_mapIdx, List.getElem_mapIdx, List.getElem_set, matchedElement, matchedElement,
      htexts]
    by_cases hij : i = j
    · subst hij
      rw [if_pos rfl, hsame, hkept, if_pos hfirst, if_pos hfirst, withText_cons_self rfl, hmerged]
      rfl
    · rw [if_neg hij]
      by_cases hfield : base[j].field? key = n.field? key
      · -- an element after the first one with its text stays
        rw [hfield, if_neg (by rwa [hfirst]), if_neg (by rwa [hfirst])]
      · rw [withText_cons_of_ne fun heq => hfield heq.symm]
  · refine List.mapIdx_eq_mapIdx_iff.mpr fun j hj => ?_
    have hne : n.field? key ≠ (newTexts key base nodes)[j] := fun heq =>
      (mem_newTexts.mp (List.getElem_mem hj)).2 (heq ▸ hmem)
    rw [addedElement, addedElement, withText_cons_of_ne hne, List.length_set]

/-- A new element is as good as an element of the base list. -/
theorem keyMerged_cons_of_notMem (hnew : n.field? key ∉ Node.keyTexts key base)
    (hmerged : merged = (overlay fallback n .null (path.child (Numeral.text base.length))).value)
    (hkept : merged.field? key = n.field? key) :
    keyMerged fallback key path base (n :: nodes)
      = keyMerged fallback key path (base ++ [merged]) nodes := by
  have htexts : Node.keyTexts key (base ++ [merged]) = Node.keyTexts key base ++ [n.field? key] :=
    keyTexts_append_singleton hkept
  unfold keyMerged
  rw [newTexts_cons_of_notMem hnew hkept, List.mapIdx_append, List.mapIdx_cons, List.mapIdx_cons,
    List.mapIdx_nil, List.append_assoc, List.singleton_append]
  congr 1
  · refine List.mapIdx_eq_mapIdx_iff.mpr fun j hj => ?_
    have hmem : base[j].field? key ∈ Node.keyTexts key base :=
      field?_mem_keyTexts (List.getElem_mem hj)
    have hne : n.field? key ≠ base[j].field? key := fun heq => hnew (heq ▸ hmem)
    rw [matchedElement, matchedElement, htexts, List.idxOf_append, if_pos hmem,
      withText_cons_of_ne hne]
  · congr 1
    · -- the new element comes under the nodes that follow as it would in the base list
      rw [addedElement, matchedElement, htexts, hkept, List.idxOf_append, if_neg hnew,
        List.idxOf_cons_self, length_keyTexts, withText_cons_self rfl, hmerged]
      simp [overlayAll]
    · refine List.mapIdx_eq_mapIdx_iff.mpr fun j hj => ?_
      have hne : n.field? key ≠ (newTexts key (base ++ [merged]) nodes)[j] := fun heq =>
        (mem_newTexts.mp (List.getElem_mem hj)).2
          (heq ▸ htexts ▸ List.mem_append_right _ (List.mem_singleton_self _))
      rw [addedElement, addedElement, withText_cons_of_ne hne, List.length_append,
        List.length_singleton, Nat.add_assoc, Nat.add_comm 1]

end Step

/-! ## The whole merge -/

section Run

variable {base nodes : List Node}

theorem nodup_newTexts (key : String) (nodes : List Node) : ∀ base : List Node,
    (newTexts key base nodes).Nodup := by
  induction nodes with
  | nil => exact fun _ => List.nodup_nil
  | cons n nodes ih =>
    intro base
    by_cases hmem : n.field? key ∈ Node.keyTexts key base
    · rw [newTexts_cons_of_mem hmem]
      exact ih base
    · rw [newTexts_cons_of_notMem hmem rfl]
      refine List.nodup_cons.mpr ⟨fun hagain => (mem_newTexts.mp hagain).2 ?_, ih _⟩
      exact field?_mem_keyTexts (List.mem_append_right _ (List.mem_singleton_self _))

theorem keyMerged_nil : keyMerged fallback key path base [] = base := by
  have hstay : matchedElement fallback key path base [] = fun _ n => n := by
    funext i n
    exact ite_self _
  rw [keyMerged, hstay, show newTexts key base [] = [] from rfl, List.mapIdx_nil, List.append_nil]
  exact List.mapIdx_eq_iff.mpr fun i => by simp

/-- Laying nodes by their key texts without faults gives the merged list, and its key texts are
those of the base list and then the new ones. -/
theorem layByKey_eq_keyMerged (hwf : ∀ n ∈ nodes, n.WellFormed)
    (hkeyed : ∀ n ∈ nodes, (n.field? key).isSome = true) : ∀ base : List Node,
    Faultless (layByKey key path base (incoming fallback nodes)).log →
    (layByKey key path base (incoming fallback nodes)).value
        = keyMerged fallback key path base nodes ∧
      Node.keyTexts key (keyMerged fallback key path base nodes)
        = Node.keyTexts key base ++ newTexts key base nodes := by
  induction nodes with
  | nil =>
    intro base _
    rw [keyMerged_nil]
    exact ⟨rfl, (List.append_nil _).symm⟩
  | cons n nodes ih =>
    intro base hfaultless
    obtain ⟨hwf_n, hwf⟩ := List.forall_mem_cons.mp hwf
    obtain ⟨hkeyed_n, hkeyed⟩ := List.forall_mem_cons.mp hkeyed
    obtain ⟨name, hname⟩ := Option.isSome_iff_exists.mp hkeyed_n
    simp only [incoming, layByKey, hname, Option.getD_some] at hfaultless ⊢
    cases hposition : position? base key name with
    | some i =>
      obtain ⟨hi, hfound⟩ := field?_eq_of_position? hposition
      have hfirst := (position?_eq_some_iff.mp hposition).2
      simp only [hposition, Logged.log_bind, List.getElem?_eq_getElem hi, Option.getD_some]
        at hfaultless
      obtain ⟨hlaid, hrest⟩ := List.forall_mem_append.mp hfaultless
      have hkept := field?_overlay_of_faultless hwf_n hkeyed_n hlaid
      obtain ⟨hvalue, htexts⟩ := ih hwf hkeyed _ hrest
      rw [keyMerged_cons_of_mem hi (hname ▸ hfirst) (hfound.trans hname.symm) rfl hkept]
      simp only [Logged.value_bind, List.getElem?_eq_getElem hi, Option.getD_some]
      refine ⟨hvalue, htexts.trans ?_⟩
      have hsame := keyTexts_set hi (hkept.trans (hname.trans hfound.symm))
      have hmem : n.field? key ∈ Node.keyTexts key base :=
        hname ▸ hfound ▸ field?_mem_keyTexts (List.getElem_mem hi)
      rw [newTexts_cons_of_mem hmem, newTexts, hsame, newTexts]
    | none =>
      have hnew : n.field? key ∉ Node.keyTexts key base :=
        hname ▸ position?_eq_none_iff.mp hposition
      simp only [hposition, Logged.log_bind] at hfaultless
      obtain ⟨hlaid, hrest⟩ := List.forall_mem_append.mp hfaultless
      have hkept := field?_overlay_of_faultless hwf_n hkeyed_n hlaid
      obtain ⟨hvalue, htexts⟩ := ih hwf hkeyed _ hrest
      rw [keyMerged_cons_of_notMem hnew rfl hkept]
      refine ⟨hvalue, ?_⟩
      rw [newTexts_cons_of_notMem hnew hkept]
      exact (htexts.trans (congrArg (· ++ _) (keyTexts_append_singleton hkept))).trans
        (List.append_assoc _ _ _)

/-- **A merge by key that records no fault keeps the elements of the base list in their places,
each with its key text, lays over the first one with a key text all incoming elements with that
text, and adds one element for each new key text at the end.** -/
theorem mergeByKey_eq_keyMerged (hwf : ∀ n ∈ nodes, n.WellFormed)
    (hbase : keyFault? .base key path 0 base = none)
    (hnodes : keyFault? .incoming key path 0 nodes = none)
    (hfaultless : Faultless (mergeByKey key path base (incoming fallback nodes)).log) :
    (mergeByKey key path base (incoming fallback nodes)).value
        = .ok (keyMerged fallback key path base nodes) ∧
      Node.keyTexts key (keyMerged fallback key path base nodes)
        = Node.keyTexts key base ++ newTexts key base nodes ∧
      (newTexts key base nodes).Nodup := by
  simp only [mergeByKey, map_node_incoming, hbase, hnodes, Option.or_none, Logged.value_map,
    Logged.log_map] at hfaultless ⊢
  obtain ⟨hvalue, htexts⟩ :=
    layByKey_eq_keyMerged hwf (keyFault?_eq_none_iff.mp hnodes) base hfaultless
  exact ⟨congrArg _ hvalue, htexts, nodup_newTexts key nodes base⟩

/-- A list in which two elements have the text `1` under `id`, as a number and as a string. -/
def repeatedBase : List Node :=
  [.mapping [("id", .integer 1), ("a", .integer 0)], .mapping [("id", .string "x")],
    .mapping [("id", .string "1"), ("b", .integer 0)]]

/-- Elements with old and new key texts, each of them more than once. -/
def repeatedNodes : List Node :=
  [.mapping [("id", .string "y")], .mapping [("id", .string "1"), ("c", .integer 0)],
    .mapping [("d", .integer 0), ("id", .string "y")], .mapping [("id", .integer 1)],
    .mapping [("id", .string "z")]]

theorem mergeByKey_eq_keyMerged_repeated :
    keyMerged .inline "id" .root repeatedBase repeatedNodes
        = [.mapping [("id", .integer 1), ("a", .integer 0), ("c", .integer 0)],
          .mapping [("id", .string "x")], .mapping [("id", .string "1"), ("b", .integer 0)],
          .mapping [("id", .string "y"), ("d", .integer 0)], .mapping [("id", .string "z")]] ∧
      newTexts "id" repeatedBase repeatedNodes = [some "y", some "z"] ∧
      (mergeByKey "id" .root repeatedBase (incoming .inline repeatedNodes)).value
        = .ok (keyMerged .inline "id" .root repeatedBase repeatedNodes) :=
  ⟨rfl, rfl, (mergeByKey_eq_keyMerged (by decide) rfl rfl (by exact List.forall_mem_nil _)).1⟩

end Run

end Laminate.Merge
