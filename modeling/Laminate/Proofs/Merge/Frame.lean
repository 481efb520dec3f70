import Laminate.Proofs.Merge.Branches
import Laminate.Proofs.Node.Entries

/-!
# An entry acts on its own place only

An entry of a document at some depth of its mappings is laid over what the tree has in the same
place. The place then holds what that laying gives, its notes are among those of the merge, and
everything else, notes included, is as if the entry had not been in the document
(`entryFrame_of_valueAt?`). If the laying gives what was there already, the whole tree is.
-/

namespace Laminate.Merge

/-! ## Places in mappings -/

/-- The entries of the mapping that keys lead to. -/
def entriesAt? : Entries Node → List String → Option (Entries Node)
  | es, [] => some es
  | es, k :: keys =>
    match Entries.get? es k with
    | some (.mapping sub) => entriesAt? sub keys
    | _ => none

/-- The value under a key of the mapping that keys lead to. -/
def valueAt? (es : Entries Node) (keys : List String) (key : String) : Option Node :=
  (entriesAt? es keys).bind fun sub => Entries.get? sub key

/-- The entries without a key of the mapping that keys lead to. -/
def eraseAt : Entries Node → List String → String → Entries Node
  | es, [], key => Entries.erase es key
  | es, k :: keys, key =>
    match Entries.get? es k with
    | some (.mapping sub) => Entries.insert es k (.mapping (eraseAt sub keys key))
    | _ => es

/-- The path that keys lead along. -/
def pathAlong (path : Cursor) (keys : List String) : Cursor :=
  keys.foldl Cursor.child path

/-- The entries of the mapping under a key; none if there is no mapping. -/
def entriesUnder (es : Entries Node) (k : String) : Entries Node :=
  ((Entries.get? es k).getD .null).entries?.getD []

/-- An entry of a document over the value in its place. -/
def entryBranch (n : Node) (target : Entries Node) (path : Cursor) (keys : List String)
    (key : String) : Branch :=
  ⟨n, valueAt? target keys key, (pathAlong path keys).child key⟩

theorem valueAt?_nil (es : Entries Node) (key : String) :
    valueAt? es [] key = Entries.get? es key := rfl

theorem valueAt?_cons_of_mapping {es sub : Entries Node} {k : String}
    (h : Entries.get? es k = some (.mapping sub)) (keys : List String) (key : String) :
    valueAt? es (k :: keys) key = valueAt? sub keys key := by
  simp only [valueAt?, entriesAt?, h]

theorem exists_of_valueAt?_cons {es : Entries Node} {k key : String} {keys : List String} {n : Node}
    (h : valueAt? es (k :: keys) key = some n) :
    ∃ sub, Entries.get? es k = some (.mapping sub) ∧ valueAt? sub keys key = some n := by
  unfold valueAt? entriesAt? at h
  split at h
  · next sub hget => exact ⟨sub, hget, h⟩
  · cases h

/-- Below what is no mapping nothing is found, as in an empty mapping. -/
theorem valueAt?_cons (es : Entries Node) (k : String) (keys : List String) (key : String) :
    valueAt? es (k :: keys) key = valueAt? (entriesUnder es k) keys key := by
  have hempty : valueAt? [] keys key = none := by cases keys <;> rfl
  unfold entriesUnder
  cases hget : Entries.get? es k with
  | none => simp only [valueAt?, entriesAt?, hget]; exact hempty.symm
  | some n =>
    cases n with
    | mapping sub => rw [valueAt?_cons_of_mapping hget]; rfl
    | _ => simp only [valueAt?, entriesAt?, hget]; exact hempty.symm

theorem eraseAt_cons_of_mapping {es sub : Entries Node} {k : String}
    (h : Entries.get? es k = some (.mapping sub)) (keys : List String) (key : String) :
    eraseAt es (k :: keys) key = Entries.insert es k (.mapping (eraseAt sub keys key)) := by
  simp only [eraseAt, h]

/-! ## Other entries -/

section Others

variable {fallback : Fallback} {path : Cursor} {key : String}

theorem value_overlayEntries_append (pre post base : Entries Node) :
    (overlayEntries fallback (pre ++ post) base path).value
      = (overlayEntries fallback post (overlayEntries fallback pre base path).value
          path).value := by
  induction pre generalizing base with
  | nil => rfl
  | cons e pre ih =>
    rw [List.cons_append, value_overlayEntries_cons, ih]
    rfl

theorem log_overlayEntries_append (pre post base : Entries Node) :
    (overlayEntries fallback (pre ++ post) base path).log
      = (overlayEntries fallback pre base path).log ++
        (overlayEntries fallback post (overlayEntries fallback pre base path).value path).log := by
  induction pre generalizing base with
  | nil => rfl
  | cons e pre ih =>
    rw [List.cons_append, log_overlayEntries_cons, log_overlayEntries_cons, ih, List.append_assoc]
    rfl

/-- Entries leave the value under another key. -/
theorem get?_overlayEntries {es : Entries Node} (h : key ∉ Entries.keys es) :
    ∀ base : Entries Node,
    Entries.get? (overlayEntries fallback es base path).value key = Entries.get? base key := by
  induction es with
  | nil => exact fun _ => rfl
  | cons e es ih =>
    intro base
    have hne : ¬e.1 = key := fun heq => h (heq ▸ List.mem_cons_self)
    rw [value_overlayEntries_cons, ih fun hmem => h (List.mem_cons_of_mem _ hmem),
      Entries.get?_insert, if_neg hne]

variable (fallback path) in
/-- With distinct keys every entry is laid over what the tree has under its key. -/
theorem get?_overlayEntries_of_mem {es : Entries Node} {n : Node} (hes : (Entries.keys es).Nodup)
    (h : (key, n) ∈ es) (base : Entries Node) :
    Entries.get? (overlayEntries fallback es base path).value key
      = some (overlay fallback n ((Entries.get? base key).getD .null) (path.child key)).value := by
  obtain ⟨pre, post, rfl, hpre⟩ := Entries.exists_split_of_get? (Entries.get?_of_mem hes h)
  rw [value_overlayEntries_append, value_overlayEntries_cons,
    get?_overlayEntries (Entries.notMem_keys_of_nodup hes), Entries.get?_insert, if_pos rfl,
    get?_overlayEntries hpre]

variable (fallback path) in
/-- Over trees that differ under another key only, entries do the same. -/
theorem overlayEntries_congr_erase {es : Entries Node} (h : key ∉ Entries.keys es) :
    ∀ {base base' : Entries Node}, Entries.erase base key = Entries.erase base' key →
    Entries.erase (overlayEntries fallback es base path).value key
      = Entries.erase (overlayEntries fallback es base' path).value key ∧
    (overlayEntries fallback es base path).log = (overlayEntries fallback es base' path).log := by
  induction es with
  | nil => exact fun hbase => ⟨hbase, rfl⟩
  | cons e es ih =>
    intro base base' hbase
    have hne : e.1 ≠ key := fun heq => h (heq ▸ List.mem_cons_self)
    have hslot : Entries.get? base e.1 = Entries.get? base' e.1 := by
      rw [← Entries.get?_erase hne base, hbase, Entries.get?_erase hne]
    have hinsert : ∀ n, Entries.erase (Entries.insert base e.1 n) key
        = Entries.erase (Entries.insert base' e.1 n) key := by
      intro n
      rw [Entries.erase_insert hne, Entries.erase_insert hne, hbase]
    -- the entry finds the same slot in both trees, so it is laid in the same way
    rw [value_overlayEntries_cons, value_overlayEntries_cons, log_overlayEntries_cons,
      log_overlayEntries_cons, hslot]
    obtain ⟨hvalue, hlog⟩ := ih (fun hmem => h (List.mem_cons_of_mem _ hmem)) (hinsert _)
    exact ⟨hvalue, congrArg _ hlog⟩

variable (fallback path) in
/-- To write under a key that is present and then lay entries over the others is the same as the
other way round. -/
theorem overlayEntries_insert {es : Entries Node} (h : key ∉ Entries.keys es) (n : Node) :
    ∀ {base : Entries Node}, key ∈ Entries.keys base →
    (overlayEntries fallback es (Entries.insert base key n) path).value
      = Entries.insert (overlayEntries fallback es base path).value key n ∧
    (overlayEntries fallback es (Entries.insert base key n) path).log
      = (overlayEntries fallback es base path).log := by
  induction es with
  | nil => exact fun _ => ⟨rfl, rfl⟩
  | cons e es ih =>
    intro base hmem
    have hne : key ≠ e.1 := fun heq => h (heq ▸ List.mem_cons_self)
    rw [value_overlayEntries_cons, value_overlayEntries_cons, log_overlayEntries_cons,
      log_overlayEntries_cons, Entries.get?_insert, if_neg hne, Entries.insert_comm_of_mem hmem hne]
    obtain ⟨hvalue, hlog⟩ := ih (fun hmem => h (List.mem_cons_of_mem _ hmem))
      (Entries.mem_keys_insert_of_mem hmem)
    exact ⟨hvalue, congrArg _ hlog⟩

end Others

/-! ## The frame of an entry -/

/-- What a merge does to the place of an entry, and that the rest is as without the entry. -/
structure EntryFrame (fallback : Fallback) (doc target : Entries Node) (path : Cursor)
    (keys : List String) (key : String) (n : Node) : Prop where
  value : valueAt? (overlayEntries fallback doc target path).value keys key
    = some ((entryBranch n target path keys key).laid fallback).value
  rest : eraseAt (overlayEntries fallback doc target path).value keys key
    = eraseAt (overlayEntries fallback (eraseAt doc keys key) target path).value keys key
  unchanged : valueAt? target keys key
      = some ((entryBranch n target path keys key).laid fallback).value →
    (overlayEntries fallback doc target path).value
      = (overlayEntries fallback (eraseAt doc keys key) target path).value
  notes : ∃ before after,
    (overlayEntries fallback doc target path).log
      = before ++ ((entryBranch n target path keys key).laid fallback).log ++ after ∧
    (overlayEntries fallback (eraseAt doc keys key) target path).log = before ++ after

section Frame

variable {fallback : Fallback} {path : Cursor} {key : String} {n : Node}

theorem entryFrame_nil {doc target : Entries Node} (hdoc : (Entries.keys doc).Nodup)
    (h : Entries.get? doc key = some n) : EntryFrame fallback doc target path [] key n := by
  obtain ⟨pre, post, rfl, hpre⟩ := Entries.exists_split_of_get? h
  have hpost := Entries.notMem_keys_of_nodup hdoc
  have hslot : Entries.get? (overlayEntries fallback pre target path).value key
      = Entries.get? target key := get?_overlayEntries hpre target
  have hrest := overlayEntries_congr_erase fallback path hpost
    (Entries.erase_insert_self (overlayEntries fallback pre target path).value key
      ((entryBranch n target path [] key).laid fallback).value)
  have herase : eraseAt (pre ++ (key, n) :: post) [] key = pre ++ post :=
    Entries.erase_append hpre hpost
  refine ⟨?_, ?_, fun hsame => ?_, ?_⟩
  · rw [valueAt?_nil]
    exact get?_overlayEntries_of_mem fallback path hdoc (Entries.mem_of_get? h) target
  · rw [herase, value_overlayEntries_append, value_overlayEntries_append, value_overlayEntries_cons,
      hslot]
    exact hrest.1
  · rw [herase, value_overlayEntries_append, value_overlayEntries_append, value_overlayEntries_cons,
      hslot]
    exact congrArg (fun base => (overlayEntries fallback post base path).value)
      (Entries.insert_of_get? (hslot.trans hsame))
  · refine ⟨(overlayEntries fallback pre target path).log,
      (overlayEntries fallback post (overlayEntries fallback pre target path).value path).log,
      ?_, ?_⟩
    · rw [log_overlayEntries_append, log_overlayEntries_cons, hslot, List.append_assoc]
      exact congrArg (fun log => _ ++ (_ ++ log)) hrest.2
    · rw [herase, log_overlayEntries_append]

variable (fallback path) in
/-- The merge of a document with a mapping under a key is a context around the merge of that
mapping: the rest of the tree and the notes do not depend on it. -/
theorem exists_context {pre post : Entries Node} {k : String} (hpre : k ∉ Entries.keys pre)
    (hpost : k ∉ Entries.keys post) (target : Entries Node) :
    ∃ (context : Node → Entries Node) (before after : List Note),
      (∀ n, Entries.get? (context n) k = some n) ∧
      (∀ n m, Entries.insert (context n) k m = context m) ∧
      ∀ sub, (overlayEntries fallback (pre ++ (k, .mapping sub) :: post) target path).value
          = context (.mapping
            (overlayEntries fallback sub (entriesUnder target k) (path.child k)).value) ∧
        (overlayEntries fallback (pre ++ (k, .mapping sub) :: post) target path).log
          = before ++ (overlayEntries fallback sub (entriesUnder target k) (path.child k)).log
            ++ after := by
  have hslot : Entries.get? (overlayEntries fallback pre target path).value k
      = Entries.get? target k := get?_overlayEntries hpre target
  -- the entries behind `k` find the value under `k` written, and leave it as it is
  let first := (overlayEntries fallback pre target path).value
  have hinsert : ∀ n m,
      (overlayEntries fallback post (Entries.insert first k m) path).value
        = Entries.insert (overlayEntries fallback post (Entries.insert first k n) path).value k m ∧
      (overlayEntries fallback post (Entries.insert first k m) path).log
        = (overlayEntries fallback post (Entries.insert first k n) path).log := by
    intro n m
    have h := overlayEntries_insert fallback path hpost m (Entries.mem_keys_insert first k n)
    rw [Entries.insert_insert] at h
    exact h
  refine ⟨fun n => (overlayEntries fallback post (Entries.insert first k n) path).value,
    (overlayEntries fallback pre target path).log ++
      overwrittenNotes ((Entries.get? target k).getD .null) (path.child k),
    (overlayEntries fallback post (Entries.insert first k .null) path).log,
    fun n => ?_, fun n m => (hinsert n m).1.symm, fun sub => ⟨?_, ?_⟩⟩
  · rw [get?_overlayEntries hpost, Entries.get?_insert, if_pos rfl]
  · rw [value_overlayEntries_append, value_overlayEntries_cons, hslot, value_overlay_mapping]
    rfl
  · rw [log_overlayEntries_append, log_overlayEntries_cons, hslot, log_overlay_mapping,
      (hinsert .null _).2]
    simp only [entriesUnder, List.append_assoc]

theorem entryFrame_cons {pre post sub target : Entries Node} {k : String} {keys : List String}
    (hpre : k ∉ Entries.keys pre) (hpost : k ∉ Entries.keys post)
    (h : EntryFrame fallback sub (entriesUnder target k) (path.child k) keys key n) :
    EntryFrame fallback (pre ++ (k, .mapping sub) :: post) target path (k :: keys) key n := by
  obtain ⟨hvalue, hrest, hunchanged, before, after, hwith, hwithout⟩ := h
  obtain ⟨context, first, last, hget, hinsert, hmerge⟩ :=
    exists_context fallback path hpre hpost target
  have hbranch : entryBranch n target path (k :: keys) key
      = entryBranch n (entriesUnder target k) (path.child k) keys key := by
    rw [entryBranch, valueAt?_cons]
    rfl
  have herase : eraseAt (pre ++ (k, .mapping sub) :: post) (k :: keys) key
      = pre ++ (k, .mapping (eraseAt sub keys key)) :: post := by
    rw [eraseAt_cons_of_mapping (Entries.get?_append hpre), Entries.insert_append hpre]
  refine ⟨?_, ?_, fun hsame => ?_, first ++ before, after ++ last, ?_, ?_⟩
  · rw [(hmerge sub).1, valueAt?_cons_of_mapping (hget _), hbranch]
    exact hvalue
  · rw [herase, (hmerge sub).1, (hmerge (eraseAt sub keys key)).1,
      eraseAt_cons_of_mapping (hget _), eraseAt_cons_of_mapping (hget _), hinsert, hinsert, hrest]
  · rw [valueAt?_cons, hbranch] at hsame
    rw [herase, (hmerge sub).1, (hmerge (eraseAt sub keys key)).1, hunchanged hsame]
  · rw [(hmerge sub).2, hwith, hbranch]
    simp only [List.append_assoc]
  · rw [herase, (hmerge (eraseAt sub keys key)).2, hwithout]
    simp only [List.append_assoc]

/-- **An entry at any depth of the mappings of a document acts on its own place only.** -/
theorem entryFrame_of_valueAt? : ∀ {keys : List String} {doc target : Entries Node} {path : Cursor},
    (Node.mapping doc).WellFormed → valueAt? doc keys key = some n →
    EntryFrame fallback doc target path keys key n
  | [], doc, target, path, hwf, h => by
    cases hwf with
    | mapping nodup _ => exact entryFrame_nil nodup h
  | k :: keys, doc, target, path, hwf, h => by
    obtain ⟨sub, hget, hsub⟩ := exists_of_valueAt?_cons h
    cases hwf with
    | mapping nodup values_wf =>
      have hwf' := values_wf _ (Entries.mem_of_get? hget)
      obtain ⟨pre, post, rfl, hpre⟩ := Entries.exists_split_of_get? hget
      exact entryFrame_cons hpre (Entries.notMem_keys_of_nodup nodup)
        (entryFrame_of_valueAt? hwf' hsub)

end Frame

end Laminate.Merge
