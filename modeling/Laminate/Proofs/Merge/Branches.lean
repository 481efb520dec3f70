import Laminate.Merge.Documents
import Mathlib.Logic.Relation

/-!
# Branches

To lay a node over another one is to lay its parts over parts of the other one: the entries of a
mapping over the values under their keys, and the items of a list over elements, or over nothing, as
the strategy says. A branch is such a node together with its slot, which is what stands in its place
so far, if anything does. `Branch.parts` lists the branches that the laying of a branch consists of,
in order, and the notes of a branch are its own and those of its parts (`log_overlayEntries`,
`log_mergeList`).
-/

namespace Laminate.Merge

/-- A node of a document as it is laid over its slot at a path. -/
structure Branch where
  node : Node
  slot : Option Node
  path : Cursor

namespace Branch

/-- What the node is laid over: a new slot is null. -/
def base (b : Branch) : Node :=
  b.slot.getD .null

/-- The laying of the branch. -/
def laid (fallback : Fallback) (b : Branch) : Merged Node :=
  overlay fallback b.node b.base b.path

/-- The entries of a document laid over those of a tree. -/
def ofEntries (doc target : Entries Node) (path : Cursor) : Branch :=
  ⟨.mapping doc, some (.mapping target), path⟩

end Branch

/-! ## The parts of a branch -/

/-- Entries over the values under their keys. -/
def entryParts (fallback : Fallback) (path : Cursor) : Entries Node → Entries Node → List Branch
  | _, [] => []
  | base, e :: es =>
    -- the entries after this one find what it leaves
    let b : Branch := ⟨e.2, Entries.get? base e.1, path.child e.1⟩
    b :: entryParts fallback path (Entries.insert base e.1 (b.laid fallback).value) es

/-- Items over the elements at their positions. -/
def inlineParts (path : Cursor) : Nat → List Node → List Node → List Branch
  | _, _, [] => []
  | index, base, n :: nodes =>
    ⟨n, base.head?, path.child (Numeral.text index)⟩ :: inlineParts path (index + 1) base.tail nodes

/-- Items that are new, at consecutive positions. -/
def adoptedParts (path : Cursor) : Nat → List Node → List Branch
  | _, [] => []
  | index, n :: nodes =>
    ⟨n, none, path.child (Numeral.text index)⟩ :: adoptedParts path (index + 1) nodes

/-- Items over the first elements of the list so far that have the same key text. -/
def matchedParts (fallback : Fallback) (key : String) (path : Cursor) :
    List Node → List Node → List Branch
  | _, [] => []
  | result, n :: nodes =>
    match position? result key ((n.field? key).getD "") with
    | some i =>
      let b : Branch := ⟨n, result[i]?, path.child (Numeral.text i)⟩
      b :: matchedParts fallback key path (result.set i (b.laid fallback).value) nodes
    | none =>
      let b : Branch := ⟨n, none, path.child (Numeral.text result.length)⟩
      b :: matchedParts fallback key path (result ++ [(b.laid fallback).value]) nodes

/-- Items over elements with the same key text, if all elements of both lists have one. -/
def keyedParts (fallback : Fallback) (key : String) (path : Cursor) (base nodes : List Node) :
    List Branch :=
  match (keyFault? .base key path 0 base).or (keyFault? .incoming key path 0 nodes) with
  | some _ => []
  | none => matchedParts fallback key path base nodes

/-- The entries that a batch inserts into a list. -/
def batchParts (path : Cursor) (list : List Node) (batch : Batch) : List Branch :=
  match batch.edit with
  | .delete _ => []
  | .insert after anchor =>
    match insertPosition list after anchor with
    | .error _ => []
    | .ok i =>
      match anchor.clash? list batch.entries with
      | some _ => []
      | none => adoptedParts path i (batch.entries.map Incoming.node)

/-- The entries that batches insert, until one of them fails. -/
def editParts (path : Cursor) : List Node → List Batch → List Branch
  | _, [] => []
  | list, batch :: rest =>
    batchParts path list batch ++
      match (applyBatch path list batch).value with
      | .ok list => editParts path list rest
      | .error _ => []

/-- Items of a list without a directive. -/
def plainParts (fallback : Fallback) (path : Cursor) (base nodes : List Node) : List Branch :=
  if allNamed base && allNamed nodes then keyedParts fallback defaultKey path base nodes
  else
    match fallback with
    | .inline => inlineParts path 0 base nodes
    | .append => adoptedParts path base.length nodes

/-- Items of a list, as its first element says. -/
def listParts (fallback : Fallback) (path : Cursor) (base nodes : List Node) : List Branch :=
  match nodes with
  | [] => plainParts fallback path base []
  | first :: rest =>
    match Directive.ofNode? first with
    | none => plainParts fallback path base nodes
    | some (.error _) => []
    | some (.ok .inline) => inlineParts path 0 base rest
    | some (.ok .replace) => adoptedParts path 0 rest
    | some (.ok .append) => adoptedParts path base.length rest
    | some (.ok .prepend) => adoptedParts path 0 rest
    | some (.ok (.merge key)) => keyedParts fallback key path base rest
    | some (.ok (.edit _)) =>
      match batches path 0 (incoming fallback nodes) with
      | .error _ => []
      | .ok (_, batches) => editParts path base batches

/-- The branches that the laying of a branch consists of. -/
def Branch.parts (fallback : Fallback) (b : Branch) : List Branch :=
  match b.node with
  | .scalar _ => []
  | .mapping es => entryParts fallback b.path (b.base.entries?.getD []) es
  | .sequence nodes => listParts fallback b.path (b.base.items?.getD []) nodes

/-- A branch is within another one if it is a part of it, or of its parts, and so on. -/
def Branch.Within (fallback : Fallback) (b whole : Branch) : Prop :=
  Relation.ReflTransGen (fun a c => c ∈ a.parts fallback) whole b

/-! ## One laying -/

section Overlay

variable {fallback : Fallback} {base : Node} {path : Cursor}

/-- The note that a call that marks its value for removal is overwritten. -/
def overwrittenNotes (base : Node) (path : Cursor) : List Note :=
  if isCall base "prune" then [.overwritten path] else []

theorem log_noteOverwritten (base : Node) (path : Cursor) :
    (noteOverwritten base path).log = overwrittenNotes base path := by
  unfold noteOverwritten overwrittenNotes
  split <;> rfl

theorem value_overlay_mapping (es : Entries Node) :
    (overlay fallback (.mapping es) base path).value
      = .mapping (overlayEntries fallback es (base.entries?.getD []) path).value := rfl

theorem log_overlay_mapping (es : Entries Node) :
    (overlay fallback (.mapping es) base path).log
      = overwrittenNotes base path ++
        (overlayEntries fallback es (base.entries?.getD []) path).log := by
  simp only [overlay, Logged.log_bind, Logged.log_map, log_noteOverwritten]

/-- The merge of a list over what stands in its place. -/
def mergeOver (fallback : Fallback) (nodes : List Node) (base : Node) (path : Cursor) :
    Merged (Except Fault (List Node)) :=
  mergeList fallback path (base.items?.getD []) (incoming fallback nodes)

theorem value_overlay_sequence (nodes : List Node) :
    (overlay fallback (.sequence nodes) base path).value =
      match (mergeOver fallback nodes base path).value with
      | .ok merged => .sequence merged
      | .error _ => base := by
  simp only [overlay, Logged.value_bind, mergeOver]
  cases (mergeList fallback path (base.items?.getD []) (incoming fallback nodes)).value <;> rfl

theorem log_overlay_sequence (nodes : List Node) :
    (overlay fallback (.sequence nodes) base path).log =
      overwrittenNotes base path ++ ((mergeOver fallback nodes base path).log ++
        match (mergeOver fallback nodes base path).value with
        | .ok _ => []
        | .error fault => [.fault fault]) := by
  simp only [overlay, Logged.log_bind, log_noteOverwritten, mergeOver]
  cases (mergeList fallback path (base.items?.getD []) (incoming fallback nodes)).value <;> rfl

theorem value_overlayEntries_cons (e : String × Node) (es base : Entries Node) :
    (overlayEntries fallback (e :: es) base path).value =
      (overlayEntries fallback es (Entries.insert base e.1
        (overlay fallback e.2 ((Entries.get? base e.1).getD .null) (path.child e.1)).value)
          path).value := rfl

theorem log_overlayEntries_cons (e : String × Node) (es base : Entries Node) :
    (overlayEntries fallback (e :: es) base path).log =
      (overlay fallback e.2 ((Entries.get? base e.1).getD .null) (path.child e.1)).log ++
      (overlayEntries fallback es (Entries.insert base e.1
        (overlay fallback e.2 ((Entries.get? base e.1).getD .null) (path.child e.1)).value)
          path).log := rfl

end Overlay

/-! ## Notes -/

section Notes

variable {fallback : Fallback} {path : Cursor}

/-- The notes of branches, one after the other. -/
def notes (fallback : Fallback) (branches : List Branch) : List Note :=
  branches.flatMap fun b => (b.laid fallback).log

theorem notes_cons (b : Branch) (branches : List Branch) :
    notes fallback (b :: branches) = (b.laid fallback).log ++ notes fallback branches := rfl

theorem notes_append (branches others : List Branch) :
    notes fallback (branches ++ others) = notes fallback branches ++ notes fallback others :=
  List.flatMap_append

theorem log_overlayEntries (es : Entries Node) : ∀ base : Entries Node,
    (overlayEntries fallback es base path).log
      = notes fallback (entryParts fallback path base es) := by
  induction es with
  | nil => exact fun _ => rfl
  | cons e es ih =>
    intro base
    rw [log_overlayEntries_cons, ih]
    rfl

theorem log_adoptAll (nodes : List Node) : ∀ index : Nat,
    (Incoming.adoptAll path index (incoming fallback nodes)).log
      = notes fallback (adoptedParts path index nodes) := by
  induction nodes with
  | nil => exact fun _ => rfl
  | cons n nodes ih =>
    intro index
    rw [adoptedParts, notes_cons, ← ih]
    simp only [incoming, Incoming.adoptAll, Logged.log_bind, Logged.log_pure, List.append_nil]
    rfl

theorem log_mergeInline (nodes : List Node) : ∀ (index : Nat) (base : List Node),
    (mergeInline path index base (incoming fallback nodes)).log
      = notes fallback (inlineParts path index base nodes) := by
  induction nodes with
  | nil => exact fun _ _ => by simp only [incoming, mergeInline]; rfl
  | cons n nodes ih =>
    intro index base
    rw [inlineParts, notes_cons, ← ih]
    cases base with
    | nil =>
      simp only [incoming, mergeInline, Logged.log_bind, Logged.log_pure, List.append_nil]
      rfl
    | cons slot base =>
      simp only [incoming, mergeInline, Logged.log_bind, Logged.log_pure, List.append_nil]
      rfl

theorem log_layByKey (key : String) (nodes : List Node) : ∀ result : List Node,
    (layByKey key path result (incoming fallback nodes)).log
      = notes fallback (matchedParts fallback key path result nodes) := by
  induction nodes with
  | nil => exact fun _ => rfl
  | cons n nodes ih =>
    intro result
    simp only [incoming, layByKey, matchedParts]
    cases position? result key ((n.field? key).getD "") with
    | some i =>
      simp only [Logged.log_bind, ih]
      rfl
    | none =>
      simp only [Logged.log_bind, ih]
      rfl

theorem map_node_incoming (nodes : List Node) :
    (incoming fallback nodes).map Incoming.node = nodes := by
  rw [incoming_eq_map, List.map_map]
  exact List.map_id nodes

theorem log_mergeByKey (key : String) (base nodes : List Node) :
    (mergeByKey key path base (incoming fallback nodes)).log
      = notes fallback (keyedParts fallback key path base nodes) := by
  simp only [mergeByKey, keyedParts, map_node_incoming]
  cases (keyFault? .base key path 0 base).or (keyFault? .incoming key path 0 nodes) with
  | some fault => rfl
  | none => rw [Logged.log_map, log_layByKey]

theorem log_mergePlain (base nodes : List Node) :
    (mergePlain fallback path base (incoming fallback nodes)).log
      = notes fallback (plainParts fallback path base nodes) := by
  simp only [mergePlain, plainParts, map_node_incoming]
  split
  · exact log_mergeByKey _ _ _
  · cases fallback with
    | inline => rw [Logged.log_map, log_mergeInline]
    | append => rw [Logged.log_map, log_adoptAll]

/-! ## Notes of edits -/

/-- Incoming items that are laid as nodes of a document are. -/
def AreOverlays (fallback : Fallback) (items : List Incoming) : Prop :=
  ∀ item ∈ items, item.layOver = overlay fallback item.node

theorem eq_incoming {items : List Incoming} (h : AreOverlays fallback items) :
    items = incoming fallback (items.map Incoming.node) := by
  induction items with
  | nil => rfl
  | cons item items ih =>
    obtain ⟨hitem, hitems⟩ := List.forall_mem_cons.mp h
    rw [List.map_cons, incoming, ← ih hitems, ← hitem]

/-- The batches of an incoming list hold items of the list. -/
theorem forall_mem_batches {P : Incoming → Prop} {items : List Incoming}
    (hitems : ∀ item ∈ items, P item) : ∀ {index : Nat} {entries : List Incoming}
    {list : List Batch}, batches path index items = .ok (entries, list) →
    (∀ item ∈ entries, P item) ∧ ∀ batch ∈ list, ∀ item ∈ batch.entries, P item := by
  induction items with
  | nil =>
    intro index entries list h
    cases h
    exact ⟨List.forall_mem_nil _, List.forall_mem_nil _⟩
  | cons item items ih =>
    intro index entries list h
    obtain ⟨hitem, hitems⟩ := List.forall_mem_cons.mp hitems
    simp only [batches] at h
    -- batches are read from the end: an edit takes the items before the next edit with it
    cases hrest : batches path (index + 1) items with
    | error fault =>
      rw [hrest] at h
      split at h <;> cases h
    | ok parts =>
      obtain ⟨restEntries, restList⟩ := parts
      obtain ⟨hentries, hlist⟩ := ih hitems hrest
      rw [hrest] at h
      split at h
      · cases h
        exact ⟨List.forall_mem_nil _, List.forall_mem_cons.mpr ⟨hentries, hlist⟩⟩
      · cases h
      · cases h
      · cases h
        exact ⟨List.forall_mem_cons.mpr ⟨hitem, hentries⟩, hlist⟩

theorem areOverlays_incoming (nodes : List Node) :
    AreOverlays fallback (incoming fallback nodes) := by
  rw [incoming_eq_map]
  exact List.forall_mem_map.mpr fun _ _ => rfl

theorem log_applyBatch {batch : Batch} (h : AreOverlays fallback batch.entries)
    (list : List Node) :
    (applyBatch path list batch).log = notes fallback (batchParts path list batch) := by
  unfold applyBatch batchParts
  cases batch.edit with
  | delete anchor =>
    simp only
    split <;> rfl
  | insert after anchor =>
    simp only
    cases insertPosition list after anchor with
    | error problem => rfl
    | ok i =>
      simp only
      cases anchor.clash? list batch.entries with
      | some problem => rfl
      | none =>
        simp only [Logged.log_bind, Logged.log_pure, List.append_nil]
        rw [← log_adoptAll, ← eq_incoming h]

theorem log_applyBatches {batches : List Batch}
    (h : ∀ batch ∈ batches, AreOverlays fallback batch.entries) : ∀ list : List Node,
    (applyBatches path list batches).log = notes fallback (editParts path list batches) := by
  induction batches with
  | nil => exact fun _ => rfl
  | cons batch rest ih =>
    intro list
    obtain ⟨hbatch, hrest⟩ := List.forall_mem_cons.mp h
    simp only [applyBatches, editParts, Logged.log_bind, log_applyBatch hbatch, notes_append]
    refine congrArg _ ?_
    cases (applyBatch path list batch).value with
    | ok list' => exact ih hrest list'
    | error problem => rfl

/-- A list that starts with a directive is its batches. -/
theorem cut_cons {first : Incoming} {directive : Except StructuralProblem Directive}
    (hfirst : Directive.ofNode? first.node = some directive) (items : List Incoming) :
    cut path (first :: items) = (batches path 0 (first :: items)).map Prod.snd := by
  rw [cut, hfirst]

/-- A list consists of batches if it can be cut and nothing stands before the first one. -/
theorem cut_eq_ok_iff {items : List Incoming} {list : List Batch} :
    cut path items = .ok list ↔ batches path 0 items = .ok ([], list) := by
  cases items with
  | nil => simp [cut, batches]
  | cons first items =>
    cases hfirst : Directive.ofNode? first.node with
    | none =>
      simp only [cut, batches, hfirst]
      cases batches path 1 items <;> simp [Except.map]
    | some directive =>
      rw [cut_cons hfirst]
      -- an edit leaves nothing before its own batch, and any other directive is refused
      simp only [batches, hfirst]
      split
      · cases batches path 1 items <;> simp [Except.map]
      · simp [Except.map]
      · simp [Except.map]
      · next hnone => cases hnone

theorem log_mergeEdits {first : Node} {edit : Edit}
    (hfirst : Directive.ofNode? first = some (.ok (.edit edit))) (base rest : List Node) :
    (mergeEdits path base (incoming fallback (first :: rest))).log =
      notes fallback (match batches path 0 (incoming fallback (first :: rest)) with
        | .error _ => []
        | .ok (_, list) => editParts path base list) := by
  have hcut : cut path (incoming fallback (first :: rest))
      = (batches path 0 (incoming fallback (first :: rest))).map Prod.snd := cut_cons hfirst _
  rw [mergeEdits, hcut]
  cases h : batches path 0 (incoming fallback (first :: rest)) with
  | error fault => rfl
  | ok parts =>
    exact log_applyBatches (forall_mem_batches (areOverlays_incoming (first :: rest)) h).2 base

/-- The notes of a list are those of its parts. -/
theorem log_mergeList (base nodes : List Node) :
    (mergeList fallback path base (incoming fallback nodes)).log
      = notes fallback (listParts fallback path base nodes) := by
  cases nodes with
  | nil => exact log_mergePlain base []
  | cons first rest =>
    simp only [incoming, mergeList, listParts]
    cases hdirective : Directive.ofNode? first with
    | none => exact log_mergePlain base (first :: rest)
    | some directive =>
      cases directive with
      | error problem => rfl
      | ok directive =>
        cases directive with
        | inline => rw [Logged.log_map, log_mergeInline]
        | replace => rw [Logged.log_map, log_adoptAll]
        | append => rw [Logged.log_map, log_adoptAll]
        | prepend => rw [Logged.log_map, log_adoptAll]
        | merge key => exact log_mergeByKey key base rest
        | edit edit => exact log_mergeEdits hdirective base rest

end Notes

/-! ## Lists by position -/

section Values

variable {fallback : Fallback} {path : Cursor}

/-- Every new item becomes an element of its own. -/
theorem value_adoptAll (nodes : List Node) : ∀ index : Nat,
    (Incoming.adoptAll path index (incoming fallback nodes)).value
      = (adoptedParts path index nodes).map fun b => (b.laid fallback).value := by
  induction nodes with
  | nil => exact fun _ => rfl
  | cons n nodes ih =>
    intro index
    rw [adoptedParts, List.map_cons, ← ih]
    rfl

/-- By position every item is laid over its own element, and the elements behind them stay. -/
theorem value_mergeInline (nodes : List Node) : ∀ (index : Nat) (base : List Node),
    (mergeInline path index base (incoming fallback nodes)).value
      = ((inlineParts path index base nodes).map fun b => (b.laid fallback).value) ++
        base.drop nodes.length := by
  induction nodes with
  | nil => exact fun _ base => by simp only [incoming, mergeInline]; rfl
  | cons n nodes ih =>
    intro index base
    cases base with
    | nil =>
      have hrest := ih (index + 1) []
      rw [List.drop_nil] at hrest ⊢
      simp only [incoming, mergeInline, Logged.value_bind, Logged.value_pure, hrest]
      rfl
    | cons slot base =>
      simp only [incoming, mergeInline, Logged.value_bind, Logged.value_pure, ih (index + 1) base]
      rfl

end Values

/-! ## Notes of branches -/

namespace Branch

variable {fallback : Fallback}

theorem log_infix_of_mem {b : Branch} {branches : List Branch} (h : b ∈ branches) :
    (b.laid fallback).log <:+: notes fallback branches := by
  obtain ⟨before, after, rfl⟩ := List.append_of_mem h
  rw [notes_append, notes_cons]
  exact ⟨notes fallback before, notes fallback after, by simp only [List.append_assoc]⟩

/-- The notes of a part are among those of its branch. -/
theorem infix_of_mem_parts {a b : Branch} (h : b ∈ a.parts fallback) :
    (b.laid fallback).log <:+: (a.laid fallback).log := by
  obtain ⟨node, slot, path⟩ := a
  refine (log_infix_of_mem h).trans ?_
  cases node with
  | scalar s => cases h
  | mapping es =>
    rw [laid, log_overlay_mapping, log_overlayEntries]
    exact (List.suffix_append _ _).isInfix
  | sequence nodes =>
    rw [laid, log_overlay_sequence, mergeOver, log_mergeList]
    exact List.infix_append' _ _ _

theorem log_laid_ofEntries (doc target : Entries Node) (path : Cursor) :
    ((ofEntries doc target path).laid fallback).log
      = (overlayEntries fallback doc target path).log := by
  show (overlay fallback (.mapping doc) (.mapping target) path).log = _
  rw [log_overlay_mapping]
  rfl

/-- **The notes of a branch are among those of the whole.** -/
theorem Within.infix {b whole : Branch} (h : b.Within fallback whole) :
    (b.laid fallback).log <:+: (whole.laid fallback).log := by
  induction h with
  | refl => exact List.infix_rfl
  | tail _ hpart ih => exact (infix_of_mem_parts hpart).trans ih

end Branch

end Laminate.Merge
