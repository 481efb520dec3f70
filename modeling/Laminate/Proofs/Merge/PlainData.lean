import Laminate.Proofs.Merge.FailedBranch
import Laminate.Proofs.Merge.Precedence

/-!
# Plain data

Nothing in a tree without directives can be refused by a merge (`Node.Plain.faultless`), so a single
plain document is always merged into some tree. A new list is built by laying its items over an
empty one, element after element: an item that has the name of an earlier item of the same list is
laid over that item. So the tree is the document itself if and only if in every list in which all
elements have a name the names are distinct (`documents_plain_iff`).
-/

namespace Laminate

open Merge

namespace Node

/-- Data only: no text in the tree is a call to `merge`, and no list in it starts with a
directive. -/
inductive Plain : Node → Prop
  | scalar {s : Scalar} (no_merge : isCall (.scalar s) "merge" = false) : Plain (.scalar s)
  | sequence {items : List Node}
      (first : ∀ n ∈ items.head?, ∀ name ∈ Directive.names, isCall n name = false)
      (items_plain : ∀ n ∈ items, Plain n) : Plain (.sequence items)
  | mapping {es : Entries Node} (values_plain : ∀ e ∈ es, Plain e.2) : Plain (.mapping es)

theorem Plain.items {items : List Node} : (Node.sequence items).Plain → ∀ n ∈ items, n.Plain
  | .sequence _ items_plain => items_plain

theorem Plain.values {es : Entries Node} : (Node.mapping es).Plain → ∀ e ∈ es, e.2.Plain
  | .mapping values_plain => values_plain

/-- The texts by which the elements of a list are matched under a key. -/
def keyTexts (key : String) (items : List Node) : List (Option String) :=
  items.map fun n => n.field? key

/-- In every list of the tree in which all elements have a name, the names are distinct. -/
inductive NamesDistinct : Node → Prop
  | scalar (s : Scalar) : NamesDistinct (.scalar s)
  | sequence {items : List Node}
      (names : allNamed items = true → (keyTexts defaultKey items).Nodup)
      (items_distinct : ∀ n ∈ items, NamesDistinct n) : NamesDistinct (.sequence items)
  | mapping {es : Entries Node} (values_distinct : ∀ e ∈ es, NamesDistinct e.2) :
      NamesDistinct (.mapping es)

end Node

namespace Merge

variable {fallback : Fallback} {path : Cursor} {key : String}

/-! ## The parts of plain branches -/

theorem ofNode?_eq_none {n : Node} (h : ∀ name ∈ Directive.names, isCall n name = false) :
    Directive.ofNode? n = none := by
  unfold Directive.ofNode?
  unfold isCall at h
  cases htext : n.string? with
  | none => rfl
  | some text =>
    simp only [htext, Call.isCallTo] at h
    cases hcall : Call.parse? text with
    | none => simp [hcall]
    | some call =>
      have hname : call.name ∉ Directive.names := fun hmem => by simpa [hcall] using h _ hmem
      simp [hcall, Directive.ofCall?, hname]

theorem map_node_entryParts (es : Entries Node) : ∀ base : Entries Node,
    (entryParts fallback path base es).map Branch.node = es.map Prod.snd := by
  induction es with
  | nil => exact fun _ => rfl
  | cons e es ih => exact fun base => congrArg (e.2 :: ·) (ih _)

theorem map_node_adoptedParts (nodes : List Node) : ∀ index : Nat,
    (adoptedParts path index nodes).map Branch.node = nodes := by
  induction nodes with
  | nil => exact fun _ => rfl
  | cons n nodes ih => exact fun index => congrArg (n :: ·) (ih _)

theorem map_node_inlineParts (nodes : List Node) : ∀ (index : Nat) (base : List Node),
    (inlineParts path index base nodes).map Branch.node = nodes := by
  induction nodes with
  | nil => exact fun _ _ => rfl
  | cons n nodes ih => exact fun index base => congrArg (n :: ·) (ih _ _)

theorem node_mem_of_mem_plainParts {base nodes : List Node} {b : Branch}
    (h : b ∈ plainParts fallback path base nodes) : b.node ∈ nodes := by
  unfold plainParts keyedParts at h
  split at h
  · split at h
    · cases h
    · exact node_mem_of_mem_matchedParts h
  · cases fallback with
    | inline => exact map_node_inlineParts nodes 0 base ▸ List.mem_map_of_mem h
    | append => exact map_node_adoptedParts nodes base.length ▸ List.mem_map_of_mem h

theorem mergeOver_of_plain {items : List Node} {base : Node} (h : (Node.sequence items).Plain) :
    mergeOver fallback items base path
      = mergePlain fallback path (base.items?.getD []) (incoming fallback items) := by
  cases h with
  | sequence first _ =>
    cases items with
    | nil => rfl
    | cons n items => simp only [mergeOver, incoming, mergeList, ofNode?_eq_none (first n rfl)]

/-! ## Nothing to refuse -/

theorem isMapping_of_field? {n : Node} (h : (n.field? key).isSome = true) : n.isMapping = true := by
  cases n with
  | mapping es => rfl
  | _ => cases h

theorem keyFault?_eq_none_iff {side : Side} {nodes : List Node} : ∀ {index : Nat},
    keyFault? side key path index nodes = none ↔ ∀ n ∈ nodes, (n.field? key).isSome = true := by
  induction nodes with
  | nil => exact fun {_} => iff_of_true rfl (List.forall_mem_nil _)
  | cons n nodes ih =>
    intro index
    have hrest : keyFault? side key path (index + 1) nodes = none ↔ _ := ih
    rw [keyFault?, List.forall_mem_cons, ← hrest]
    cases hname : n.field? key with
    | some name =>
      have hmapping : n.isMapping = true := isMapping_of_field? (Option.isSome_of_eq_some hname)
      simp [keyProblem?, hname, hmapping]
    | none =>
      have hproblem : (keyProblem? side key n).isSome = true := by
        unfold keyProblem?
        split
        · rw [hname]
          rfl
        · rfl
      obtain ⟨problem, hproblem⟩ := Option.isSome_iff_exists.mp hproblem
      simp [hproblem]

theorem keyFault?_of_allNamed {side : Side} {items : List Node} {index : Nat}
    (h : allNamed items = true) : keyFault? side defaultKey path index items = none :=
  keyFault?_eq_none_iff.mpr (List.all_eq_true.mp h)

/-- Without a directive a list can always be merged. -/
theorem exists_ok_mergePlain (fallback : Fallback) (path : Cursor) (base : List Node)
    (items : List Incoming) :
    ∃ merged, (mergePlain fallback path base items).value = .ok merged := by
  unfold mergePlain
  split
  · next h =>
    obtain ⟨hbase, hitems⟩ := Bool.and_eq_true_iff.mp h
    simp only [mergeByKey, keyFault?_of_allNamed hbase, keyFault?_of_allNamed hitems]
    exact ⟨_, rfl⟩
  · cases fallback <;> exact ⟨_, rfl⟩

/-- All notes are about overwritten calls. -/
def Faultless (log : List Note) : Prop :=
  ∀ note ∈ log, note.fault? = none

theorem faultless_overwrittenNotes (base : Node) (path : Cursor) :
    Faultless (overwrittenNotes base path) := by
  unfold overwrittenNotes
  split
  · exact List.forall_mem_singleton.mpr rfl
  · exact List.forall_mem_nil _

theorem faultless_notes {branches : List Branch}
    (h : ∀ b ∈ branches, Faultless (b.laid fallback).log) :
    Faultless (notes fallback branches) := by
  intro note hnote
  obtain ⟨b, hb, hmem⟩ := List.mem_flatMap.mp hnote
  exact h b hb note hmem

end Merge

/-- **Plain data has no faults, whatever it is laid over.** -/
theorem Node.Plain.faultless {fallback : Fallback} {n : Node} : n.Plain →
    ∀ (base : Node) (path : Cursor), Faultless (overlay fallback n base path).log := by
  induction n using Node.induction with
  | scalar s =>
    intro h base path
    cases h with
    | scalar no_merge =>
      simp only [overlay, no_merge, Logged.log_bind, log_noteOverwritten, Logged.log_pure,
        List.append_nil, Bool.false_eq_true, if_false]
      exact faultless_overwrittenNotes base path
  | sequence items ih =>
    intro h base path
    obtain ⟨merged, hmerged⟩ := exists_ok_mergePlain fallback path (base.items?.getD [])
      (incoming fallback items)
    rw [log_overlay_sequence, mergeOver_of_plain h, hmerged, List.append_nil, log_mergePlain]
    cases h with
    | sequence _ items_plain =>
      refine List.forall_mem_append.mpr ⟨faultless_overwrittenNotes base path,
        faultless_notes fun b hb => ?_⟩
      have hnode := node_mem_of_mem_plainParts hb
      exact ih b.node hnode (items_plain _ hnode) b.base b.path
  | mapping es ih =>
    intro h base path
    rw [log_overlay_mapping, log_overlayEntries]
    cases h with
    | mapping values_plain =>
      refine List.forall_mem_append.mpr ⟨faultless_overwrittenNotes base path,
        faultless_notes fun b hb => ?_⟩
      have hnode := map_node_entryParts es _ ▸ List.mem_map_of_mem hb
      obtain ⟨e, he, heq⟩ := List.mem_map.mp hnode
      rw [Branch.laid, ← heq]
      exact ih e he (values_plain e he) b.base b.path

namespace Merge

variable {fallback : Fallback} {path : Cursor} {key : String}

/-! ## Items that keep their names -/

/-- An incoming element that has a text under a key, and has it wherever it is laid. -/
structure Incoming.Keyed (key : String) (item : Incoming) : Prop where
  present : (item.node.field? key).isSome = true
  kept : ∀ base path, (item.layOver base path).value.field? key = item.node.field? key

/-- The texts that incoming elements have under a key. -/
def incomingTexts (key : String) (items : List Incoming) : List (Option String) :=
  Node.keyTexts key (items.map Incoming.node)

/-- A scalar that is not refused takes the place of what was there. -/
theorem value_overlay_scalar_of_faultless {s : Scalar} {base : Node}
    (h : Faultless (overlay fallback (.scalar s) base path).log) :
    (overlay fallback (.scalar s) base path).value = .scalar s := by
  cases hcall : isCall (.scalar s) "merge" with
  | false => simp [overlay, hcall]
  | true =>
    simp only [overlay, hcall, if_true] at h
    cases h _ List.mem_cons_self

/-- Where nothing is refused, what has a text under a key keeps it wherever it is laid. -/
theorem field?_overlay_of_faultless {n base : Node} (hwf : n.WellFormed)
    (h : (n.field? key).isSome = true) (hfaultless : Faultless (overlay fallback n base path).log) :
    (overlay fallback n base path).value.field? key = n.field? key := by
  cases n with
  | mapping es =>
    cases hget : Entries.get? es key with
    | none => simp [Node.field?, Node.get?, hget] at h
    | some m =>
      have hmem := Entries.mem_of_get? hget
      let whole : Branch := ⟨.mapping es, some base, path⟩
      have hpart : ⟨m, Entries.get? (base.entries?.getD []) key, path.child key⟩
          ∈ whole.parts fallback := mem_entryParts fallback path hwf.nodup hmem _
      have hfaultless' := fun note hnote =>
        hfaultless note ((Branch.infix_of_mem_parts hpart).subset hnote)
      have hvalue := get?_overlayEntries_of_mem fallback path hwf.nodup hmem
        (base.entries?.getD [])
      rw [value_overlay_mapping]
      simp only [Node.field?, Node.get?, hvalue, hget, Option.bind_some] at h ⊢
      cases m with
      | scalar s => exact congrArg Node.text? (value_overlay_scalar_of_faultless hfaultless')
      | _ => cases h
  | _ => cases h

theorem keyed_incoming {items : List Node} (hwf : ∀ n ∈ items, n.WellFormed)
    (hplain : ∀ n ∈ items, n.Plain) (h : ∀ n ∈ items, (n.field? key).isSome = true) :
    ∀ item ∈ incoming fallback items, item.Keyed key := by
  rw [incoming_eq_map]
  intro item hitem
  obtain ⟨n, hn, rfl⟩ := List.mem_map.mp hitem
  exact ⟨h n hn, fun base path =>
    field?_overlay_of_faultless (hwf n hn) (h n hn) ((hplain n hn).faultless base path)⟩

theorem position?_eq_none_iff {list : List Node} {name : String} :
    position? list key name = none ↔ some name ∉ Node.keyTexts key list := by
  simp [position?, Node.keyTexts]

theorem field?_eq_of_position? {list : List Node} {name : String} {i : Nat}
    (h : position? list key name = some i) :
    ∃ hi : i < list.length, list[i].field? key = some name := by
  obtain ⟨hi, hfound, -⟩ := List.findIdx?_eq_some_iff_getElem.mp h
  exact ⟨hi, by simpa using hfound⟩

theorem keyTexts_append_singleton {base : List Node} {merged : Node} {text : Option String}
    (hkept : merged.field? key = text) :
    Node.keyTexts key (base ++ [merged]) = Node.keyTexts key base ++ [text] := by
  rw [Node.keyTexts, List.map_append, List.map_singleton, hkept]
  rfl

/-- An element that is merged in its place keeps all key texts. -/
theorem keyTexts_set {base : List Node} {merged : Node} {i : Nat} (hi : i < base.length)
    (hkept : merged.field? key = base[i].field? key) :
    Node.keyTexts key (base.set i merged) = Node.keyTexts key base := by
  unfold Node.keyTexts
  rw [List.map_set, hkept, ← List.map_set, List.set_getElem_self]

/-- Items with distinct names that are not in the list yet are all added at its end. -/
theorem layByKey_eq_adoptAll (path : Cursor) {items : List Incoming}
    (hkeyed : ∀ item ∈ items, item.Keyed key) : ∀ result : List Node,
    (Node.keyTexts key result ++ incomingTexts key items).Nodup →
    (layByKey key path result items).value
      = result ++ (Incoming.adoptAll path result.length items).value ∧
    (layByKey key path result items).log = (Incoming.adoptAll path result.length items).log := by
  induction items with
  | nil => exact fun _ _ => ⟨(List.append_nil _).symm, rfl⟩
  | cons item items ih =>
    intro result hnodup
    obtain ⟨hitem, hitems⟩ := List.forall_mem_cons.mp hkeyed
    obtain ⟨name, hname⟩ := Option.isSome_iff_exists.mp hitem.present
    have htexts : incomingTexts key (item :: items) = some name :: incomingTexts key items :=
      congrArg (· :: _) hname
    rw [htexts] at hnodup
    have hnew : position? result key name = none := position?_eq_none_iff.mpr fun hmem =>
      (List.nodup_append.mp hnodup).2.2 _ hmem _ List.mem_cons_self rfl
    -- what is added keeps its name, so it is as good as the item for those that follow
    let adopted := (item.adopt (path.child (Numeral.text result.length))).value
    have hadopted : Node.keyTexts key (result ++ [adopted])
        = Node.keyTexts key result ++ [some name] :=
      keyTexts_append_singleton ((hitem.kept _ _).trans hname)
    obtain ⟨hvalue, hlog⟩ := ih hitems (result ++ [adopted]) (by
      rwa [hadopted, List.append_assoc, List.singleton_append])
    rw [List.length_append, List.length_singleton] at hvalue hlog
    simp only [layByKey, hname, Option.getD_some, hnew, Incoming.adoptAll, Logged.value_bind,
      Logged.log_bind, Logged.value_pure, Logged.log_pure, List.append_nil]
    refine ⟨hvalue.trans ?_, congrArg _ hlog⟩
    rw [List.append_assoc, List.singleton_append]

/-- Whatever the names of the items, those of the list stay distinct. -/
theorem nodup_keyTexts_layByKey {items : List Incoming}
    (hkeyed : ∀ item ∈ items, item.Keyed key) : ∀ {result : List Node},
    (Node.keyTexts key result).Nodup →
    (Node.keyTexts key (layByKey key path result items).value).Nodup := by
  induction items with
  | nil => exact fun h => h
  | cons item items ih =>
    intro result hnodup
    obtain ⟨hitem, hitems⟩ := List.forall_mem_cons.mp hkeyed
    obtain ⟨name, hname⟩ := Option.isSome_iff_exists.mp hitem.present
    simp only [layByKey, hname, Option.getD_some]
    cases hposition : position? result key name with
    | some i =>
      obtain ⟨hi, hfound⟩ := field?_eq_of_position? hposition
      refine ih hitems ?_
      -- the element and what takes its place have the same name
      have hsame : Node.keyTexts key
            (result.set i (item.layOver result[i] (path.child (Numeral.text i))).value)
          = Node.keyTexts key result :=
        keyTexts_set hi ((hitem.kept _ _).trans (hname.trans hfound.symm))
      rwa [List.getElem?_eq_getElem hi, Option.getD_some, hsame]
    | none =>
      refine ih hitems ?_
      have hnew := position?_eq_none_iff.mp hposition
      have htexts : Node.keyTexts key
            (result ++ [(item.adopt (path.child (Numeral.text result.length))).value])
          = Node.keyTexts key result ++ [some name] :=
        keyTexts_append_singleton ((hitem.kept _ _).trans hname)
      rw [htexts]
      exact List.nodup_append.mpr ⟨hnodup, List.pairwise_singleton _ _, fun a ha b hb heq =>
        hnew (List.mem_singleton.mp hb ▸ heq ▸ ha)⟩

/-! ## New lists -/

theorem mergeInline_nil (items : List Incoming) : ∀ index : Nat,
    mergeInline path index [] items = Incoming.adoptAll path index items := by
  induction items with
  | nil => exact fun _ => by simp only [mergeInline, Incoming.adoptAll]
  | cons item items ih => exact fun index => by simp only [mergeInline, Incoming.adoptAll, ih]

/-- A new list whose elements can be told apart by their names, or not by names at all, consists of
its items one by one. -/
theorem mergePlain_nil {items : List Incoming}
    (hkeyed : allNamed (items.map Incoming.node) = true →
      ∀ item ∈ items, item.Keyed defaultKey)
    (hnodup : allNamed (items.map Incoming.node) = true →
      (incomingTexts defaultKey items).Nodup) :
    (mergePlain fallback path [] items).value = .ok (Incoming.adoptAll path 0 items).value ∧
    (mergePlain fallback path [] items).log = (Incoming.adoptAll path 0 items).log := by
  unfold mergePlain
  split
  · next h =>
    have hnamed : allNamed (items.map Incoming.node) = true := h
    obtain ⟨hvalue, hlog⟩ := layByKey_eq_adoptAll path (hkeyed hnamed) [] (hnodup hnamed)
    simp only [mergeByKey, keyFault?, keyFault?_of_allNamed hnamed, Option.or_none,
      Logged.value_map, Logged.log_map]
    exact ⟨congrArg Except.ok hvalue, hlog⟩
  · cases fallback with
    | inline => simp only [mergeInline_nil, Logged.value_map, Logged.log_map, and_self]
    | append => exact ⟨rfl, Logged.log_map _ _⟩

theorem adoptAll_of_kept {items : List Node}
    (h : ∀ n ∈ items, ∀ path, overlay fallback n .null path = pure n) : ∀ index : Nat,
    Incoming.adoptAll path index (incoming fallback items) = pure items := by
  induction items with
  | nil => exact fun _ => rfl
  | cons n items ih =>
    intro index
    obtain ⟨hn, hitems⟩ := List.forall_mem_cons.mp h
    simp only [incoming, Incoming.adoptAll, Incoming.adopt, hn, ih hitems]
    rfl

theorem forall_kept_of_adoptAll {items : List Node} : ∀ {index : Nat},
    (Incoming.adoptAll path index (incoming fallback items)).value = items →
    ∀ n ∈ items, ∃ path, (overlay fallback n .null path).value = n := by
  induction items with
  | nil => exact fun _ => List.forall_mem_nil _
  | cons n items ih =>
    intro index h
    obtain ⟨hn, hitems⟩ := List.cons.inj h
    exact List.forall_mem_cons.mpr ⟨⟨_, hn⟩, ih hitems⟩

variable (path) in
theorem overlayEntries_of_new {es : Entries Node}
    (h : ∀ e ∈ es, ∀ path, overlay fallback e.2 .null path = pure e.2) :
    ∀ base : Entries Node, (Entries.keys (base ++ es)).Nodup →
    overlayEntries fallback es base path = pure (base ++ es) := by
  induction es with
  | nil => exact fun _ _ => by rw [List.append_nil]; rfl
  | cons e es ih =>
    intro base hnodup
    obtain ⟨he, hes⟩ := List.forall_mem_cons.mp h
    have hnew : e.1 ∉ Entries.keys base := by
      unfold Entries.keys at hnodup ⊢
      rw [List.map_append, List.map_cons] at hnodup
      exact fun hmem => (List.nodup_append.mp hnodup).2.2 _ hmem _ List.mem_cons_self rfl
    have hrest := ih hes (base ++ [e]) (by rwa [List.append_assoc, List.singleton_append])
    rw [List.append_assoc, List.singleton_append] at hrest
    simp only [overlayEntries, (Entries.get?_eq_none_iff base e.1).mpr hnew, Option.getD_none, he]
    rw [← hrest, ← Entries.insert_of_notMem hnew]
    rfl

variable (fallback path) in
/-- A new list of plain data consists of its items one by one if its elements have distinct names,
or not all of them have a name. -/
theorem mergeOver_null {items : List Node} (hwf : (Node.sequence items).WellFormed)
    (hplain : (Node.sequence items).Plain)
    (hnodup : allNamed items = true → (Node.keyTexts defaultKey items).Nodup) :
    (mergeOver fallback items .null path).value
      = .ok (Incoming.adoptAll path 0 (incoming fallback items)).value ∧
    (mergeOver fallback items .null path).log
      = (Incoming.adoptAll path 0 (incoming fallback items)).log := by
  rw [mergeOver_of_plain hplain]
  refine mergePlain_nil (fun hnamed => ?_) ?_
  · rw [map_node_incoming] at hnamed
    exact keyed_incoming hwf.items hplain.items (List.all_eq_true.mp hnamed)
  · rwa [incomingTexts, map_node_incoming]

theorem nodup_keyTexts_of_mergeOver_null {items merged : List Node}
    (hwf : (Node.sequence items).WellFormed) (hplain : (Node.sequence items).Plain)
    (hnamed : allNamed items = true)
    (h : (mergeOver fallback items .null path).value = .ok merged) :
    (Node.keyTexts defaultKey merged).Nodup := by
  have hbase : allNamed [] = true := rfl
  rw [mergeOver_of_plain hplain] at h
  simp only [mergePlain, mergeByKey, Node.items?, Option.getD_none, map_node_incoming, hnamed,
    hbase, keyFault?, keyFault?_of_allNamed hnamed, Bool.and_self, Option.or_none, if_true,
    Logged.value_map] at h
  cases h
  exact nodup_keyTexts_layByKey
    (keyed_incoming hwf.items hplain.items (List.all_eq_true.mp hnamed)) List.nodup_nil

end Merge

/-! ## One document -/

namespace Node

variable {fallback : Fallback} {n : Node} {path : Cursor}

/-- Plain data in which names are distinct is laid over nothing as it is. -/
theorem NamesDistinct.overlay_null (h : n.NamesDistinct) : n.WellFormed → n.Plain →
    ∀ path, overlay fallback n .null path = pure n := by
  induction n using Node.induction with
  | scalar s =>
    rintro - ⟨no_merge⟩ path
    simp only [overlay, no_merge]
    rfl
  | sequence items ih =>
    intro hwf hplain path
    cases h with
    | sequence names items_distinct =>
      have hkept : ∀ n ∈ items, ∀ path, overlay fallback n .null path = pure n := fun n hn =>
        ih n hn (items_distinct n hn) (hwf.items n hn) (hplain.items n hn)
      obtain ⟨hvalue, hlog⟩ := mergeOver_null fallback path hwf hplain names
      rw [adoptAll_of_kept hkept] at hvalue hlog
      refine Logged.eq_pure ?_ ?_
      · rw [value_overlay_sequence, hvalue]
        rfl
      · rw [log_overlay_sequence, hvalue, hlog]
        rfl
  | mapping es ih =>
    intro hwf hplain path
    cases h with
    | mapping values_distinct =>
      have hkept : ∀ e ∈ es, ∀ path, overlay fallback e.2 .null path = pure e.2 := fun e he =>
        ih e he (values_distinct e he) (hwf.values e he) (hplain.values e he)
      have hentries := overlayEntries_of_new path hkept [] hwf.nodup
      refine Logged.eq_pure ?_ ?_
      · rw [value_overlay_mapping]
        exact congrArg (fun merged => Node.mapping merged.value) hentries
      · rw [log_overlay_mapping]
        exact congrArg Logged.log hentries

/-- In plain data that is laid over nothing as it is, names are distinct. -/
theorem namesDistinct_of_overlay_null : n.WellFormed → n.Plain → ∀ path,
    (overlay fallback n .null path).value = n → n.NamesDistinct := by
  induction n using Node.induction with
  | scalar s => exact fun _ _ _ _ => .scalar s
  | sequence items ih =>
    intro hwf hplain path h
    obtain ⟨merged, hmerged⟩ := exists_ok_mergePlain fallback path (Node.null.items?.getD [])
      (incoming fallback items)
    rw [← mergeOver_of_plain hplain] at hmerged
    rw [value_overlay_sequence, hmerged] at h
    cases Node.sequence.inj h
    have hnames : allNamed items = true → (keyTexts defaultKey items).Nodup := fun hnamed =>
      nodup_keyTexts_of_mergeOver_null hwf hplain hnamed hmerged
    -- the names are distinct, so no item has been laid over another one
    rw [(mergeOver_null fallback path hwf hplain hnames).1] at hmerged
    refine .sequence hnames fun n hn => ?_
    obtain ⟨path', hkept⟩ := forall_kept_of_adoptAll (Except.ok.inj hmerged) n hn
    exact ih n hn (hwf.items n hn) (hplain.items n hn) path' hkept
  | mapping es ih =>
    intro hwf hplain path h
    rw [value_overlay_mapping] at h
    refine .mapping fun e he => ih e he (hwf.values e he) (hplain.values e he)
      (path.child e.1) ?_
    have hvalue := get?_overlayEntries_of_mem fallback path hwf.nodup he []
    rw [show (overlayEntries fallback es [] path).value = es from Node.mapping.inj h,
      Entries.get?_of_mem hwf.nodup he] at hvalue
    exact (Option.some.inj hvalue).symm

end Node

namespace Merge

/-- **A document of plain data is always merged into a tree, and comes out as it is, with nothing
recorded, if and only if names are distinct in it.** -/
theorem documents_plain_iff (fallback : Fallback) {es : Entries Node}
    (hwf : (Node.mapping es).WellFormed) (hplain : (Node.mapping es).Plain) (context : Context) :
    (∃ tree, (documents fallback [.mapping es] context).1 = .ok tree) ∧
    (documents fallback [.mapping es] context = (.ok (.mapping es), context) ↔
      (Node.mapping es).NamesDistinct) := by
  have hlog : (overlay fallback (.mapping es) .null .root).log
      = (overlayEntries fallback es [] .root).log := log_overlay_mapping es
  have htree : (documents fallback [.mapping es] context).1
      = .ok (overlay fallback (.mapping es) .null .root).value := by
    simp only [documents, Stack.layerAll, Stack.layer, Stack.finish, ← hlog]
    rw [List.filterMap_eq_nil_iff.mpr (hplain.faultless .null .root)]
    rfl
  refine ⟨⟨_, htree⟩, fun h => ?_, fun h => ?_⟩
  · rw [h] at htree
    exact Node.namesDistinct_of_overlay_null hwf hplain .root (Except.ok.inj htree).symm
  · have hkept : overlay fallback (.mapping es) .null .root = pure (.mapping es) :=
      h.overlay_null hwf hplain .root
    refine Prod.ext (htree.trans ?_) ?_
    · rw [hkept]
      rfl
    · simp only [documents, Stack.layerAll, Stack.layer, ← hlog, hkept]
      rfl

/-- A list of two elements with the given names. -/
def namedPair (first second : String) : Entries Node :=
  [("list", .sequence
    [.mapping [("name", .string first), ("a", .integer 1)],
      .mapping [("name", .string second), ("b", .integer 2)]])]

theorem plain_namedPair {first second : String} (hfirst : isCall (.string first) "merge" = false)
    (hsecond : isCall (.string second) "merge" = false) :
    (Node.mapping (namedPair first second)).Plain := by
  refine .mapping (List.forall_mem_singleton.mpr (.sequence ?_ (List.forall_mem_cons.mpr
    ⟨.mapping ?_, List.forall_mem_singleton.mpr (.mapping ?_)⟩)))
  · rintro n ⟨⟩ name -
    rfl
  · exact List.forall_mem_cons.mpr ⟨.scalar hfirst, List.forall_mem_singleton.mpr (.scalar rfl)⟩
  · exact List.forall_mem_cons.mpr ⟨.scalar hsecond, List.forall_mem_singleton.mpr (.scalar rfl)⟩

theorem plain_pair_kept :
    documents .append [.mapping (namedPair "x" "y")] {}
      = (.ok (.mapping (namedPair "x" "y")), {}) := by
  refine (documents_plain_iff .append (by decide) (plain_namedPair rfl rfl) {}).2.mpr ?_
  refine .mapping (List.forall_mem_singleton.mpr (.sequence (fun _ => by decide)
    (List.forall_mem_cons.mpr ⟨.mapping ?_, List.forall_mem_singleton.mpr (.mapping ?_)⟩)))
  all_goals
    exact List.forall_mem_cons.mpr ⟨.scalar _, List.forall_mem_singleton.mpr (.scalar _)⟩

/-- An element that has the name of an earlier element of its list is laid over that element. -/
theorem plain_pair_collapsed :
    (Node.mapping (namedPair "x" "x")).Plain ∧
    (documents .inline [.mapping (namedPair "x" "x")] {}).1 = .ok (.mapping [("list", .sequence
      [.mapping [("name", .string "x"), ("a", .integer 1), ("b", .integer 2)]])]) ∧
    (documents .inline [.mapping (namedPair "x" "x")] {}).1
      ≠ .ok (.mapping (namedPair "x" "x")) :=
  ⟨plain_namedPair rfl rfl, rfl, nofun⟩

end Merge

end Laminate
