import Laminate.Proofs.Merge.Frame
import Laminate.Proofs.Node.WellFormed

/-!
# Later documents win

What keys lead to in a document is laid over what the same keys lead to in the tree
(`Branch.exists_within_of_atKeys?`). So after the last document the tree has the scalars of that
document; where the document has a mapping without some key, all below the key is as it was before;
and keys that were there stay in their order, before the new ones (`later_document_wins`).
-/

namespace Laminate

/-! ## Paths of keys -/

namespace Node

/-- What keys lead to, from mapping to mapping. -/
def atKeys? : Node → List String → Option Node
  | n, [] => some n
  | n, k :: keys => (n.get? k).bind fun child => child.atKeys? keys

theorem atKeys?_append (n : Node) (keys rest : List String) :
    n.atKeys? (keys ++ rest) = (n.atKeys? keys).bind fun m => m.atKeys? rest := by
  induction keys generalizing n with
  | nil => rfl
  | cons k keys ih =>
    rw [List.cons_append, atKeys?, atKeys?]
    cases n.get? k with
    | none => rfl
    | some child => exact ih child

theorem WellFormed.atKeys? : ∀ {keys : List String} {n m : Node}, n.WellFormed →
    n.atKeys? keys = some m → m.WellFormed
  | [], _, _, hwf, h => by
    cases h
    exact hwf
  | k :: keys, n, m, hwf, h => by
    obtain ⟨child, hget, hchild⟩ := Option.bind_eq_some_iff.mp h
    cases n with
    | mapping es => exact (hwf.values _ (Entries.mem_of_get? hget)).atKeys? hchild
    | _ => cases hget

theorem get?_entries?_getD (n : Node) (key : String) :
    Entries.get? (n.entries?.getD []) key = n.get? key := by
  cases n <;> rfl

end Node

namespace Merge

variable {fallback : Fallback} {path : Cursor}

/-! ## The part of a branch that keys lead to -/

theorem mem_entryParts (fallback : Fallback) (path : Cursor) {es : Entries Node}
    (hnodup : (Entries.keys es).Nodup) {key : String} {n : Node} (h : (key, n) ∈ es) :
    ∀ base : Entries Node,
    ⟨n, Entries.get? base key, path.child key⟩ ∈ entryParts fallback path base es := by
  induction es with
  | nil => cases h
  | cons e es ih =>
    intro base
    obtain ⟨hnot, hes⟩ := List.nodup_cons.mp hnodup
    rcases List.mem_cons.mp h with rfl | hrest
    · exact List.mem_cons_self
    · have hne : ¬e.1 = key := fun heq => hnot (heq ▸ List.mem_map_of_mem hrest)
      -- the first entry leaves the value under the key as it was
      have hbase := ih hes hrest
        (Entries.insert base e.1 (overlay fallback e.2 ((Entries.get? base e.1).getD .null)
          (path.child e.1)).value)
      rw [Entries.get?_insert, if_neg hne] at hbase
      exact List.mem_cons_of_mem _ hbase

/-- **What keys lead to in a branch is a branch within it, over what they lead to in the slot, and
its laying is what they lead to in the end.** -/
theorem Branch.exists_within_of_atKeys? : ∀ (whole : Branch) {keys : List String} {m : Node},
    whole.node.WellFormed → whole.node.atKeys? keys = some m →
    ∃ b : Branch, b.Within fallback whole ∧ b.node = m ∧
      b.slot = whole.slot.bind (fun n => n.atKeys? keys) ∧
      (whole.laid fallback).value.atKeys? keys = some (b.laid fallback).value
  | whole, [], m, _, h => by
    cases h
    exact ⟨whole, .refl, rfl, (Option.bind_fun_some whole.slot).symm, rfl⟩
  | ⟨node, slot, path⟩, k :: keys, m, hwf, h => by
    obtain ⟨child, hget, hchild⟩ := Option.bind_eq_some_iff.mp h
    cases node with
    | mapping es =>
      have hmem : (k, child) ∈ es := Entries.mem_of_get? hget
      let base : Node := slot.getD .null
      let part : Branch := ⟨child, base.get? k, path.child k⟩
      have hpart : part ∈ (Branch.mk (.mapping es) slot path).parts fallback := by
        have hparts := mem_entryParts fallback path hwf.nodup hmem
          (base.entries?.getD [])
        rw [Node.get?_entries?_getD] at hparts
        exact hparts
      obtain ⟨b, hwithin, hnode, hslot, hvalue⟩ :=
        exists_within_of_atKeys? part (hwf.values _ hmem) hchild
      refine ⟨b, .head hpart hwithin, hnode, ?_, ?_⟩
      · rw [hslot]
        cases slot <;> rfl
      · have hlaid : ((Branch.mk (.mapping es) slot path).laid fallback).value.get? k
            = some (part.laid fallback).value := by
          have hentry := get?_overlayEntries_of_mem fallback path hwf.nodup hmem
            (base.entries?.getD [])
          rw [Node.get?_entries?_getD] at hentry
          exact hentry
        rw [Node.atKeys?, hlaid]
        exact hvalue
    | _ => cases hget

/-! ## One document -/

theorem keys_overlayEntries {es : Entries Node} (h : (Entries.keys es).Nodup) :
    ∀ base : Entries Node, Entries.keys (overlayEntries fallback es base path).value
      = Entries.keys base ++ (Entries.keys es).filter fun k => k ∉ Entries.keys base := by
  induction es with
  | nil => exact fun base => (List.append_nil _).symm
  | cons e es ih =>
    intro base
    obtain ⟨hnot, hes⟩ := List.nodup_cons.mp h
    rw [value_overlayEntries_cons, ih hes, Entries.keys_insert,
      show Entries.keys (e :: es) = e.1 :: Entries.keys es from rfl, List.filter_cons]
    by_cases hmem : e.1 ∈ Entries.keys base
    · simp only [hmem, if_true, not_true_eq_false, decide_false, Bool.false_eq_true, if_false]
    · -- the key is new now, and does not come again
      have hrest : ((Entries.keys es).filter fun k => k ∉ Entries.keys base ++ [e.1])
          = (Entries.keys es).filter fun k => k ∉ Entries.keys base := by
        refine List.filter_congr fun k hk => ?_
        have hne : k ≠ e.1 := fun heq => hnot (heq ▸ hk)
        simp [hne]
      simp only [hmem, if_false, not_false_eq_true, decide_true, if_true, hrest,
        List.append_assoc, List.singleton_append]

/-- A document laid over a tree wins over it and touches nothing else. -/
structure Overrides (base doc merged : Node) : Prop where
  /-- The scalars of the document are in the result. -/
  scalars : ∀ keys s, doc.atKeys? keys = some (.scalar s) →
    merged.atKeys? keys = some (.scalar s)
  /-- Below a key that a mapping of the document lacks everything is as it was. -/
  untouched : ∀ keys es key rest, doc.atKeys? keys = some (.mapping es) →
    key ∉ Entries.keys es →
    merged.atKeys? (keys ++ key :: rest) = base.atKeys? (keys ++ key :: rest)
  /-- Keys stay in their order, and new ones follow in the order of the document. -/
  order : ∀ keys es bs, doc.atKeys? keys = some (.mapping es) →
    base.atKeys? keys = some (.mapping bs) → ∃ ms, merged.atKeys? keys = some (.mapping ms) ∧
      Entries.keys ms
        = Entries.keys bs ++ (Entries.keys es).filter fun k => k ∉ Entries.keys bs

variable {doc target : Entries Node}

/-- **A document that is laid over a tree without faults overrides it.** -/
theorem overrides_overlayEntries (hwf : (Node.mapping doc).WellFormed)
    (hfaultless : (overlayEntries fallback doc target .root).log.filterMap Note.fault? = []) :
    Overrides (.mapping target) (.mapping doc)
      (.mapping (overlayEntries fallback doc target .root).value) := by
  -- the whole merge is one branch, and what keys lead to is a branch within it
  have hpart : ∀ {keys : List String} {m : Node}, (Node.mapping doc).atKeys? keys = some m →
      ∃ b : Branch, b.Within fallback (.ofEntries doc target .root) ∧ b.node = m ∧
        b.slot = (Node.mapping target).atKeys? keys ∧
        (Node.mapping (overlayEntries fallback doc target .root).value).atKeys? keys
          = some (b.laid fallback).value := fun h =>
    Branch.exists_within_of_atKeys? (.ofEntries doc target .root) hwf h
  refine ⟨fun keys s h => ?_, fun keys es key rest h hkey => ?_, fun keys es bs h hbase => ?_⟩
  · obtain ⟨⟨_, slot, here⟩, hwithin, rfl, -, hvalue⟩ := hpart h
    rw [hvalue]
    have hnotes := hwithin.infix
    rw [Branch.log_laid_ofEntries] at hnotes
    cases hcall : isCall (.scalar s) "merge" with
    | false =>
      simp only [Branch.laid, overlay, hcall]
      rfl
    | true =>
      -- a call to `merge` out of place would have been a fault
      have hnote : Note.fault (.structural here.qualified .misplacedMerge)
          ∈ ((Branch.mk (.scalar s) slot here).laid fallback).log := by
        simp only [Branch.laid, overlay, hcall, if_true]
        exact List.mem_cons_self
      have hnone := List.filterMap_eq_nil_iff.mp hfaultless _ (hnotes.subset hnote)
      cases hnone
  · obtain ⟨⟨_, slot, here⟩, -, rfl, hslot, hvalue⟩ := hpart h
    have hget : ((Branch.mk (.mapping es) slot here).laid fallback).value.get? key
        = (slot.getD .null).get? key :=
      (get?_overlayEntries hkey _).trans (Node.get?_entries?_getD _ key)
    rw [Node.atKeys?_append, Node.atKeys?_append, hvalue, ← hslot, Option.bind_some, Node.atKeys?,
      hget]
    cases slot <;> rfl
  · obtain ⟨⟨_, slot, here⟩, -, rfl, hslot, hvalue⟩ := hpart h
    have hes : (Node.mapping es).WellFormed := hwf.atKeys? h
    cases hslot.trans hbase
    exact ⟨_, hvalue, keys_overlayEntries hes.nodup bs⟩

/-! ## Several documents -/

namespace Stack

variable {r : Node}

/-- The last document is laid over what the documents before it give. -/
theorem exists_of_layerAll_append {last : Node} {docs : List Node} :
    ∀ {stack : Stack} {number : Nat},
    (stack.layerAll fallback number (docs ++ [last])).1 = .ok r →
    ∃ (doc : Entries Node) (before : Stack), last = .mapping doc ∧
      (stack.layerAll fallback number docs).1 = before.finish ∧
      (before.layer fallback doc).finish = .ok r := by
  induction docs with
  | nil =>
    intro stack number h
    cases last with
    | mapping doc => exact ⟨doc, stack, rfl, rfl, h⟩
    | _ => cases h
  | cons doc docs ih =>
    intro stack number h
    cases doc with
    | mapping es => exact ih h
    | _ => cases h

end Stack

/-- **If documents can be merged, so can those before the last one, and the last document wins over
the tree that they give and touches nothing else.** -/
theorem later_document_wins (fallback : Fallback) {docs : List Node} (hne : docs ≠ [])
    (hwf : (docs.getLast hne).WellFormed) (context : Context) {r : Node}
    (h : (documents fallback docs context).1 = .ok r) :
    ∃ r₀, (documents fallback docs.dropLast context).1 = .ok r₀ ∧
      Overrides r₀ (docs.getLast hne) r := by
  rw [documents, ← List.dropLast_concat_getLast hne] at h
  obtain ⟨doc, before, hlast, hbefore, hlayer⟩ := Stack.exists_of_layerAll_append h
  rw [hlast] at hwf ⊢
  obtain ⟨hfaults, rfl⟩ := Stack.finish_eq_ok.mp hlayer
  obtain ⟨hearlier, hfaultless⟩ := List.append_eq_nil_iff.mp hfaults
  refine ⟨.mapping before.tree, ?_, overrides_overlayEntries hwf hfaultless⟩
  exact hbefore.trans (Stack.finish_eq_ok.mpr ⟨hearlier, rfl⟩)

/-- Documents in which a mapping takes the place of a text, a text that of a list, and keys come in
another order. -/
def layeredDocuments : List Node :=
  [.mapping [("meta", .mapping [("a", .integer 1), ("b", .sequence [.integer 2])]),
      ("kept", .mapping [("deep", .integer 7)]), ("text", .string "x")],
    .mapping [("text", .string "y"), ("new", .mapping [("c", .integer 3)])],
    .mapping [("text", .mapping [("d", .integer 4)]), ("later", .integer 5),
      ("meta", .mapping [("c", .integer 6), ("b", .string "(( prune ))")])]]

/-- The tree that these documents give. -/
def layeredTree : Node :=
  .mapping [("meta", .mapping [("a", .integer 1), ("b", .string "(( prune ))"), ("c", .integer 6)]),
    ("kept", .mapping [("deep", .integer 7)]), ("text", .mapping [("d", .integer 4)]),
    ("new", .mapping [("c", .integer 3)]), ("later", .integer 5)]

theorem later_document_wins_over_two :
    (documents .inline layeredDocuments {}).1 = .ok layeredTree ∧
    ∃ r₀, (documents .inline layeredDocuments.dropLast {}).1 = .ok r₀ ∧
      Overrides r₀ (layeredDocuments.getLast (List.cons_ne_nil _ _)) layeredTree :=
  ⟨rfl, later_document_wins .inline (List.cons_ne_nil _ _) (by decide) {} rfl⟩

end Merge

end Laminate
