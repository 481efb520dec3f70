import Laminate.Node.Basic
import Laminate.Proofs.Agreement

/-!
# Trees with their keys in another order

A tree is reordered by giving the keys of its mappings another order, at any depth. For trees with
distinct keys this is the equality that ignores the order of keys (`reordered_iff_same`), and
nothing that is read off a tree but the order itself tells reordered trees apart.
-/

namespace Laminate.Node

/-- The second tree is the first one with the keys of its mappings in another order. -/
inductive Reordered : Node → Node → Prop
  | scalar (s : Scalar) : Reordered (.scalar s) (.scalar s)
  | sequence {items items' : List Node} (pairs : List.Forall₂ Reordered items items') :
      Reordered (.sequence items) (.sequence items')
  | mapping {es es' : Entries Node} (nodup : (Entries.keys es).Nodup)
      (keys_perm : (Entries.keys es).Perm (Entries.keys es'))
      (values : ∀ key n n', Entries.get? es key = some n → Entries.get? es' key = some n' →
        Reordered n n') : Reordered (.mapping es) (.mapping es')

namespace Reordered

variable {n n' : Node} {items items' : List Node} {es es' : Entries Node}

/-! ## Parts -/

theorem pairs : (Node.sequence items).Reordered (.sequence items') →
    List.Forall₂ Reordered items items'
  | .sequence pairs => pairs

theorem nodup : (Node.mapping es).Reordered (.mapping es') → (Entries.keys es).Nodup
  | .mapping nodup _ _ => nodup

theorem keys_perm : (Node.mapping es).Reordered (.mapping es') →
    (Entries.keys es).Perm (Entries.keys es')
  | .mapping _ keys_perm _ => keys_perm

theorem nodup' (h : (Node.mapping es).Reordered (.mapping es')) : (Entries.keys es').Nodup :=
  h.keys_perm.nodup_iff.mp h.nodup

theorem get?_entries (h : (Node.mapping es).Reordered (.mapping es')) (key : String) :
    Option.Rel Reordered (Entries.get? es key) (Entries.get? es' key) := by
  cases h with
  | mapping nodup keys_perm values =>
    cases hget : Entries.get? es key with
    | none =>
      have hkey := (Entries.get?_eq_none_iff es key).mp hget
      rw [(Entries.get?_eq_none_iff es' key).mpr fun hmem => hkey (keys_perm.mem_iff.mpr hmem)]
      exact .none
    | some n =>
      cases hget' : Entries.get? es' key with
      | none =>
        have hkey := (Entries.get?_eq_none_iff es' key).mp hget'
        rw [(Entries.get?_eq_none_iff es key).mpr fun hmem => hkey (keys_perm.mem_iff.mp hmem)]
          at hget
        cases hget
      | some n' => exact .some (values key n n' hget hget')

/-- Entries with distinct keys that have related values under all keys are reordered. -/
theorem of_get?_entries (hnodup : (Entries.keys es).Nodup) (hnodup' : (Entries.keys es').Nodup)
    (hget : ∀ key, Option.Rel Reordered (Entries.get? es key) (Entries.get? es' key)) :
    (Node.mapping es).Reordered (.mapping es') := by
  have hnone : ∀ key, Entries.get? es key = none ↔ Entries.get? es' key = none := by
    intro key
    have hrel := hget key
    generalize Entries.get? es key = x at hrel ⊢
    generalize Entries.get? es' key = y at hrel ⊢
    cases hrel <;> simp
  refine .mapping hnodup ((List.perm_ext_iff_of_nodup hnodup hnodup').mpr fun key => ?_) ?_
  · have hkey := hnone key
    rw [Entries.get?_eq_none_iff, Entries.get?_eq_none_iff] at hkey
    exact not_iff_not.mp hkey
  · intro key n n' hn hn'
    have hrel := hget key
    rw [hn, hn'] at hrel
    cases hrel with
    | some hnn => exact hnn

/-! ## What is read off a node -/

theorem kind_eq (h : n.Reordered n') : n.kind = n'.kind := by
  cases h <;> rfl

theorem isMapping_eq (h : n.Reordered n') : n.isMapping = n'.isMapping := by
  cases h <;> rfl

theorem string?_eq (h : n.Reordered n') : n.string? = n'.string? := by
  cases h <;> rfl

theorem text?_eq (h : n.Reordered n') : n.text? = n'.text? := by
  cases h <;> rfl

theorem get? (h : n.Reordered n') (key : String) :
    Option.Rel Reordered (n.get? key) (n'.get? key) := by
  cases h with
  | scalar s => exact .none
  | sequence pairs => exact .none
  | mapping nodup keys_perm values => exact (mapping nodup keys_perm values).get?_entries key

theorem field?_eq (h : n.Reordered n') (key : String) : n.field? key = n'.field? key := by
  have hrel := h.get? key
  unfold field?
  generalize n.get? key = x at hrel ⊢
  generalize n'.get? key = y at hrel ⊢
  cases hrel with
  | none => rfl
  | some hm => exact hm.text?_eq

theorem name?_eq (h : n.Reordered n') : n.name? = n'.name? :=
  congrArg nameFields.findSome? (funext h.field?_eq)

theorem isNamed_eq (h : n.Reordered n') (name : String) : n.isNamed name = n'.isNamed name := by
  simp only [isNamed, h.field?_eq]

theorem items?_getD (h : n.Reordered n') :
    List.Forall₂ Reordered (n.items?.getD []) (n'.items?.getD []) := by
  cases h with
  | sequence pairs => exact pairs
  | _ => exact .nil

theorem entries?_getD (h : n.Reordered n') :
    (Node.mapping (n.entries?.getD [])).Reordered (.mapping (n'.entries?.getD [])) := by
  cases h with
  | mapping nodup keys_perm values => exact .mapping nodup keys_perm values
  | _ => exact .mapping .nil .nil nofun

/-! ## Well-formed trees -/

theorem refl (h : n.WellFormed) : n.Reordered n := by
  induction n using Node.induction with
  | scalar s => exact .scalar s
  | sequence items ih =>
    exact .sequence (List.forall₂_same.mpr fun n hn => ih n hn (h.items n hn))
  | mapping es ih =>
    refine .mapping h.nodup (.refl _) fun key n n' hn hn' => ?_
    rw [hn] at hn'
    cases hn'
    have hmem := Entries.mem_of_get? hn
    exact ih _ hmem (h.values _ hmem)

theorem symm {n : Node} : ∀ {n' : Node}, n.Reordered n' → n'.Reordered n := by
  induction n using Node.induction with
  | scalar s =>
    rintro n' ⟨⟩
    exact .scalar s
  | sequence items ih =>
    rintro n' ⟨⟩
    next items' pairs =>
    refine .sequence (List.forall₂_iff_get.mpr ⟨pairs.length_eq.symm, fun i hi hi' => ?_⟩)
    exact ih _ (List.get_mem items ⟨i, hi'⟩) (pairs.get hi' hi)
  | mapping es ih =>
    rintro n' ⟨⟩
    next es' nodup keys_perm values =>
    refine .mapping (keys_perm.nodup_iff.mp nodup) keys_perm.symm fun key m m' hm hm' => ?_
    exact ih _ (Entries.mem_of_get? hm') (values key m' m hm' hm)

/-- A reordered tree is well-formed if the tree is. -/
theorem wellFormed {n : Node} (hwf : n.WellFormed) : ∀ {n' : Node}, n.Reordered n' →
    n'.WellFormed := by
  induction n using Node.induction with
  | scalar s =>
    rintro n' ⟨⟩
    exact .scalar s
  | sequence items ih =>
    rintro n' ⟨⟩
    next items' pairs =>
    cases hwf with
    | sequence size items_wf =>
      refine .sequence (pairs.length_eq ▸ size) fun m hm => ?_
      obtain ⟨i, hi, rfl⟩ := List.getElem_of_mem hm
      have hi' : i < items.length := pairs.length_eq ▸ hi
      have hmem := List.getElem_mem hi'
      exact ih _ hmem (items_wf _ hmem) (pairs.get hi' hi)
  | mapping es ih =>
    rintro n' ⟨⟩
    next es' nodup keys_perm values =>
    refine .mapping (keys_perm.nodup_iff.mp nodup) fun e he => ?_
    have hget := Entries.get?_of_mem (keys_perm.nodup_iff.mp nodup) he
    have hkey : e.1 ∈ Entries.keys es := keys_perm.mem_iff.mpr (List.mem_map_of_mem he)
    obtain ⟨m, hm⟩ := Option.ne_none_iff_exists'.mp fun hnone =>
      (Entries.get?_eq_none_iff es e.1).mp hnone hkey
    have hmem := Entries.mem_of_get? hm
    exact ih _ hmem (hwf.values _ hmem) (values e.1 m e.2 hm hget)

end Reordered

/-! ## Equality up to the order of keys -/

theorem sameItems_iff {as bs : List Node} :
    sameItems as bs = true ↔ List.Forall₂ (fun a b => a.same b = true) as bs := by
  induction as generalizing bs with
  | nil => cases bs <;> simp [sameItems]
  | cons a as ih =>
    cases bs with
    | nil => simp [sameItems]
    | cons b bs => simp [sameItems, ih]

theorem sameEntries_iff {as bs : Entries Node} :
    sameEntries as bs = true ↔
      ∀ e ∈ as, ∃ b, Entries.get? bs e.1 = some b ∧ e.2.same b = true := by
  induction as with
  | nil => simp [sameEntries]
  | cons a as ih =>
    rw [sameEntries, Bool.and_eq_true, ih, List.forall_mem_cons]
    refine and_congr_left fun _ => ?_
    cases Entries.get? bs a.1 <;> simp

/-- Reordered trees are the same but for the order of their keys. -/
theorem Reordered.same {n : Node} : ∀ {n' : Node}, n.Reordered n' → n.same n' = true := by
  induction n using Node.induction with
  | scalar s =>
    rintro n' ⟨⟩
    exact beq_self_eq_true s
  | sequence items ih =>
    rintro n' ⟨⟩
    next items' pairs =>
    refine sameItems_iff.mpr (List.forall₂_iff_get.mpr ⟨pairs.length_eq, fun i hi hi' => ?_⟩)
    exact ih _ (List.get_mem items ⟨i, hi⟩) (pairs.get hi hi')
  | mapping es ih =>
    rintro n' ⟨⟩
    next es' nodup keys_perm values =>
    have hlength : es.length = es'.length := by
      simpa [Entries.keys] using keys_perm.length_eq
    rw [Node.same, hlength, beq_self_eq_true, Bool.true_and, sameEntries_iff]
    intro e he
    have hget := Entries.get?_of_mem nodup he
    have hrel := (mapping nodup keys_perm values).get?_entries e.1
    rw [hget] at hrel
    generalize hget' : Entries.get? es' e.1 = y at hrel
    cases hrel with
    | some hm => exact ⟨_, rfl, ih e he hm⟩

/-- **A well-formed tree is reordered to the well-formed trees that are the same but for the order
of their keys, and to no others.** -/
theorem reordered_iff_same {n : Node} : ∀ {n' : Node}, n.WellFormed → n'.WellFormed →
    (n.Reordered n' ↔ n.same n' = true) := by
  induction n using Node.induction with
  | scalar s =>
    refine fun _ _ => ⟨Reordered.same, fun h => ?_⟩
    next n' _ _ =>
    cases n' with
    | scalar s' =>
      obtain rfl : s = s' := eq_of_beq h
      exact .scalar s
    | _ => cases h
  | sequence items ih =>
    refine fun hwf hwf' => ⟨Reordered.same, fun h => ?_⟩
    next n' =>
    cases n' with
    | sequence items' =>
      obtain ⟨hlength, hsame⟩ := List.forall₂_iff_get.mp (sameItems_iff.mp h)
      refine .sequence (List.forall₂_iff_get.mpr ⟨hlength, fun i hi hi' => ?_⟩)
      have hmem := List.get_mem items ⟨i, hi⟩
      exact (ih _ hmem (hwf.items _ hmem) (hwf'.items _ (List.get_mem items' ⟨i, hi'⟩))).mpr
        (hsame i hi hi')
    | _ => cases h
  | mapping es ih =>
    refine fun hwf hwf' => ⟨Reordered.same, fun h => ?_⟩
    next n' =>
    cases n' with
    | mapping es' =>
      obtain ⟨hlength, hentries⟩ := Bool.and_eq_true_iff.mp h
      have hfound := sameEntries_iff.mp hentries
      -- as many distinct keys, all of which the other mapping has
      have hsubset : Entries.keys es ⊆ Entries.keys es' := by
        intro key hkey
        obtain ⟨e, he, rfl⟩ := List.mem_map.mp hkey
        obtain ⟨b, hget, -⟩ := hfound e he
        exact List.mem_map.mpr ⟨_, Entries.mem_of_get? hget, rfl⟩
      have hkeys : (Entries.keys es).Perm (Entries.keys es') := by
        refine (List.subperm_of_subset hwf.nodup hsubset).perm_of_length_le ?_
        rw [Entries.keys, Entries.keys, List.length_map, List.length_map]
        exact Nat.le_of_eq (beq_iff_eq.mp hlength).symm
      refine .mapping hwf.nodup hkeys fun key m m' hm hm' => ?_
      have hmem := Entries.mem_of_get? hm
      obtain ⟨b, hget, hsame⟩ := hfound _ hmem
      rw [hm'] at hget
      cases hget
      exact (ih _ hmem (hwf.values _ hmem) (hwf'.values _ (Entries.mem_of_get? hm'))).mpr hsame
    | _ => cases h

end Laminate.Node
