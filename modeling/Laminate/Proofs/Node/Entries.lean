import Laminate.Node.Entries

/-!
# Laws of entries

Writes under different keys commute, and the last write under a key counts
(`insert_comm_of_mem`, `insert_insert`, `erase_insert`); to write what is there already is to write
nothing (`insert_of_get?`). A list of entries is split at a key by
`exists_split_of_get?`. A property of all values is kept by writes (`forall_mem_insert`,
`forall_mem_foldl_insertNew`).
-/

namespace Laminate.Entries

universe u

variable {α : Type u} {es pre post : Entries α} {key k : String} {value x y : α}

theorem mem_keys_of_get? (h : get? es key = some value) : key ∈ keys es :=
  List.mem_map_of_mem (mem_of_get? h)

theorem exists_get?_of_mem_keys (h : key ∈ keys es) : ∃ value, get? es key = some value :=
  Option.ne_none_iff_exists'.mp fun hnone => (get?_eq_none_iff es key).mp hnone h

/-! ## Writes -/

theorem mem_keys_insert (es : Entries α) (key : String) (value : α) :
    key ∈ keys (insert es key value) := by
  rw [keys_insert]
  split
  · assumption
  · exact List.mem_append_right _ (List.mem_singleton.mpr rfl)

theorem mem_keys_insert_of_mem (h : k ∈ keys es) : k ∈ keys (insert es key value) := by
  rw [keys_insert]
  split
  · exact h
  · exact List.mem_append_left _ h

theorem insert_insert (es : Entries α) (key : String) (x y : α) :
    insert (insert es key x) key y = insert es key y := by
  induction es with
  | nil => simp [insert]
  | cons e es ih =>
    obtain ⟨k, v⟩ := e
    by_cases h : k = key
    · simp [insert, h]
    · simp [insert, h, ih]

/-- To write what is there already changes nothing. -/
theorem insert_of_get? (h : get? es key = some value) : insert es key value = es := by
  induction es with
  | nil => cases h
  | cons e es ih =>
    obtain ⟨k, v⟩ := e
    rw [get?_cons] at h
    by_cases heq : k = key
    · rw [if_pos heq] at h
      cases h
      simp [insert, heq]
    · rw [if_neg heq] at h
      simp [insert, heq, ih h]

/-- With distinct keys, to write under a key is to change the entry that has it. -/
theorem insert_eq_modify (hnodup : (keys es).Nodup) {i : Nat} (h : es[i]? = some (key, value))
    (f : α → α) : insert es key (f value) = es.modify i fun e => (e.1, f e.2) := by
  induction es generalizing i with
  | nil => cases h
  | cons e es ih =>
    obtain ⟨k, v⟩ := e
    obtain ⟨hnot, hes⟩ := List.nodup_cons.mp hnodup
    cases i with
    | zero =>
      cases h
      rw [insert, if_pos rfl, List.modify_zero_cons]
    | succ i =>
      have hne : k ≠ key := by
        rintro rfl
        exact hnot (mem_keys_of_get? (get?_of_mem hes (List.mem_of_getElem? h)))
      rw [insert, if_neg hne, List.modify_succ_cons, ih hes h]

/-- A new key is written at the end. -/
theorem insert_of_notMem (h : key ∉ keys es) : insert es key value = es ++ [(key, value)] := by
  induction es with
  | nil => rfl
  | cons e es ih =>
    obtain ⟨k, v⟩ := e
    have hne : ¬k = key := fun heq => h (heq ▸ List.mem_cons_self)
    simp [insert, hne, ih fun hmem => h (List.mem_cons_of_mem _ hmem)]

/-- A write under a key that is present commutes with a write under another key. -/
theorem insert_comm_of_mem (hmem : key ∈ keys es) (hne : key ≠ k) :
    insert (insert es key x) k y = insert (insert es k y) key x := by
  induction es with
  | nil => cases hmem
  | cons e es ih =>
    obtain ⟨k', v⟩ := e
    by_cases hkey : k' = key
    · subst hkey
      simp [insert, hne]
    · have hrest : key ∈ keys es := (List.mem_cons.mp hmem).resolve_left (Ne.symm hkey)
      by_cases hk : k' = k
      · subst hk
        simp [insert, hkey]
      · simp [insert, hkey, hk, ih hrest]

theorem erase_cons (k : String) (v : α) (es : Entries α) (key : String) :
    erase ((k, v) :: es) key = if k = key then erase es key else (k, v) :: erase es key := by
  unfold erase
  by_cases h : k = key <;> simp [h]

theorem erase_insert_self (es : Entries α) (key : String) (value : α) :
    erase (insert es key value) key = erase es key := by
  induction es with
  | nil => simp [insert, erase]
  | cons e es ih =>
    obtain ⟨k, v⟩ := e
    by_cases h : k = key
    · simp [insert, erase_cons, h]
    · simp [insert, erase_cons, h, ih]

theorem erase_insert (hne : k ≠ key) (es : Entries α) (value : α) :
    erase (insert es k value) key = insert (erase es key) k value := by
  induction es with
  | nil => simp [insert, erase, hne]
  | cons e es ih =>
    obtain ⟨k', v⟩ := e
    by_cases hk : k' = k
    · subst hk
      simp [insert, erase_cons, hne]
    · by_cases hkey : k' = key
      · subst hkey
        simp [insert, erase_cons, hk, ih]
      · simp [insert, erase_cons, hk, hkey, ih]

theorem get?_erase (hne : k ≠ key) (es : Entries α) : get? (erase es key) k = get? es k := by
  induction es with
  | nil => rfl
  | cons e es ih =>
    obtain ⟨k', v⟩ := e
    by_cases hkey : k' = key
    · subst hkey
      simp [erase_cons, get?_cons, Ne.symm hne, ih]
    · simp [erase_cons, get?_cons, hkey, ih]

/-- Entries with distinct keys are told by their keys and by what stands under them. -/
theorem eq_of_get?_eq : ∀ {es es' : Entries α}, (keys es).Nodup → keys es = keys es' →
    (∀ key ∈ keys es, get? es key = get? es' key) → es = es'
  | [], es', _, hkeys, _ => (List.map_eq_nil_iff.mp hkeys.symm).symm
  | (k, v) :: es, es', hnodup, hkeys, hget => by
    obtain ⟨⟨k', v'⟩, others, rfl, hk, hothers⟩ := List.map_eq_cons_iff.mp hkeys.symm
    obtain rfl : k' = k := hk
    obtain ⟨hnot, hnodup⟩ := List.nodup_cons.mp hnodup
    have hvalue := hget k' List.mem_cons_self
    rw [get?_cons, get?_cons, if_pos rfl, if_pos rfl] at hvalue
    have hrest : es = others := by
      refine eq_of_get?_eq hnodup hothers.symm fun key hkey => ?_
      have hne : k' ≠ key := fun heq => hnot (heq ▸ hkey)
      have hsame := hget key (List.mem_cons_of_mem _ hkey)
      rwa [get?_cons, get?_cons, if_neg hne, if_neg hne] at hsame
    rw [Option.some.inj hvalue, hrest]

theorem get?_map {β : Type} (es : Entries α) (f : String → α → β) (key : String) :
    get? (es.map fun e => (e.1, f e.1 e.2)) key = (get? es key).map (f key) := by
  induction es with
  | nil => rfl
  | cons e es ih =>
    obtain ⟨k, v⟩ := e
    rw [List.map_cons, get?_cons, get?_cons]
    split
    · next heq => rw [heq]; rfl
    · exact ih

/-- What is left of entries under the keys of a choice. -/
theorem get?_filter (es : Entries α) (p : String → Bool) (key : String) :
    get? (es.filter fun e => p e.1) key = if p key then get? es key else none := by
  induction es with
  | nil => split <;> rfl
  | cons e es ih =>
    obtain ⟨k, v⟩ := e
    rw [List.filter_cons]
    by_cases heq : k = key
    · subst heq
      cases hp : p k <;> simp [get?_cons, ih, hp]
    · cases p k <;> simp [get?_cons, ih, heq]

theorem nodup_keys_filter (h : (keys es).Nodup) (p : String × α → Bool) :
    (keys (es.filter p)).Nodup :=
  h.sublist ((List.filter_sublist (p := p)).map _)

/-! ## Entries written unless their keys are present -/

/-- The first entry of each new key comes to the end. -/
theorem foldl_insertNew_eq_eraseDupsBy (others : List (String × α)) :
    ∀ es : Entries α, others.foldl (fun es e => insertNew es e.1 e.2) es
      = es ++ (others.filter fun e => !contains es e.1).eraseDupsBy fun e f => e.1 == f.1 := by
  induction others with
  | nil => exact fun es => (List.append_nil es).symm
  | cons e others ih =>
    intro es
    rw [List.foldl_cons, ih, insertNew, List.filter_cons]
    cases hcontains : contains es e.1 with
    | true => rfl
    | false =>
      have hnew (x : String × α) : contains (es ++ [(e.1, e.2)]) x.1
          = (contains es x.1 || x.1 == e.1) := by
        rw [Bool.eq_iff_iff, contains_iff, Bool.or_eq_true, contains_iff]
        simp [keys]
      simp only [hnew, Bool.false_eq_true, if_false, Bool.not_false, if_true,
        List.eraseDupsBy_cons, List.filter_filter, List.append_assoc, List.singleton_append]
      congr 4
      funext x
      cases contains es x.1 <;> cases hx : (x.1 == e.1) <;> simp

/-- Of entries with distinct keys each one is the first of its key. -/
theorem eraseDupsBy_of_nodup (h : (keys es).Nodup) :
    (es.eraseDupsBy fun e f => e.1 == f.1) = es := by
  induction es with
  | nil => rfl
  | cons e es ih =>
    obtain ⟨hnot, hnodup⟩ := List.nodup_cons.mp h
    have hkept : (es.filter fun f => decide ((f.1 == e.1) = false)) = es := by
      refine List.filter_eq_self.mpr fun f hf => decide_eq_true ?_
      exact beq_eq_false_iff_ne.mpr (ne_of_mem_of_not_mem (List.mem_map_of_mem hf) hnot)
    rw [List.eraseDupsBy_cons, hkept, ih hnodup]

/-- Entries with distinct keys: all those under new keys come to the end, in order. -/
theorem foldl_insertNew_eq {others : Entries α} (hnodup : (keys others).Nodup) (es : Entries α) :
    others.foldl (fun es e => insertNew es e.1 e.2) es
      = es ++ others.filter fun e => !contains es e.1 := by
  rw [foldl_insertNew_eq_eraseDupsBy, eraseDupsBy_of_nodup (nodup_keys_filter hnodup _)]

/-! ## Parts -/

theorem exists_split_of_get? (h : get? es key = some value) :
    ∃ pre post, es = pre ++ (key, value) :: post ∧ key ∉ keys pre := by
  induction es with
  | nil => cases h
  | cons e es ih =>
    obtain ⟨k, v⟩ := e
    rw [get?_cons] at h
    split at h
    · next heq =>
      cases h
      exact ⟨[], es, heq ▸ rfl, List.not_mem_nil⟩
    · next hne =>
      obtain ⟨pre, post, rfl, hpre⟩ := ih h
      exact ⟨(k, v) :: pre, post, rfl, fun hmem =>
        (List.mem_cons.mp hmem).elim (fun heq => hne heq.symm) hpre⟩

theorem notMem_keys_of_nodup (h : (keys (pre ++ (key, value) :: post)).Nodup) :
    key ∉ keys post := by
  unfold keys at h
  rw [List.map_append, List.map_cons] at h
  exact (List.nodup_cons.mp (List.nodup_append.mp h).2.1).1

theorem get?_append (hpre : key ∉ keys pre) :
    get? (pre ++ (key, value) :: post) key = some value := by
  induction pre with
  | nil => simp [get?_cons]
  | cons e pre ih =>
    obtain ⟨k, v⟩ := e
    have hne : ¬k = key := fun heq => hpre (heq ▸ List.mem_cons_self)
    rw [List.cons_append, get?_cons, if_neg hne, ih fun hmem => hpre (List.mem_cons_of_mem _ hmem)]

theorem insert_append (hpre : key ∉ keys pre) (x : α) :
    insert (pre ++ (key, value) :: post) key x = pre ++ (key, x) :: post := by
  induction pre with
  | nil => simp [insert]
  | cons e pre ih =>
    obtain ⟨k, v⟩ := e
    have hne : ¬k = key := fun heq => hpre (heq ▸ List.mem_cons_self)
    simp [insert, hne, ih fun hmem => hpre (List.mem_cons_of_mem _ hmem)]

theorem erase_of_notMem (h : key ∉ keys es) : erase es key = es := by
  refine List.filter_eq_self.mpr fun e he => ?_
  have hne : e.1 ≠ key := fun heq => h (heq ▸ List.mem_map_of_mem he)
  simpa using hne

theorem erase_append (hpre : key ∉ keys pre) (hpost : key ∉ keys post) :
    erase (pre ++ (key, value) :: post) key = pre ++ post := by
  have hsplit : erase (pre ++ (key, value) :: post) key = erase pre key ++ erase post key := by
    simp [erase]
  rw [hsplit, erase_of_notMem hpre, erase_of_notMem hpost]

/-! ## Properties of all values -/

variable {P : α → Prop}

theorem forall_mem_insert (hes : ∀ e ∈ es, P e.2) (hvalue : P value) :
    ∀ e ∈ insert es key value, P e.2 := by
  induction es with
  | nil => simpa [insert] using hvalue
  | cons e es ih =>
    obtain ⟨he, hrest⟩ := List.forall_mem_cons.mp hes
    unfold insert
    split
    · exact List.forall_mem_cons.mpr ⟨hvalue, hrest⟩
    · exact List.forall_mem_cons.mpr ⟨he, ih hrest⟩

theorem forall_mem_insertNew (hes : ∀ e ∈ es, P e.2) (hvalue : P value) :
    ∀ e ∈ insertNew es key value, P e.2 := by
  unfold insertNew
  split
  · exact hes
  · exact List.forall_mem_append.mpr ⟨hes, List.forall_mem_singleton.mpr hvalue⟩

theorem forall_mem_foldl_insertNew {others : Entries α} (hes : ∀ e ∈ es, P e.2)
    (hothers : ∀ e ∈ others, P e.2) :
    ∀ e ∈ others.foldl (fun es e => insertNew es e.1 e.2) es, P e.2 := by
  induction others generalizing es with
  | nil => exact hes
  | cons e others ih =>
    obtain ⟨he, hrest⟩ := List.forall_mem_cons.mp hothers
    exact ih (forall_mem_insertNew hes he) hrest

end Laminate.Entries
