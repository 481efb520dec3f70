/-!
# Entries

Key-value pairs in the order in which the keys were first inserted. Inserting under a present key
keeps its position, and erasing a key keeps the order of the rest. Every operation here keeps the
keys distinct (`nodup_keys_insert`, `nodup_keys_erase`, `nodup_keys_ofList`); a list of pairs
with repeated keys becomes entries through `ofList`, where the first pair of a key wins.
-/

namespace Laminate

universe u

variable {α : Type u}

/-- Key-value pairs in insertion order. -/
abbrev Entries (α : Type u) := List (String × α)

namespace Entries

/-- The value under a key. -/
def get? (es : Entries α) (key : String) : Option α :=
  es.lookup key

/-- The keys, in order. -/
def keys (es : Entries α) : List String :=
  es.map Prod.fst

/-- Whether a key is present. -/
def contains (es : Entries α) (key : String) : Bool :=
  (get? es key).isSome

/-- Puts a value under a key: in place if the key is present, else at the end. -/
def insert : Entries α → String → α → Entries α
  | [], key, value => [(key, value)]
  | (k, v) :: es, key, value =>
    if k = key then (k, value) :: es else (k, v) :: insert es key value

/-- Removes a key. -/
def erase (es : Entries α) (key : String) : Entries α :=
  es.filter fun e => e.1 ≠ key

/-- Puts a value under a key unless the key is present. -/
def insertNew (es : Entries α) (key : String) (value : α) : Entries α :=
  if contains es key then es else es ++ [(key, value)]

/-- The entries of a list of pairs; of several pairs with one key the first one counts. -/
def ofList (pairs : List (String × α)) : Entries α :=
  pairs.foldl (fun es e => insertNew es e.1 e.2) []

/-! ## Look-up -/

@[simp] theorem get?_nil (key : String) : get? ([] : Entries α) key = none := rfl

theorem get?_cons (k : String) (v : α) (es : Entries α) (key : String) :
    get? ((k, v) :: es) key = if k = key then some v else get? es key := by
  unfold get?
  rw [List.lookup_cons]
  by_cases h : k = key
  · simp [h]
  · have h' : (key == k) = false := beq_false_of_ne fun e => h e.symm
    simp [h, h']

theorem get?_eq_none_iff (es : Entries α) (key : String) : get? es key = none ↔ key ∉ keys es := by
  induction es with
  | nil => simp [keys]
  | cons e es ih =>
    obtain ⟨k, v⟩ := e
    rw [get?_cons]
    by_cases h : k = key
    · simp [h, keys]
    · have h' : ¬key = k := fun e => h e.symm
      simp only [h, if_false, ih]
      simp [keys, h']

theorem contains_iff (es : Entries α) (key : String) : contains es key = true ↔ key ∈ keys es := by
  unfold contains
  have := get?_eq_none_iff es key
  cases hg : get? es key with
  | none => simp [this.mp hg]
  | some v =>
    have : ¬(key ∉ keys es) := fun hn => by rw [this.mpr hn] at hg; cases hg
    simpa using this

theorem mem_of_get? {es : Entries α} {key : String} {value : α} (h : get? es key = some value) :
    (key, value) ∈ es := by
  induction es with
  | nil => cases h
  | cons e es ih =>
    obtain ⟨k, v⟩ := e
    rw [get?_cons] at h
    split at h
    · next heq =>
      cases h
      exact heq ▸ List.mem_cons_self
    · exact List.mem_cons_of_mem _ (ih h)

/-- With distinct keys every pair is found under its key. -/
theorem get?_of_mem {es : Entries α} (hnodup : (keys es).Nodup) {key : String} {value : α}
    (h : (key, value) ∈ es) : get? es key = some value := by
  induction es with
  | nil => cases h
  | cons e es ih =>
    obtain ⟨k, v⟩ := e
    obtain ⟨hnot, hes⟩ := List.nodup_cons.mp hnodup
    rw [get?_cons]
    rcases List.mem_cons.mp h with heq | hmem
    · cases heq
      rw [if_pos rfl]
    · have hne : ¬k = key := by
        rintro rfl
        exact hnot (List.mem_map.mpr ⟨_, hmem, rfl⟩)
      rw [if_neg hne, ih hes hmem]

theorem get?_insert (es : Entries α) (key : String) (value : α) (other : String) :
    get? (insert es key value) other = if key = other then some value else get? es other := by
  induction es with
  | nil => simp [insert, get?_cons]
  | cons e es ih =>
    obtain ⟨k, v⟩ := e
    unfold insert
    by_cases h : k = key
    · subst h
      simp only [if_true, get?_cons]
      split <;> rfl
    · simp only [h, if_false, get?_cons, ih]
      by_cases h2 : k = other
      · subst h2
        have h' : ¬key = k := fun e => h e.symm
        simp [h']
      · simp [h2]

/-! ## Keys -/

theorem keys_insert (es : Entries α) (key : String) (value : α) :
    keys (insert es key value) = if key ∈ keys es then keys es else keys es ++ [key] := by
  induction es with
  | nil => simp [insert, keys]
  | cons e es ih =>
    obtain ⟨k, v⟩ := e
    unfold insert
    by_cases h : k = key
    · simp [h, keys]
    · have h' : ¬key = k := fun e => h e.symm
      simp only [keys] at ih
      simp only [h, if_false, keys, List.map_cons, ih, List.mem_cons, h', false_or]
      by_cases hm : key ∈ List.map Prod.fst es <;> simp [hm]

theorem keys_erase (es : Entries α) (key : String) :
    keys (erase es key) = (keys es).filter fun k => k ≠ key := by
  unfold keys erase
  rw [List.filter_map]
  rfl

theorem keys_insertNew (es : Entries α) (key : String) (value : α) :
    keys (insertNew es key value) = if key ∈ keys es then keys es else keys es ++ [key] := by
  unfold insertNew
  by_cases h : key ∈ keys es
  · simp [(contains_iff es key).mpr h, h]
  · have : contains es key = false := by
      rw [← Bool.not_eq_true, contains_iff]
      exact h
    rw [if_neg h, this]
    simp [keys]

theorem nodup_append_new {l : List String} {key : String} (h : l.Nodup) (hk : key ∉ l) :
    (l ++ [key]).Nodup := by
  rw [List.nodup_append]
  refine ⟨h, by simp, ?_⟩
  intro a ha b hb
  rw [List.mem_singleton] at hb
  subst hb
  exact fun e => hk (e ▸ ha)

theorem nodup_keys_insert {es : Entries α} (h : (keys es).Nodup) (key : String) (value : α) :
    (keys (insert es key value)).Nodup := by
  rw [keys_insert]
  split
  · exact h
  · exact nodup_append_new h ‹_›

theorem nodup_keys_erase {es : Entries α} (h : (keys es).Nodup) (key : String) :
    (keys (erase es key)).Nodup := by
  rw [keys_erase]
  exact h.filter _

theorem nodup_keys_insertNew {es : Entries α} (h : (keys es).Nodup) (key : String) (value : α) :
    (keys (insertNew es key value)).Nodup := by
  rw [keys_insertNew]
  split
  · exact h
  · exact nodup_append_new h ‹_›

theorem nodup_keys_foldl_insertNew (pairs : List (String × α)) :
    ∀ es : Entries α, (keys es).Nodup →
      (keys (pairs.foldl (fun es e => insertNew es e.1 e.2) es)).Nodup := by
  induction pairs with
  | nil => exact fun _ h => h
  | cons e pairs ih => exact fun es h => ih _ (nodup_keys_insertNew h e.1 e.2)

theorem nodup_keys_ofList (pairs : List (String × α)) : (keys (ofList pairs)).Nodup :=
  nodup_keys_foldl_insertNew pairs [] List.nodup_nil

end Entries

end Laminate
