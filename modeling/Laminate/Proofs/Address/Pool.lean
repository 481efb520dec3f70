import Laminate.Address.Pool
import Mathlib.Data.List.Intervals

/-!
# Offsets into a pool

An offset counts through the ranges of a pool as if they were written out one after the other
(`nth?_eq_getElem?`), from the first address of each range to the last one, both included
(`map_number_addresses`).

Sizes and offsets are natural numbers here, but all of this can be done in machine words: sizes and
offsets in 64 bits, addresses in 32. `Pool.sizeInWords` and `Pool.nthInWords` take the same steps in
words and stop at one whose result does not fit. A look-up never stops (`nthInWords_eq`), and the
size is found if it fits at all (`sizeInWords_eq_ok_iff`).
-/

namespace Laminate

/-! ## Machine words -/

/-- A step whose result does not fit its machine word. -/
inductive Overflow
  | sum
  | difference
  | address
deriving DecidableEq, Repr

namespace Word

/-- The sum of two words. -/
def sum (a b : UInt64) : Except Overflow UInt64 :=
  if a.toNat + b.toNat < UInt64.size then .ok (a + b) else .error .sum

/-- The difference of two words. -/
def difference (a b : UInt64) : Except Overflow UInt64 :=
  if b ≤ a then .ok (a - b) else .error .difference

/-- The distance from one address to another one. -/
def distance (first last : UInt32) : Except Overflow UInt32 :=
  if first ≤ last then .ok (last - first) else .error .difference

/-- The address of a number. -/
def address (a : UInt64) : Except Overflow IPv4 :=
  if a.toNat < UInt32.size then .ok ⟨a.toUInt32⟩ else .error .address

theorem sum_eq_ok_iff {a b c : UInt64} : sum a b = .ok c ↔ c.toNat = a.toNat + b.toNat := by
  have hc := c.toNat_lt_size
  unfold sum
  split
  · next h =>
    rw [Except.ok.injEq, ← UInt64.toNat_inj, UInt64.toNat_add, Nat.mod_eq_of_lt h, eq_comm]
  · next h => exact iff_of_false nofun fun heq => h (heq ▸ hc)

theorem difference_eq_ok_iff {a b c : UInt64} :
    difference a b = .ok c ↔ c.toNat + b.toNat = a.toNat := by
  unfold difference
  split
  · next h =>
    have hle := UInt64.le_iff_toNat_le.mp h
    rw [Except.ok.injEq, ← UInt64.toNat_inj, UInt64.toNat_sub_of_le _ _ h]
    omega
  · next h =>
    rw [UInt64.le_iff_toNat_le] at h
    exact iff_of_false nofun fun heq => by omega

theorem distance_eq_ok_iff {first last d : UInt32} :
    distance first last = .ok d ↔ first.toNat + d.toNat = last.toNat := by
  unfold distance
  split
  · next h =>
    have hle := UInt32.le_iff_toNat_le.mp h
    rw [Except.ok.injEq, ← UInt32.toNat_inj, UInt32.toNat_sub_of_le _ _ h]
    omega
  · next h =>
    rw [UInt32.le_iff_toNat_le] at h
    exact iff_of_false nofun fun heq => by omega

theorem address_eq_ok_iff {a : UInt64} {x : IPv4} :
    address a = .ok x ↔ x.number.toNat = a.toNat := by
  obtain ⟨number⟩ := x
  have hnumber := number.toNat_lt_size
  unfold address
  split
  · next h =>
    rw [Except.ok.injEq, IPv4.mk.injEq, ← UInt32.toNat_inj, UInt64.toNat_toUInt32,
      Nat.mod_eq_of_lt h, eq_comm]
  · next h => exact iff_of_false nofun fun heq => h (heq ▸ hnumber)

end Word

/-- The number of addresses of a range, in words. -/
def AddressRange.sizeInWords (r : AddressRange) : Except Overflow UInt64 := do
  let distance ← Word.distance r.first r.last
  Word.sum distance.toUInt64 1

namespace Pool

/-- The number of addresses of a pool, in words. -/
def sizeInWords (pool : Pool) : Except Overflow UInt64 :=
  pool.foldlM (fun count r => do Word.sum count (← r.sizeInWords)) 0

/-- The address at an offset, in words. -/
def nthInWords : Pool → UInt64 → Except Overflow (Option IPv4)
  | [], _ => .ok none
  | r :: pool, offset => do
    let size ← r.sizeInWords
    if offset < size then
      let number ← Word.sum r.first.toUInt64 offset
      let address ← Word.address number
      pure (some address)
    else
      let rest ← Word.difference offset size
      nthInWords pool rest

end Pool

/-! ## One range -/

namespace AddressRange

variable {r : AddressRange} {offset : Nat}

theorem first_toNat_le (r : AddressRange) : r.first.toNat ≤ r.last.toNat :=
  UInt32.le_iff_toNat_le.mp r.ordered

/-- No address of a range is beyond its last one. -/
theorem toNat_number_nth (h : offset < r.size) :
    (r.nth offset).number.toNat = r.first.toNat + offset := by
  have hlast := r.last.toNat_lt_size
  have hle := r.first_toNat_le
  rw [size] at h
  exact UInt32.toNat_ofNat_of_lt' (by omega)

/-- Since a range does not end before it starts, its size is found. -/
theorem exists_sizeInWords (r : AddressRange) :
    ∃ n, r.sizeInWords = .ok n ∧ n.toNat = r.size := by
  have hle := r.first_toNat_le
  have hlast := r.last.toNat_lt_size
  obtain ⟨d, hd⟩ : ∃ d, Word.distance r.first r.last = .ok d := ⟨_, if_pos r.ordered⟩
  have hdistance := Word.distance_eq_ok_iff.mp hd
  -- a range has at most as many addresses as there are
  have hfits : r.size < UInt64.size := by
    simp only [size, UInt64.size, UInt32.size] at hlast ⊢
    omega
  have hn : (UInt64.ofNat r.size).toNat = r.size := UInt64.toNat_ofNat_of_lt' hfits
  refine ⟨_, ?_, hn⟩
  rw [sizeInWords, hd]
  refine Word.sum_eq_ok_iff.mpr ?_
  rw [hn, size, UInt32.toNat_toUInt64, UInt64.toNat_one]
  omega

/-- The addresses of a range are the numbers from its first one to its last one. -/
theorem map_number_nth (r : AddressRange) :
    (List.range r.size).map (fun i => (r.nth i).number.toNat)
      = List.Ico r.first.toNat (r.last.toNat + 1) := by
  have hle := r.first_toNat_le
  have hnumbers : (List.range r.size).map (fun i => (r.nth i).number.toNat)
      = (List.range r.size).map (r.first.toNat + ·) :=
    List.map_congr_left fun i hi => toNat_number_nth (List.mem_range.mp hi)
  rw [hnumbers, ← List.Ico.zero_bot, List.Ico.map_add, size]
  congr 1 <;> omega

end AddressRange

/-! ## All ranges -/

namespace Pool

variable {r : AddressRange} {pool : Pool}

theorem size_cons : size (r :: pool) = r.size + size pool := rfl

theorem addresses_cons :
    addresses (r :: pool) = (List.range r.size).map r.nth ++ addresses pool := rfl

/-- All addresses are the numbers from the first one to the last one of each range, in order. -/
theorem map_number_addresses (pool : Pool) :
    (addresses pool).map (fun a => a.number.toNat)
      = pool.flatMap fun r => List.Ico r.first.toNat (r.last.toNat + 1) := by
  rw [addresses, List.map_flatMap]
  refine List.flatMap_congr fun r _ => ?_
  rw [List.map_map]
  exact r.map_number_nth

theorem size_eq_length (pool : Pool) : size pool = (addresses pool).length := by
  induction pool with
  | nil => rfl
  | cons r pool ih =>
    rw [size_cons, addresses_cons, List.length_append, List.length_map, List.length_range, ih]

/-- An offset finds what stands at it in the list of all addresses. -/
theorem nth?_eq_getElem? (pool : Pool) :
    ∀ offset, nth? pool offset = (addresses pool)[offset]? := by
  induction pool with
  | nil => exact fun _ => rfl
  | cons r pool ih =>
    intro offset
    rw [nth?, addresses_cons]
    split
    · next h =>
      rw [List.getElem?_append_left (by simpa using h), List.getElem?_map, List.getElem?_range h]
      rfl
    · next h =>
      rw [List.getElem?_append_right (by simpa using h), List.length_map, List.length_range, ih]

theorem nth?_eq_none_iff (pool : Pool) (offset : Nat) :
    nth? pool offset = none ↔ size pool ≤ offset := by
  rw [nth?_eq_getElem?, List.getElem?_eq_none_iff, size_eq_length]

/-! ## In words -/

/-- A size that has been counted up to some range goes on to the total, if that fits. -/
theorem foldlM_size_eq_ok_iff {n : UInt64} : ∀ {count : UInt64},
    pool.foldlM (fun count r => do Word.sum count (← r.sizeInWords)) count = Except.ok n ↔
      n.toNat = count.toNat + size pool := by
  induction pool with
  | nil =>
    intro count
    exact (Except.ok.injEq _ _).to_iff.trans (UInt64.toNat_inj.symm.trans eq_comm)
  | cons r pool ih =>
    intro count
    obtain ⟨m, hm, hsize⟩ := r.exists_sizeInWords
    have hstep : (do Word.sum count (← r.sizeInWords)) = Word.sum count m := by rw [hm]; rfl
    rw [List.foldlM_cons, hstep, size_cons]
    cases hsum : Word.sum count m with
    | ok next =>
      have hnext := Word.sum_eq_ok_iff.mp hsum
      rw [← hsize, ← Nat.add_assoc, ← hnext]
      exact ih
    | error overflow =>
      -- what is too much already does not get less
      refine iff_of_false nofun fun htotal => ?_
      have hfits : count.toNat + m.toNat < UInt64.size := by
        have := n.toNat_lt_size
        omega
      rw [Word.sum, if_pos hfits] at hsum
      cases hsum

theorem sizeInWords_eq_ok_iff (pool : Pool) (n : UInt64) :
    pool.sizeInWords = .ok n ↔ n.toNat = size pool := by
  rw [sizeInWords, foldlM_size_eq_ok_iff, UInt64.toNat_zero, Nat.zero_add]

/-- **No step of a look-up in words fails, and it finds what the look-up finds.** -/
theorem nthInWords_eq (pool : Pool) : ∀ offset : UInt64,
    pool.nthInWords offset = .ok (nth? pool offset.toNat) := by
  induction pool with
  | nil => exact fun _ => rfl
  | cons r pool ih =>
    intro offset
    obtain ⟨size, hsize, hn⟩ := r.exists_sizeInWords
    have hinside : offset < size ↔ offset.toNat < r.size := by rw [UInt64.lt_iff_toNat_lt, hn]
    rw [nthInWords, nth?, hsize]
    by_cases h : offset < size
    · have hlt := hinside.mp h
      have hnumber := AddressRange.toNat_number_nth hlt
      have hfits : r.first.toUInt64.toNat + offset.toNat < UInt64.size := by
        have hword := (r.nth offset.toNat).number.toNat_lt_size
        simp only [UInt32.toNat_toUInt64, UInt32.size, UInt64.size] at hword ⊢
        omega
      obtain ⟨number, hsum⟩ : ∃ number, Word.sum r.first.toUInt64 offset = .ok number :=
        ⟨_, if_pos hfits⟩
      have haddress : Word.address number = .ok (r.nth offset.toNat) := by
        rw [Word.address_eq_ok_iff, hnumber, Word.sum_eq_ok_iff.mp hsum, UInt32.toNat_toUInt64]
      simp only [bind, Except.bind, if_pos h, if_pos hlt, hsum, haddress]
      rfl
    · have hge := mt hinside.mpr h
      obtain ⟨rest, hrest⟩ : ∃ rest, Word.difference offset size = .ok rest :=
        ⟨_, if_pos (UInt64.not_lt.mp h)⟩
      have hdifference := Word.difference_eq_ok_iff.mp hrest
      simp only [bind, Except.bind, if_neg h, if_neg hge, hrest, ih]
      congr 2
      omega

/-- **Looking up an offset in the ranges of a pool is looking it up in the list of all their
addresses, each range from its first address to its last one; there is nothing beyond the size,
which is the length of that list. In machine words no look-up leaves its word, and neither does the
size if it fits 64 bits.** -/
theorem lookup_eq_expansion (pool : Pool) :
    (addresses pool).map (fun a => a.number.toNat)
        = pool.flatMap (fun r => List.Ico r.first.toNat (r.last.toNat + 1)) ∧
    (∀ offset, nth? pool offset = (addresses pool)[offset]?) ∧
    size pool = (addresses pool).length ∧
    (∀ offset, nth? pool offset = none ↔ size pool ≤ offset) ∧
    (∀ offset : UInt64, pool.nthInWords offset = .ok (nth? pool offset.toNat)) ∧
    (∀ n : UInt64, pool.sizeInWords = .ok n ↔ n.toNat = size pool) ∧
    ((∃ n, pool.sizeInWords = .ok n) ↔ size pool < UInt64.size) := by
  refine ⟨map_number_addresses pool, nth?_eq_getElem? pool, size_eq_length pool,
    nth?_eq_none_iff pool, nthInWords_eq pool, sizeInWords_eq_ok_iff pool, ?_⟩
  simp only [sizeInWords_eq_ok_iff]
  exact ⟨fun ⟨n, hn⟩ => hn ▸ n.toNat_lt_size,
    fun h => ⟨UInt64.ofNat (size pool), UInt64.toNat_ofNat_of_lt' h⟩⟩

/-- All addresses there are, and one of them once more. -/
def wholeSpace : Pool :=
  [⟨0, 0xffffffff, by decide⟩, ⟨0x0a000001, 0x0a000001, by decide⟩]

example : nth? wholeSpace 0xffffffff = some ⟨0xffffffff⟩ ∧
    nth? wholeSpace 0x100000000 = some ⟨0x0a000001⟩ ∧ nth? wholeSpace 0x100000001 = none ∧
    wholeSpace.sizeInWords = .ok 0x100000001 := by
  decide

end Pool

end Laminate
