/-!
# Numerals

Whole numbers as they are written in documents and paths: ASCII decimal digits with an optional
sign. An index is never negative and fits 64 bits; an integer fits 64 bits with its sign.
Leading zeros are allowed, and a numeral that does not fit is no numeral.
-/

namespace Laminate.Numeral

/-- The value of a non-empty run of decimal digits. -/
def nat? (cs : List Char) : Option Nat :=
  if cs ≠ [] ∧ cs.all Char.isDigit then some (Nat.ofDigitChars 10 cs 0) else none

/-- The decimal digits of a number, without leading zeros. -/
def digits (n : Nat) : List Char :=
  Nat.toDigits 10 n

/-- The decimal text of a number. -/
def text (n : Nat) : String :=
  String.ofList (digits n)

theorem nat?_digits (n : Nat) : nat? (digits n) = some n := by
  have hne : digits n ≠ [] := Nat.toDigits_ne_nil
  have hall : (digits n).all Char.isDigit = true := by
    rw [List.all_eq_true]
    intro c hc
    exact Nat.isDigit_of_mem_toDigits (by decide) (by decide) hc
  rw [nat?, if_pos ⟨hne, hall⟩, digits, Nat.ofDigitChars_ten_toDigits]

theorem digits_injective {m n : Nat} (h : digits m = digits n) : m = n := by
  have hm := nat?_digits m
  rw [h, nat?_digits] at hm
  exact (Option.some.inj hm).symm

theorem notMem_digits {c : Char} (h : c.isDigit = false) (n : Nat) : c ∉ digits n := fun hmem => by
  have hdigit := Nat.isDigit_of_mem_toDigits (by decide) (by decide) hmem
  rw [h] at hdigit
  cases hdigit

/-- Indices have 64 bits: they are below this bound. -/
def indexBound : Nat := UInt64.size

/-- Digits whose value is below `indexBound`. -/
def boundedIndex? (cs : List Char) : Option Nat :=
  (nat? cs).filter (· < indexBound)

/-- An index: digits after an optional plus sign. -/
def index? : List Char → Option Nat
  | '+' :: cs => boundedIndex? cs
  | cs => boundedIndex? cs

/-- The number with its sign, when it fits 64 bits. -/
def signed? (negative : Bool) (n : Nat) : Option Int64 :=
  let i : Int := if negative then -n else n
  if Int64.minValue.toInt ≤ i ∧ i ≤ Int64.maxValue.toInt then some (Int64.ofInt i) else none

/-- An integer: digits after an optional sign. -/
def integer? : List Char → Option Int64
  | '+' :: cs => (nat? cs).bind (signed? false)
  | '-' :: cs => (nat? cs).bind (signed? true)
  | cs => (nat? cs).bind (signed? false)

/-- The decimal digits of an integer, after a minus sign if it is negative. -/
def integerDigits (i : Int64) : List Char :=
  if i.toInt < 0 then '-' :: digits i.toInt.natAbs else digits i.toInt.natAbs

/-- The decimal text of an integer. -/
def integerText (i : Int64) : String :=
  String.ofList (integerDigits i)

/-- A run of digits is read as it stands: its first character is no sign. -/
theorem index?_of_isDigit {c : Char} {cs : List Char} (h : c.isDigit = true) :
    index? (c :: cs) = boundedIndex? (c :: cs) := by
  unfold index?
  split
  · rename_i heq
    cases heq
    simp [Char.isDigit] at h
  · rfl

/-- Digits begin with a digit. -/
theorem exists_digits_eq_cons (n : Nat) : ∃ c cs, digits n = c :: cs ∧ c.isDigit = true := by
  obtain ⟨c, cs, hcons⟩ := List.exists_cons_of_ne_nil (Nat.toDigits_ne_nil (b := 10) (n := n))
  have hmem : c ∈ Nat.toDigits 10 n := by simp [hcons]
  exact ⟨c, cs, hcons, Nat.isDigit_of_mem_toDigits (by decide) (by decide) hmem⟩

/-- An index that fits is read back from its digits. -/
theorem index?_digits {n : Nat} (h : n < indexBound) : index? (digits n) = some n := by
  obtain ⟨c, cs, hdigits, hd⟩ := exists_digits_eq_cons n
  rw [hdigits, index?_of_isDigit hd, ← hdigits, boundedIndex?, nat?_digits]
  simp [h]

theorem toList_text (n : Nat) : (text n).toList = digits n :=
  String.toList_ofList

theorem text_injective {m n : Nat} (h : text m = text n) : m = n :=
  digits_injective (by rw [← toList_text, h, toList_text])

/-- An index that fits is read back from its text. -/
theorem index?_text {n : Nat} (h : n < indexBound) : index? (text n).toList = some n := by
  rw [toList_text, index?_digits h]

/-! ## Integers read back -/

theorem integer?_of_isDigit {c : Char} {cs : List Char} (h : c.isDigit = true) :
    integer? (c :: cs) = (nat? (c :: cs)).bind (signed? false) := by
  unfold integer?
  split
  · rename_i heq
    cases heq
    simp [Char.isDigit] at h
  · rename_i heq
    cases heq
    simp [Char.isDigit] at h
  · rfl

/-- The magnitude of an integer with its sign is the integer again. -/
theorem signed?_natAbs (i : Int64) :
    signed? (decide (i.toInt < 0)) i.toInt.natAbs = some i := by
  have hsigned : (if decide (i.toInt < 0) then -(i.toInt.natAbs : Int) else i.toInt.natAbs)
      = i.toInt := by
    by_cases hneg : i.toInt < 0
    · rw [decide_eq_true hneg, if_pos rfl]
      omega
    · rw [decide_eq_false hneg, if_neg Bool.false_ne_true]
      omega
  have hbounds : Int64.minValue.toInt ≤ i.toInt ∧ i.toInt ≤ Int64.maxValue.toInt :=
    ⟨i.minValue_le_toInt, i.toInt_le⟩
  simp only [signed?, hsigned, if_pos hbounds, Int64.ofInt_toInt]

/-- An integer is read back from its digits. -/
theorem integer?_integerDigits (i : Int64) : integer? (integerDigits i) = some i := by
  have hsigned := signed?_natAbs i
  unfold integerDigits
  split
  · next hneg =>
    rw [decide_eq_true hneg] at hsigned
    simp only [integer?, nat?_digits, Option.bind_some, hsigned]
  · next hpos =>
    rw [decide_eq_false hpos] at hsigned
    obtain ⟨c, cs, hdigits, hd⟩ := exists_digits_eq_cons i.toInt.natAbs
    rw [hdigits, integer?_of_isDigit hd, ← hdigits, nat?_digits, Option.bind_some, hsigned]

/-- An integer is read back from its text. -/
theorem integer?_integerText (i : Int64) : integer? (integerText i).toList = some i := by
  rw [integerText, String.toList_ofList, integer?_integerDigits]

end Laminate.Numeral
