import Laminate.Yaml.Standard

/-!
# Scalars in a text

A scalar is printed with a type and read back by its text alone. The text of a number, of a truth
value or of null gives the same scalar again (`plainScalar_printed`). A string comes back if it is
quoted or if its plain text gives no other scalar (`StringEvent.scalar_eq`); the standard codec
quotes strings accordingly (`stringEvent_rawString`).
-/

namespace Laminate

/-- Whether a fractional number has a text that is read as one. -/
def Scalar.Readable : Scalar → Prop
  | .float text => Yaml.isFloat text = true ∧ Numeral.integer? text.toList = none
  | _ => True

namespace Yaml

/-! ## Types from texts -/

/-- A plain text that is a string: no number, and none of the words. -/
structure PlainString (text : String) : Prop where
  not_integer : Numeral.integer? text.toList = none
  not_decimal : Decimal.Literal.parse? text.toList = none
  not_true : text ∉ trueWords
  not_false : text ∉ falseWords
  /-- The empty text is one of the words for null. -/
  not_null : text ∉ nullWords

theorem PlainString.plainScalar_eq {text : String} (h : PlainString text) :
    plainScalar text = .string text := by
  have hfloat : isFloat text = false := by simp [isFloat, h.not_decimal]
  simp [plainScalar, h.not_integer, hfloat, h.not_true, h.not_false, h.not_null]

/-- The text of a scalar that is no string is read as that scalar. -/
theorem plainScalar_printed {s : Scalar} (hs : s.Readable) (hstring : ∀ t, s ≠ .string t) :
    plainScalar s.printed = s := by
  cases s with
  | null => decide
  | boolean value => cases value <;> decide
  | integer i =>
    simp only [Scalar.printed, Scalar.text?, Option.getD_some, plainScalar,
      Numeral.integer?_integerText]
  | float text =>
    simp only [Scalar.printed, Scalar.text?, Option.getD_some, plainScalar, hs.2, hs.1, if_true]
  | string text => exact absurd rfl (hstring text)

/-! ## Scalars as events -/

/-- A string as an event: between quotes, or plain if its text is read as a string. -/
structure StringEvent (text : String) (raw : RawScalar) : Prop where
  text_eq : raw.text = text
  plain : raw.style = .plain → PlainString text

/-- A scalar as an event. One that is no string is plain and untagged, with its printed text. -/
def ScalarEvent : Scalar → RawScalar → Prop
  | .string text, raw => StringEvent text raw
  | s, raw => raw = ⟨s.printed, .plain, none⟩

/-- The event of a string is read as that string. -/
theorem StringEvent.scalar_eq {text : String} {raw : RawScalar} (h : StringEvent text raw) :
    raw.scalar = .string text := by
  unfold RawScalar.scalar
  split
  · next hplain => rw [h.text_eq, (h.plain hplain.1).plainScalar_eq]
  · rw [h.text_eq]

/-- The event of a scalar is read as that scalar. -/
theorem ScalarEvent.scalar_eq {s : Scalar} {raw : RawScalar} (h : ScalarEvent s raw)
    (hs : s.Readable) : raw.scalar = s := by
  have hplain : ∀ text, RawScalar.scalar ⟨text, .plain, none⟩ = plainScalar text := fun _ => rfl
  cases s with
  | string text => exact StringEvent.scalar_eq h
  | _ =>
    obtain rfl : raw = _ := h
    rw [hplain, plainScalar_printed hs (fun _ heq => nomatch heq)]

/-! ## The quotes of the standard codec -/

/-- What is written without quotes is read as the string that it is. -/
theorem plainString_of_isPlain {text : String} (h : isPlain text = true) : PlainString text := by
  simp only [isPlain, Bool.not_eq_true', Bool.or_eq_false_iff] at h
  have hreserved := h.1.1.1.1
  simp only [isReserved, Bool.or_eq_false_iff, decide_eq_false_iff_not,
    Option.isSome_eq_false_iff, Option.isNone_iff_eq_none] at hreserved
  obtain ⟨⟨⟨⟨⟨htrue, hfalse⟩, hnull⟩, -⟩, hinteger⟩, hdecimal⟩ := hreserved
  exact ⟨hinteger, hdecimal, htrue, hfalse, hnull⟩

/-- A string as the standard codec leaves it. -/
def rawString (text : String) : RawScalar :=
  ⟨text, if isPlain text then .plain else .quoted, none⟩

/-- A scalar as the standard codec leaves it. -/
def rawScalar : Scalar → RawScalar
  | .string text => rawString text
  | s => ⟨s.printed, .plain, none⟩

/-- A string has the quotes that a reader needs. -/
theorem stringEvent_rawString (text : String) : StringEvent text (rawString text) where
  text_eq := rfl
  plain h := by
    by_cases hplain : isPlain text = true
    · exact plainString_of_isPlain hplain
    · simp [rawString, hplain] at h

theorem scalarEvent_rawScalar (s : Scalar) : ScalarEvent s (rawScalar s) := by
  cases s with
  | string text => exact stringEvent_rawString text
  | _ => rfl

end Yaml

end Laminate
