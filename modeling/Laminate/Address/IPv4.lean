import Laminate.Text.Numeral
import Laminate.Text.Split

/-!
# IPv4 addresses

Addresses in dotted decimal form: four numbers below 256, none with a superfluous leading zero.
Different addresses have different texts (`text_injective`).
-/

namespace Laminate

/-- An IPv4 address as a 32-bit number, its first octet the most significant one. -/
structure IPv4 where
  number : UInt32
deriving DecidableEq, Repr

namespace IPv4

/-- The address with the given octets. -/
def ofOctets (a b c d : Nat) : IPv4 :=
  ⟨UInt32.ofNat (((a * 256 + b) * 256 + c) * 256 + d)⟩

/-- The octet at a place; place 3 is the most significant one. -/
def octet (address : IPv4) (place : Nat) : Nat :=
  address.number.toNat / Nat.pow 256 place % 256

/-- An octet in decimal: no sign, no leading zero, below 256. -/
def octet? (cs : List Char) : Option Nat :=
  if 1 < cs.length ∧ cs.head? = some '0' then none
  else (Numeral.nat? cs).filter (· < 256)

/-- Reads an address in dotted decimal form. -/
def parse? (cs : List Char) : Option IPv4 :=
  match (Text.split '.' cs).map octet? with
  | [some a, some b, some c, some d] => some (ofOctets a b c d)
  | _ => none

/-- The dotted decimal form of an address. -/
def text (address : IPv4) : String :=
  ".".intercalate ([3, 2, 1, 0].map fun place => Numeral.text (address.octet place))

theorem toList_text (address : IPv4) : address.text.toList =
    Numeral.digits (address.octet 3) ++ '.' :: (Numeral.digits (address.octet 2) ++
      '.' :: (Numeral.digits (address.octet 1) ++ '.' :: Numeral.digits (address.octet 0))) := by
  simp [text, Numeral.toList_text]

theorem digits_append_inj {m n : Nat} {cs ds : List Char}
    (h : Numeral.digits m ++ '.' :: cs = Numeral.digits n ++ '.' :: ds) : m = n ∧ cs = ds := by
  obtain ⟨hdigits, hrest⟩ := Text.append_cons_inj
    (Numeral.notMem_digits rfl m) (Numeral.notMem_digits rfl n) h
  exact ⟨Numeral.digits_injective hdigits, hrest⟩

theorem text_injective {a b : IPv4} (h : a.text = b.text) : a = b := by
  have hlist := congrArg String.toList h
  rw [toList_text, toList_text] at hlist
  obtain ⟨h3, hlist⟩ := digits_append_inj hlist
  obtain ⟨h2, hlist⟩ := digits_append_inj hlist
  obtain ⟨h1, hlist⟩ := digits_append_inj hlist
  have h0 := Numeral.digits_injective hlist
  -- four octets make up all of a number with 32 bits
  obtain ⟨a⟩ := a
  obtain ⟨b⟩ := b
  have ha := a.toNat_lt
  have hb := b.toNat_lt
  simp only [octet, Nat.pow_eq, Nat.reducePow] at h0 h1 h2 h3
  exact congrArg IPv4.mk (UInt32.toNat_inj.mp (by omega))

end IPv4

end Laminate
