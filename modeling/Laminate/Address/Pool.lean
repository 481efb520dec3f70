import Laminate.Address.IPv4
import Laminate.Fault
import Laminate.Text.Blank

/-!
# Address pools

The static addresses of a network, as inclusive ranges in the order in which they are declared.
An offset counts through the ranges one after the other; the ranges are never written out, so a
pool may span the whole address space. `Pool.addresses` writes them out, for comparison.
-/

namespace Laminate

/-- An inclusive range of addresses. -/
structure AddressRange where
  first : UInt32
  last : UInt32
  ordered : first ≤ last
deriving DecidableEq, Repr

namespace AddressRange

/-- Reads one address, blanks around it apart. -/
def address? (cs : List Char) : Except OperatorFault UInt32 :=
  let trimmed := Text.trim cs
  match IPv4.parse? trimmed with
  | some address => .ok address.number
  | none => .error (.invalidAddress (String.ofList trimmed))

/-- Reads a range: two addresses with a dash between them, or a single address. -/
def parse (text : String) : Except OperatorFault AddressRange := do
  let (first, last) ←
    match Text.splitFirst? '-' text.toList with
    | some (a, b) => do
      let first ← address? a
      let last ← address? b
      pure (first, last)
    | none => do
      let single ← address? text.toList
      pure (single, single)
  if h : first ≤ last then pure ⟨first, last, h⟩ else throw (.reversedRange text)

/-- The number of addresses. -/
def size (r : AddressRange) : Nat :=
  r.last.toNat - r.first.toNat + 1

/-- The address at an offset. -/
def nth (r : AddressRange) (offset : Nat) : IPv4 :=
  ⟨UInt32.ofNat (r.first.toNat + offset)⟩

end AddressRange

/-- The address ranges of a network. -/
abbrev Pool := List AddressRange

namespace Pool

/-- The number of addresses; an address in two ranges counts twice. -/
def size (pool : Pool) : Nat :=
  pool.foldr (fun r count => r.size + count) 0

/-- The address at an offset. -/
def nth? : Pool → Nat → Option IPv4
  | [], _ => none
  | r :: pool, offset =>
    if offset < r.size then some (r.nth offset) else nth? pool (offset - r.size)

/-- All addresses, range after range. -/
def addresses (pool : Pool) : List IPv4 :=
  pool.flatMap fun r => (List.range r.size).map r.nth

/-- The texts of ranges that a subnet declares: a list of them, or a single one. -/
def declared (subnet : Node) : List Node :=
  match subnet.get? "static" with
  | some (.sequence items) => items
  | some (.scalar .null) => []
  | some (.scalar s) => [.scalar s]
  | _ => []

/-- The range that a declaration gives. -/
def rangeOf (network : String) (n : Node) : Except OperatorFault AddressRange :=
  match n.string? with
  | some text => AddressRange.parse text
  | none => .error (.rangeKind network n.kind)

/-- The pool of a network: the ranges of its subnets, in order. -/
def ofNetwork (network : Node) (name : String) : Except OperatorFault Pool :=
  match (network.get? "subnets").bind Node.items? with
  | none => .error (.noSubnets name)
  | some subnets => (subnets.flatMap declared).mapM (rangeOf name)

end Pool

end Laminate
