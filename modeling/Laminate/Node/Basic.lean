import Laminate.Node.Entries
import Laminate.Text.Numeral

/-!
# Document trees

A node is a scalar, a sequence or a mapping from distinct text keys to nodes. Mappings remember
the order in which their keys were inserted, but the order is no part of their value:
`Node.same` compares two nodes up to it. A fractional number keeps the text it was written
with, and is compared by that text.

That keys are distinct, and positions in sequences small enough to be indices, is said by
`Node.WellFormed`.
-/

namespace Laminate

/-- An atomic value. -/
inductive Scalar
  | null
  | boolean (value : Bool)
  | integer (value : Int64)
  | float (text : String)
  | string (text : String)
deriving DecidableEq, Inhabited, Repr

/-- A document tree. -/
inductive Node
  | scalar (value : Scalar)
  | sequence (items : List Node)
  | mapping (entries : List (String × Node))
deriving Repr

/-- What a node is, as diagnostics name it. -/
inductive Kind
  | map
  | list
  | string
  | integer
  | float
  | boolean
  | null
deriving DecidableEq, Repr

/-- The name of a kind in messages. -/
def Kind.name : Kind → String
  | .map => "map"
  | .list => "list"
  | .string => "string"
  | .integer => "integer"
  | .float => "float"
  | .boolean => "boolean"
  | .null => "null"

namespace Scalar

/-- The kind of a scalar. -/
def kind : Scalar → Kind
  | .null => .null
  | .boolean _ => .boolean
  | .integer _ => .integer
  | .float _ => .float
  | .string _ => .string

/-- A scalar as text; null has none. -/
def text? : Scalar → Option String
  | .null => none
  | .boolean true => some "true"
  | .boolean false => some "false"
  | .integer i => some (Numeral.integerText i)
  | .float text => some text
  | .string text => some text

end Scalar

namespace Node

/-- The null node. -/
abbrev null : Node := .scalar .null

/-- A text node. -/
abbrev string (text : String) : Node := .scalar (.string text)

/-- An integer node. -/
abbrev integer (i : Int64) : Node := .scalar (.integer i)

/-- A truth value node. -/
abbrev boolean (b : Bool) : Node := .scalar (.boolean b)

instance : Inhabited Node := ⟨null⟩

/-- A mapping of the given pairs; of several pairs with one key the first one counts. -/
def ofEntries (pairs : List (String × Node)) : Node :=
  .mapping (Entries.ofList pairs)

/-- The kind of a node. -/
def kind : Node → Kind
  | scalar s => s.kind
  | sequence _ => .list
  | mapping _ => .map

/-- Whether a node is a scalar. -/
def isScalar : Node → Bool
  | scalar _ => true
  | _ => false

/-- Whether a node is null. -/
def isNull : Node → Bool
  | scalar .null => true
  | _ => false

/-- Whether a node is a mapping. -/
def isMapping : Node → Bool
  | mapping _ => true
  | _ => false

/-- Whether a node is a sequence. -/
def isSequence : Node → Bool
  | sequence _ => true
  | _ => false

/-- The text of a text node. -/
def string? : Node → Option String
  | scalar (.string s) => some s
  | _ => none

/-- The value of an integer node. -/
def integer? : Node → Option Int64
  | scalar (.integer i) => some i
  | _ => none

/-- The entries of a mapping. -/
def entries? : Node → Option (Entries Node)
  | mapping es => some es
  | _ => none

/-- The items of a sequence. -/
def items? : Node → Option (List Node)
  | sequence items => some items
  | _ => none

/-- The value under a key of a mapping. -/
def get? : Node → String → Option Node
  | mapping es, key => Entries.get? es key
  | _, _ => none

/-- A scalar as text. Null, sequences and mappings have none. -/
def text? : Node → Option String
  | scalar s => s.text?
  | _ => none

/-- The text of the scalar under a key. -/
def field? (n : Node) (key : String) : Option String :=
  (n.get? key).bind text?

/-- The keys under which an element of a sequence may carry a name, first choice first. -/
def nameFields : List String := ["name", "key", "id"]

/-- The name of an element: the first of its name fields that holds a scalar with a text. -/
def name? (n : Node) : Option String :=
  nameFields.findSome? n.field?

/-- Whether one of the name fields of an element holds this text. -/
def isNamed (n : Node) (name : String) : Bool :=
  nameFields.any fun field => n.field? field == some name

/-! ## Equality up to the order of keys -/

mutual

/-- Equality of nodes, the order of the keys of mappings apart. -/
def same : Node → Node → Bool
  | scalar a, scalar b => a == b
  | sequence as, sequence bs => sameItems as bs
  | mapping as, mapping bs => as.length == bs.length && sameEntries as bs
  | _, _ => false
termination_by structural a => a

/-- Sequences are the same if they are element by element. -/
def sameItems : List Node → List Node → Bool
  | [], [] => true
  | a :: as, b :: bs => same a b && sameItems as bs
  | _, _ => false
termination_by structural as => as

/-- Whether each of the entries is in the other mapping with the same value. -/
def sameEntries : List (String × Node) → Entries Node → Bool
  | [], _ => true
  | (key, a) :: as, bs =>
    (match Entries.get? bs key with
      | some b => same a b
      | none => false) && sameEntries as bs
termination_by structural as => as

end

/-! ## Well-formed trees -/

/-- Trees in which every mapping has distinct keys and every position of a sequence is an index. -/
inductive WellFormed : Node → Prop
  | scalar (s : Scalar) : WellFormed (.scalar s)
  | sequence {items : List Node} (size : items.length ≤ Numeral.indexBound)
      (items_wf : ∀ n ∈ items, WellFormed n) : WellFormed (.sequence items)
  | mapping {es : Entries Node} (nodup : (Entries.keys es).Nodup)
      (values_wf : ∀ e ∈ es, WellFormed e.2) : WellFormed (.mapping es)

theorem WellFormed.items {items : List Node} :
    (Node.sequence items).WellFormed → ∀ n ∈ items, n.WellFormed
  | .sequence _ items_wf => items_wf

/-- Every position of a sequence is an index. -/
theorem WellFormed.index_lt {items : List Node} {i : Nat} {item : Node}
    (h : (Node.sequence items).WellFormed) (hi : items[i]? = some item) :
    i < Numeral.indexBound := by
  cases h with
  | sequence size => exact Nat.lt_of_lt_of_le (List.getElem?_eq_some_iff.mp hi).1 size

theorem WellFormed.nodup {es : Entries Node} :
    (Node.mapping es).WellFormed → (Entries.keys es).Nodup
  | .mapping nodup _ => nodup

theorem WellFormed.values {es : Entries Node} :
    (Node.mapping es).WellFormed → ∀ e ∈ es, e.2.WellFormed
  | .mapping _ values_wf => values_wf

/-- Induction on a tree: a container has the property if its children have it. -/
@[elab_as_elim]
theorem induction {motive : Node → Prop} (scalar : ∀ s, motive (.scalar s))
    (sequence : ∀ items, (∀ n ∈ items, motive n) → motive (.sequence items))
    (mapping : ∀ es : Entries Node, (∀ e ∈ es, motive e.2) → motive (.mapping es)) :
    ∀ n, motive n :=
  @Node.rec motive (fun items => ∀ n ∈ items, motive n) (fun es => ∀ e ∈ es, motive e.2)
    (fun e => motive e.2) scalar sequence mapping
    (fun _ h => nomatch h)
    (fun _ _ hn hitems => List.forall_mem_cons.mpr ⟨hn, hitems⟩)
    (fun _ h => nomatch h)
    (fun _ _ he hes => List.forall_mem_cons.mpr ⟨he, hes⟩)
    (fun _ _ hn => hn)

end Node

end Laminate
