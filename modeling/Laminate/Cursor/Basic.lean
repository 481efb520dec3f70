import Laminate.Node.Basic

/-!
# Cursors

A cursor is a path into a document tree: the list of its components, from the root down. In a
mapping a component is a key; in a sequence it is an index, or else the name of an element.

## Text

Components are joined with dots. A component that holds a dot itself is written in brackets,
without a dot before it, so that the text is read back as the same components. In diagnostics the
text follows a dollar sign, which stands for the root.
-/

namespace Laminate

/-- A path into a tree; the empty path is the root. -/
structure Cursor where
  components : List String
deriving DecidableEq, Repr, Inhabited

namespace Cursor

/-- The path to the root. -/
def root : Cursor := ⟨[]⟩

/-- Whether this is the path to the root. -/
def isRoot (c : Cursor) : Bool :=
  c.components.isEmpty

/-- The number of components. -/
def depth (c : Cursor) : Nat :=
  c.components.length

/-- The path one step further down. -/
def child (c : Cursor) (component : String) : Cursor :=
  ⟨c.components ++ [component]⟩

/-- The path one step up; the root is its own parent. -/
def parent (c : Cursor) : Cursor :=
  ⟨c.components.dropLast⟩

/-- The last component. -/
def last? (c : Cursor) : Option String :=
  c.components.getLast?

/-- The component at a position; a negative position counts from the end, and a position out of
range has the empty text. -/
def component (c : Cursor) (n : Int) : String :=
  let i := if n < 0 then c.depth + n else n
  if i < 0 then "" else (c.components[i.toNat]?).getD ""

/-- Whether a path leads strictly below another one. -/
def under (c other : Cursor) : Bool :=
  other.depth < c.depth && c.components.take other.depth == other.components

/-- Whether a path leads to another one or below it. -/
def within (c other : Cursor) : Bool :=
  c == other || c.under other

/-- A path leads to another one or below it if it starts with its components. -/
theorem within_iff {c other : Cursor} :
    c.within other = true ↔ other.components <+: c.components := by
  rw [List.prefix_iff_eq_take]
  simp only [within, under, Bool.or_eq_true, Bool.and_eq_true, beq_iff_eq, decide_eq_true_eq]
  constructor
  · rintro (rfl | ⟨-, h⟩)
    · exact List.take_length.symm
    · exact h.symm
  · intro h
    by_cases hlt : other.components.length < c.components.length
    · exact Or.inr ⟨hlt, h.symm⟩
    · rw [List.take_of_length_le (Nat.le_of_not_lt hlt)] at h
      cases c
      cases other
      exact Or.inl (congrArg Cursor.mk h.symm)

/-- The order of components as texts, first difference first. -/
def compare (a b : Cursor) : Ordering :=
  compareLists a.components b.components
where
  /-- Component by component; a proper beginning comes first. -/
  compareLists : List String → List String → Ordering
    | [], [] => .eq
    | [], _ :: _ => .lt
    | _ :: _, [] => .gt
    | x :: xs, y :: ys => (Ord.compare x y).then (compareLists xs ys)

/-! ## Text -/

/-- One component in the text of a path. -/
def componentText (first : Bool) (component : String) : List Char :=
  if component.toList.contains '.' then '[' :: component.toList ++ [']']
  else if first then component.toList
  else '.' :: component.toList

/-- The text of the components of a path. -/
def componentsText : List String → List Char
  | [] => []
  | first :: rest => componentText true first ++ rest.flatMap (componentText false)

/-- The text of a path. -/
def text (c : Cursor) : String :=
  String.ofList (componentsText c.components)

/-- The text of a path from the root, as diagnostics show it. -/
def qualified (c : Cursor) : String :=
  if c.isRoot then "$" else "$." ++ c.text

end Cursor

end Laminate
