import Laminate.Fault

/-!
# Reading cursors

The text of a path is cut into components at dots and brackets. A bracket always cuts; a dot cuts
only outside brackets, so a bracketed component may hold dots. Empty components are dropped, and
so are components that are a lone dollar sign while no component has been kept yet: they stand
for the root.
-/

namespace Laminate.Cursor

/-- The state of reading: the components so far, the characters of the current one, and the
position of the bracket that is open. -/
structure Reader where
  components : List String
  current : List Char
  bracket : Option Nat
deriving DecidableEq, Repr

namespace Reader

/-- Nothing read yet. -/
def start : Reader := ⟨[], [], none⟩

/-- Ends the current component. -/
def flush (r : Reader) : Reader :=
  if r.current = [] ∨ (r.components = [] ∧ r.current = ['$']) then { r with current := [] }
  else { r with components := r.components ++ [String.ofList r.current], current := [] }

/-- Reads the character at a position. -/
def step (r : Reader) (position : Nat) (c : Char) : Except SyntaxFault Reader :=
  if c = '.' ∧ r.bracket = none then .ok r.flush
  else if c = '[' then
    match r.bracket with
    | some _ => .error ⟨.nestedBracket, position⟩
    | none => .ok { r.flush with bracket := some position }
  else if c = ']' then
    match r.bracket with
    | none => .error ⟨.strayBracket, position⟩
    | some _ => .ok { r.flush with bracket := none }
  else .ok { r with current := r.current ++ [c] }

/-- Ends the text. -/
def finish (r : Reader) : Except SyntaxFault Cursor :=
  match r.bracket with
  | some position => .error ⟨.unclosedBracket, position⟩
  | none => .ok ⟨r.flush.components⟩

/-- Reads the characters from a position on. -/
def read (r : Reader) (position : Nat) : List Char → Except SyntaxFault Cursor
  | [] => r.finish
  | c :: cs =>
    match r.step position c with
    | .ok r => r.read (position + 1) cs
    | .error fault => .error fault

end Reader

/-- Reads the text of a path. -/
def ofChars (cs : List Char) : Except SyntaxFault Cursor :=
  Reader.start.read 0 cs

/-- Reads the text of a path. -/
def parse (text : String) : Except SyntaxFault Cursor :=
  ofChars text.toList

end Laminate.Cursor
