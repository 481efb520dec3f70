import Laminate.Call.Token
import Laminate.Cursor.Reader
import Laminate.Decimal.Literal

/-!
# Arguments of a call

A quoted word is a text. A bare word is a literal if it is a truth value, null, a whole number or
a number with a point or an exponent; any other bare word is a path.
-/

namespace Laminate

/-- An argument of a call. -/
inductive Argument
  | literal (value : Scalar)
  | reference (path : Cursor)
deriving DecidableEq, Repr

namespace Argument

/-- Whether a word is a number with a point or an exponent. -/
def isFractional (word : List Char) : Bool :=
  (Decimal.Literal.parse? word).isSome && word.any fun c => c == '.' || c == 'e' || c == 'E'

/-- The scalar that a bare word stands for, if it is no path. -/
def bareLiteral? (word : String) : Option Scalar :=
  if word = "true" then some (.boolean true)
  else if word = "false" then some (.boolean false)
  else if word = "nil" ∨ word = "null" ∨ word = "~" then some .null
  else
    match Numeral.integer? word.toList with
    | some i => some (.integer i)
    | none => if isFractional word.toList then some (.float word) else none

/-- The argument that a word stands for. -/
def ofToken : Token → Except SyntaxFault Argument
  | .literal text => .ok (literal (.string text))
  | .reference word =>
    match bareLiteral? word with
    | some value => .ok (literal value)
    | none => (Cursor.parse word).map reference

/-- The arguments in an argument text. -/
def parseAll (args : String) : Except SyntaxFault (List Argument) :=
  match Token.readAll args with
  | .ok tokens => tokens.mapM ofToken
  | .error fault => .error fault

end Argument

end Laminate
