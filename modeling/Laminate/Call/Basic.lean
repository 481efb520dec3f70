import Laminate.Text.Blank

/-!
# Operator calls in text

A text is an operator call when all of it, blanks at its ends apart, is

    (( name arguments ))

The name starts with a letter and goes on with letters, digits, `_` and `-`, as far as such
characters reach. The arguments are what stands between the name and the closing parentheses
without the blanks around it; a line break may stand among those blanks but not inside the
arguments. Any blanks may be left out.
-/

namespace Laminate

/-- A call: the name of an operator and the text of its arguments. -/
structure Call where
  name : String
  args : String
deriving DecidableEq, Repr

namespace Call

/-- Characters that a name may start with. -/
def isNameStart (c : Char) : Bool :=
  c.isAlpha

/-- Characters that a name may go on with. -/
def isNameChar (c : Char) : Bool :=
  c.isAlphanum || c == '_' || c == '-'

/-- What stands between double parentheses. -/
def inner? (cs : List Char) : Option (List Char) :=
  match cs with
  | '(' :: '(' :: rest =>
    match rest.reverse with
    | ')' :: ')' :: body => some body.reverse
    | _ => none
  | _ => none

/-- The name and the arguments inside the parentheses. -/
def ofInner? (cs : List Char) : Option Call :=
  match Text.trimStart cs with
  | [] => none
  | c :: rest =>
    let args := Text.trim (rest.dropWhile isNameChar)
    if isNameStart c ∧ '\n' ∉ args then
      some ⟨String.ofList (c :: rest.takeWhile isNameChar), String.ofList args⟩
    else none

/-- Recognizes a call. -/
def parse? (text : String) : Option Call :=
  (inner? (Text.trim text.toList)).bind ofInner?

/-- Whether a text is a call to a given operator. -/
def isCallTo (text name : String) : Bool :=
  match parse? text with
  | some call => call.name == name
  | none => false

end Call

end Laminate
