import Laminate.Call.Basic
import Laminate.Call.Token
import Laminate.Fault

/-!
# List directives

The first element of an incoming list may say how the list is merged: a call to one of seven
directives. `insert` and `delete` edit the base list at an anchor, which is a position or the
name of an element; a list may hold several of them.
-/

namespace Laminate.Merge

/-- A place in a list. -/
inductive Anchor
  /-- A position; the position -1 is the end. -/
  | index (i : Int64)
  /-- The element that has this name under this key. -/
  | named (key name : String)
deriving DecidableEq, Repr

/-- An edit of the base list. -/
inductive Edit
  | insert (after : Bool) (anchor : Anchor)
  | delete (anchor : Anchor)
deriving DecidableEq, Repr

/-- How an incoming list is merged. -/
inductive Directive
  | inline
  | replace
  | append
  | prepend
  | merge (key : String)
  | edit (edit : Edit)
deriving DecidableEq, Repr

/-- The key by which elements are matched unless another one is given. -/
def defaultKey : String := "name"

namespace Anchor

/-- The anchor that the words of a directive give. -/
def ofTokens : List Token → Except DirectiveProblem Anchor
  | [.reference word] =>
    match Numeral.integer? word.toList with
    | some i => .ok (index i)
    | none => .error (.invalidIndex word)
  | [.literal name] => .ok (named defaultKey name)
  | [.reference key, .literal name] => .ok (named key name)
  | [.reference on, .reference key, .literal name] =>
    if on = "on" then .ok (named key name) else .error .anchorExpected
  | _ => .error .anchorExpected

end Anchor

namespace Directive

/-- The names of the directives. -/
def names : List String :=
  ["inline", "replace", "append", "prepend", "merge", "insert", "delete"]

/-- The directive of a given name with the given words. -/
def ofWords (name : String) (words : List Token) : Except DirectiveProblem Directive :=
  match name, words with
  | "inline", [] => .ok inline
  | "replace", [] => .ok replace
  | "append", [] => .ok append
  | "prepend", [] => .ok prepend
  | "merge", [] => .ok (merge defaultKey)
  | "merge", [on, key] =>
    if on.text = "on" then .ok (merge key.text) else .error (.malformed name)
  | "insert", relative :: rest =>
    if relative.text = "before" then
      (Anchor.ofTokens rest).map fun anchor => edit (.insert false anchor)
    else if relative.text = "after" then
      (Anchor.ofTokens rest).map fun anchor => edit (.insert true anchor)
    else .error (.malformed name)
  | "delete", words => (Anchor.ofTokens words).map fun anchor => edit (.delete anchor)
  | _, _ => .error (.malformed name)

/-- The directive that a call is, if its name is that of a directive. -/
def ofCall? (call : Call) : Option (Except StructuralProblem Directive) :=
  if call.name ∈ names then
    match Token.readAll call.args with
    | .error fault => some (.error (.directiveText fault))
    | .ok words =>
      some ((ofWords call.name words).mapError (.directive call.name call.args))
  else none

/-- The directive that an element of a list is; other elements are data. -/
def ofNode? (n : Node) : Option (Except StructuralProblem Directive) :=
  (n.string?.bind Call.parse?).bind ofCall?

end Directive

end Laminate.Merge
