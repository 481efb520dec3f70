import Laminate.Cursor.Reader
import Laminate.Text.Split

/-!
# Dotted paths

A plain way to address a node: steps separated by dots and nothing else. In a sequence a number,
which may stand in brackets, is an index; any other step is compared with the `name` field of the
elements, and with no other field.
-/

namespace Laminate

namespace DottedPath

/-- Drops every `$.` at the front. -/
def dropRoot : List Char → List Char
  | '$' :: '.' :: cs => dropRoot cs
  | cs => cs

/-- The steps of a path; empty ones are left out. -/
def steps (path : String) : List String :=
  ((Text.split '.' (dropRoot path.toList)).filter (· ≠ [])).map String.ofList

/-- The text inside a pair of brackets, or else the text itself. -/
def unbracketed (cs : List Char) : List Char :=
  match cs with
  | '[' :: rest => if rest.getLast? = some ']' then rest.dropLast else cs
  | _ => cs

/-- The index that a step is, if it is one. -/
def index? (step : String) : Option Nat :=
  Numeral.index? (unbracketed step.toList)

end DottedPath

namespace Node

/-- One step of a dotted path. -/
def dottedStep (n : Node) (step : String) : Except Obstacle Node :=
  match n with
  | mapping es =>
    match Entries.get? es step with
    | some child => .ok child
    | none => .error .missing
  | sequence items =>
    match DottedPath.index? step with
    | some i =>
      match items[i]? with
      | some child => .ok child
      | none => .error (.outOfBounds i items.length)
    | none =>
      match items.find? fun item => item.field? "name" == some step with
      | some child => .ok child
      | none => .error .missing
  | scalar s => .error (.noSubObjects s.kind)

/-- The node at the end of the steps of a dotted path. -/
def resolveSteps (n : Node) : List String → Except NotFound Node
  | [] => .ok n
  | s :: steps =>
    match n.dottedStep s with
    | .error obstacle => .error ⟨[s], obstacle⟩
    | .ok child => (child.resolveSteps steps).mapError (·.within s)

/-- The node that a dotted path leads to. -/
def resolveDotted (n : Node) (path : String) : Except NotFound Node :=
  n.resolveSteps (DottedPath.steps path)

end Node

end Laminate
