import Laminate.Operator.Basic
import Laminate.Walk.Visitors

/-!
# Operators on references

* `grab` gives the value at a path, or a list of the values at several paths.
* `inject` puts the entries of a mapping beside its own call.
* `param` stands for a value that a later document has to set; to run it at all is the fault.
* `prune` marks its own place for removal in the end.
-/

namespace Laminate.Operator

/-- The value of the only argument, or the list of the values of several. -/
def grabValue (input : CallInput) : Except OperatorFault Response :=
  match input.args with
  | [] => .error (.noArguments "grab")
  | [single] => (single.resolve input.tree).map .replace
  | _ => input.values.map fun values => .replace (.sequence values)

/-- The value at a path. -/
def grab : Operator where
  phase := .eval
  run input := .ofExcept (grabValue input)

/-- The entries of the mapping that the only argument refers to. -/
def injectEntries (input : CallInput) : Except OperatorFault Response :=
  match input.args with
  | [.reference path] =>
    match (Argument.reference path).resolve input.tree with
    | .ok (.mapping es) => .ok (.inject es)
    | .ok other => .error (.injectKind path other.kind)
    | .error fault => .error fault
  | _ => .error .injectArguments

/-- The entries of a mapping, put beside the call. -/
def inject : Operator where
  phase := .merge
  run input := .ofExcept (injectEntries input)

/-- The message of a parameter: the text of its first argument. -/
def parameterMessage (input : CallInput) : String :=
  match input.args with
  | [] => defaultParameterMessage
  | first :: _ =>
    match first.resolve input.tree with
    | .ok value => value.text?.getD defaultParameterMessage
    | .error _ => defaultParameterMessage

/-- A value that has to be set. It waits for nothing. -/
def param : Operator where
  phase := .param
  dependencies := fun _ _ _ _ => []
  run input := .ofExcept (.error (.parameter (parameterMessage input)))

/-- Marks the place of the call for removal. -/
def prune : Operator where
  phase := .eval
  run input := fun ctx => (.ok (.replace .null), ctx.markPrune input.here)

end Laminate.Operator
