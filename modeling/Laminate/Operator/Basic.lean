import Laminate.Call.Argument
import Laminate.Context
import Laminate.Cursor.Lookup

/-!
# Operators

An operator computes what takes the place of a call. It says in which phase it runs and which
paths it must see in their final state; that decides when a call runs. It sees the tree as it is
at that moment and may use the context of the run, but it never changes the tree itself.
-/

namespace Laminate

/-- A stage of evaluation; all calls of one stage are done before the next one starts. -/
inductive Phase
  | merge
  | param
  | eval
deriving DecidableEq, Repr

/-- The phases in order. -/
def Phase.all : List Phase := [.merge, .param, .eval]

/-- What becomes of a call site. -/
inductive Response
  /-- The value takes the place of the call. -/
  | replace (value : Node)
  /-- The key of the call goes, and the entries join its mapping. -/
  | inject (entries : Entries Node)
deriving Repr

/-- What an operator sees: the tree at this point, the place of the call, and its arguments. -/
structure CallInput where
  tree : Node
  here : Cursor
  args : List Argument

/-- A computation that may use the context of the run; what it has done to the context stays, even
if it fails. -/
abbrev Running (α : Type) := Context → Except OperatorFault α × Context

/-- An operator. -/
structure Operator where
  phase : Phase
  /-- Is done once before evaluation. -/
  setup : Except OperatorFault Unit := .ok ()
  /-- The paths that a call has to wait for, given its place, the tree, its arguments, and the
  canonical forms of the existing beginnings of its references. -/
  dependencies : Cursor → Node → List Argument → List Cursor → List Cursor :=
    fun _ _ _ automatic => automatic
  run : CallInput → Running Response

namespace Argument

/-- The value of an argument in a tree. -/
def resolve (tree : Node) : Argument → Except OperatorFault Node
  | literal value => .ok (.scalar value)
  | reference path => (path.resolve tree).mapError (.unresolved path)

end Argument

namespace CallInput

/-- The values of all arguments, in order. -/
def values (input : CallInput) : Except OperatorFault (List Node) :=
  input.args.mapM (Argument.resolve input.tree)

end CallInput

/-- A computation that does not use the context. -/
def Running.ofExcept {α : Type} (result : Except OperatorFault α) : Running α :=
  fun ctx => (result, ctx)

/-- The text of a scalar for use in a longer text; `what` names it in the fault. -/
def Node.textFor (what : String) (n : Node) : Except OperatorFault String :=
  match n.text? with
  | some text => .ok text
  | none => .error (.notText what n.kind)

/-! ## Registries -/

/-- Operators under their names, in the order in which they were registered. -/
abbrev Registry := Entries Operator

namespace Registry

/-- Adds an operator, or puts it in the place of the one of the same name. -/
def register (registry : Registry) (name : String) (op : Operator) : Registry :=
  Entries.insert registry name op

/-- The operator of a name. -/
def find? (registry : Registry) (name : String) : Option Operator :=
  Entries.get? registry name

/-- Sets up all operators in order; the first failure ends it. -/
def setup : Registry → Except Fault Unit
  | [] => .ok ()
  | (name, op) :: rest =>
    match op.setup with
    | .ok () => setup rest
    | .error fault => .error (.operator "$" (.setupFailed name fault))

end Registry

end Laminate
