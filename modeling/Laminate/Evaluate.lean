import Laminate.Operator.Basic
import Laminate.Schedule
import Laminate.Walk.Visitors

/-!
# Evaluation

Evaluation goes through the phases in order. In each phase the operator calls of the tree are
found, those whose operator belongs to the phase are put into an order in which every call comes
after the calls that it waits for, and then they run one after the other, each result taking its
place in the tree before the next call runs.

A call waits for another one if a path that it depends on is the place of the other one or leads
to something that contains it. Calls that wait for each other end the evaluation before any of
them has run. All other faults are collected, and a phase with faults ends the evaluation.
-/

namespace Laminate

/-- A call that is ready to be put into an order. -/
structure PlannedCall where
  site : CallSite
  operator : Operator
  args : List Argument
  dependencies : List Cursor

/-- The state of evaluation. -/
structure Evaluation where
  tree : Node
  context : Context

namespace Evaluation

/-! ## Dependencies -/

/-- The canonical form of the longest beginning of a path that leads somewhere, the empty one
apart. -/
def existingBeginning? (tree : Node) (path : Cursor) : Option Cursor :=
  (List.range path.depth).reverse.findSome? fun k =>
    (Cursor.canonical ⟨path.components.take (k + 1)⟩ tree).toOption

/-- The canonical forms of the existing beginnings of all references among arguments. -/
def automaticDependencies (tree : Node) (args : List Argument) : List Cursor :=
  args.filterMap fun arg =>
    match arg with
    | .literal _ => none
    | .reference path => existingBeginning? tree path

/-- Whether a call has to wait for what stands at a place. -/
def waitsFor (dependencies : List Cursor) (place : Cursor) : Bool :=
  dependencies.any fun dependency => place.within dependency

/-! ## Planning -/

/-- The plan of a phase: the calls in document order, and the faults of those that cannot be
planned. -/
structure Plan where
  calls : List PlannedCall := []
  faults : List Fault := []

/-- Plans the call at a site. Calls of other phases are left out; a call to an unknown operator is
reported in the last phase. -/
def Plan.add (registry : Registry) (phase : Phase) (tree : Node) (plan : Plan) (site : CallSite) :
    Plan :=
  match registry.find? site.call.name with
  | none =>
    if phase = .eval then
      { plan with faults :=
          plan.faults ++ [.operator site.place.path (.unknownOperator site.call.name)] }
    else plan
  | some op =>
    if op.phase ≠ phase then plan
    else
      match Argument.parseAll site.call.args with
      | .error fault =>
        { plan with faults := plan.faults ++ [.operator site.place.path (.argumentText fault)] }
      | .ok args =>
        let automatic := automaticDependencies tree args
        let dependencies := op.dependencies site.place.cursor tree args automatic
        { plan with calls := plan.calls ++ [⟨site, op, args, dependencies⟩] }

/-- Plans the calls at the given sites. -/
def Plan.ofSites (registry : Registry) (phase : Phase) (tree : Node) (sites : List CallSite) :
    Plan :=
  sites.foldl (Plan.add registry phase tree) {}

/-- The calls as tasks. -/
def tasks (calls : List PlannedCall) : Tasks where
  count := calls.length
  waits i j :=
    match calls[i]?, calls[j]? with
    | some call, some other => waitsFor call.dependencies other.site.place.cursor
    | _, _ => false

/-- The fault of calls that wait for each other. -/
def cycleFault (calls : List PlannedCall) (stuck : List Nat) : Fault :=
  let paths := stuck.filterMap fun i => (calls[i]?).map fun call => call.site.place.path
  .cycle "$" (.dataFlow (paths.mergeSort fun a b => decide (a ≤ b)))

/-- The numbers of the calls in an order in which each comes after those that it waits for. -/
def schedule (calls : List PlannedCall) : Except Fault (List Nat) :=
  (tasks calls).schedule.mapError (cycleFault calls)

/-- The calls in an order in which each comes after those that it waits for. -/
def ordered (calls : List PlannedCall) : Except Fault (List PlannedCall) :=
  (schedule calls).map fun order => order.filterMap fun i => calls[i]?

/-! ## Running -/

/-- The tree with a key replaced by entries; keys that its mapping has otherwise win. -/
def injectAt (tree : Node) (here : Cursor) (entries : Entries Node) : Except Fault Node :=
  match here.last? with
  | none => .error (.structural "$" .injectAtRoot)
  | some key =>
    match here.parent.resolve tree with
    | .error fault => .error (.notFound fault)
    | .ok (.mapping siblings) =>
      let merged := entries.foldl (fun es e => Entries.insertNew es e.1 e.2)
        (Entries.erase siblings key)
      (here.parent.replace tree (.mapping merged)).mapError .notFound
    | .ok _ => .error (.structural here.qualified .injectOutsideMap)

/-- The tree after the response of a call. -/
def respond (tree : Node) (here : Cursor) : Response → Except Fault Node
  | .replace value => (here.replace tree value).mapError .notFound
  | .inject entries => injectAt tree here entries

/-- Runs one call; a call that fails leaves the tree as it is. -/
def runCall (state : Evaluation) (call : PlannedCall) : List Fault × Evaluation :=
  let here := call.site.place.cursor
  let (result, context) := call.operator.run ⟨state.tree, here, call.args⟩ state.context
  match result with
  | .error fault => ([.operator call.site.place.path (.failed fault)], ⟨state.tree, context⟩)
  | .ok response =>
    match respond state.tree here response with
    | .ok tree => ([], ⟨tree, context⟩)
    | .error fault => ([fault], ⟨state.tree, context⟩)

/-- Runs calls in order. -/
def runCalls (state : Evaluation) : List PlannedCall → List Fault × Evaluation
  | [] => ([], state)
  | call :: calls =>
    let (first, state) := state.runCall call
    let (rest, state) := state.runCalls calls
    (first ++ rest, state)

/-- Runs one phase. -/
def runPhase (registry : Registry) (budget : Nat) (phase : Phase) (state : Evaluation) :
    Except Failure Unit × Evaluation :=
  match CallSite.collect state.tree budget with
  | .error faults => (.error (.several faults), state)
  | .ok sites =>
    let plan := Plan.ofSites registry phase state.tree sites
    match ordered plan.calls with
    | .error fault => (.error (.single fault), state)
    | .ok calls =>
      let (faults, state) := state.runCalls calls
      ((Faults.toExcept ⟨plan.faults ++ faults⟩ ()).mapError .several, state)

/-- Runs phases in order, until one fails. -/
def runPhases (registry : Registry) (budget : Nat) :
    List Phase → Evaluation → Except Failure Unit × Evaluation
  | [], state => (.ok (), state)
  | phase :: phases, state =>
    match state.runPhase registry budget phase with
    | (.ok (), state) => runPhases registry budget phases state
    | (.error failure, state) => (.error failure, state)

/-- Runs all phases. -/
def run (registry : Registry) (budget : Nat) (state : Evaluation) :
    Except Failure Unit × Evaluation :=
  runPhases registry budget Phase.all state

end Evaluation

end Laminate
