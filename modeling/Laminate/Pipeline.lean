import Laminate.Evaluate
import Laminate.Merge.Documents
import Laminate.Prune

/-!
# The whole run

Documents are merged, the operator calls of the result are evaluated, and the paths that were
marked on the way are removed together with the paths that the caller names. Without evaluation
the other two steps are done all the same.
-/

namespace Laminate

namespace Pipeline

/-- How a run is done. -/
structure Options where
  fallback : Merge.Fallback := .inline
  budget : Nat := Walk.defaultBudget
  /-- Whether operator calls are left in place. -/
  skipEvaluation : Bool := false
  /-- Further paths to remove from the result. -/
  prune : List String := []

/-- Sets up the operators and evaluates a tree. -/
def evaluate (options : Options) (registry : Registry) (state : Evaluation) :
    Except Failure Unit × Evaluation :=
  if options.skipEvaluation then (.ok (), state)
  else
    match registry.setup with
    | .error fault => (.error (.single fault), state)
    | .ok () => state.run registry options.budget

/-- Takes the marked paths out of the context and removes them and further ones from the tree. -/
def finish (extra : List Cursor) (state : Evaluation) : Node × Context :=
  ((state.tree.prune (state.context.prune ++ extra)).1, { state.context with prune := [] })

/-- Merges documents, evaluates the result and removes the marked paths. -/
def run (options : Options) (registry : Registry) (docs : List Node) (context : Context) :
    Except Failure Node × Context :=
  match options.prune.mapM Cursor.parse with
  | .error fault => (.error (.single (.malformed fault)), context)
  | .ok extra =>
    match Merge.documents options.fallback docs context with
    | (.error failure, context) => (.error failure, context)
    | (.ok tree, context) =>
      match evaluate options registry ⟨tree, context⟩ with
      | (.error failure, state) => (.error failure, state.context)
      | (.ok (), state) =>
        let (tree, context) := finish extra state
        (.ok tree, context)

end Pipeline

end Laminate
