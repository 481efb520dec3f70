import Laminate.Pipeline
import Laminate.Proofs.Evaluation.Requests

/-!
# Redaction

While redaction is on, a run cannot tell one secret store from another: with another store in the
context each stage does the same, and leaves the same context but for the store (`run_withStore`).
Nor does any stage ask the store for anything (`requests_run`).

The statements go up stage by stage, from the marks that merging leaves over one call, the calls
of a phase and the phases to the whole run. For what a single operator does see `IgnoresStore`
and `Proceeds`.
-/

namespace Laminate

/-! ## Merging -/

namespace Context

theorem markPruneAll_withStore (store : Option SecretStore) (paths : List Cursor) :
    ∀ ctx : Context,
    (ctx.withStore store).markPruneAll paths = (ctx.markPruneAll paths).withStore store := by
  induction paths with
  | nil => exact fun _ => rfl
  | cons path paths ih =>
    intro ctx
    exact (congrArg (·.markPruneAll paths) (ctx.markPrune_withStore store path)).trans (ih _)

theorem proceedsTo_markPruneAll (paths : List Cursor) : ∀ ctx : Context,
    ctx.ProceedsTo (ctx.markPruneAll paths) := by
  induction paths with
  | nil => exact fun ctx => .refl ctx
  | cons path paths ih =>
    intro ctx
    exact (ProceedsTo.perform (.markPrune path) trivial).trans (ih (ctx.markPrune path))

end Context

namespace Merge

variable (fallback : Fallback)

/-- The state of merging with another secret store. -/
def Stack.withStore (stack : Stack) (store : Option SecretStore) : Stack :=
  { stack with context := stack.context.withStore store }

theorem Stack.layer_withStore (stack : Stack) (store : Option SecretStore) (doc : Entries Node) :
    (stack.withStore store).layer fallback doc = (stack.layer fallback doc).withStore store :=
  congrArg (Stack.mk _ _) (Context.markPruneAll_withStore ..)

theorem Stack.layerAll_withStore (store : Option SecretStore) (docs : List Node) :
    ∀ (stack : Stack) (number : Nat),
    (stack.withStore store).layerAll fallback number docs
      = ((stack.layerAll fallback number docs).1,
          (stack.layerAll fallback number docs).2.withStore store) := by
  induction docs with
  | nil => exact fun _ _ => rfl
  | cons doc docs ih =>
    intro stack number
    cases doc with
    | mapping es =>
      rw [layerAll, layer_withStore, ih]
      rfl
    | _ => rfl

theorem documents_withStore (docs : List Node) (ctx : Context) (store : Option SecretStore) :
    documents fallback docs (ctx.withStore store)
      = ((documents fallback docs ctx).1, (documents fallback docs ctx).2.withStore store) :=
  Stack.layerAll_withStore fallback store docs { context := ctx } 1

theorem Stack.proceedsTo_layerAll (docs : List Node) : ∀ (stack : Stack) (number : Nat),
    stack.context.ProceedsTo (stack.layerAll fallback number docs).2 := by
  induction docs with
  | nil => exact fun stack _ => .refl stack.context
  | cons doc docs ih =>
    intro stack number
    cases doc with
    | mapping es =>
      have hlayer : stack.context.ProceedsTo (stack.layer fallback es).context :=
        Context.proceedsTo_markPruneAll _ _
      exact hlayer.trans (ih _ _)
    | _ => exact .refl stack.context

/-- **Merging does nothing to the context but what calls do.** -/
theorem proceedsTo_documents (docs : List Node) (ctx : Context) :
    ctx.ProceedsTo (documents fallback docs ctx).2 :=
  Stack.proceedsTo_layerAll fallback docs { context := ctx } 1

end Merge

/-! ## Evaluation -/

namespace Evaluation

/-- The state of evaluation with another secret store. -/
def withStore (state : Evaluation) (store : Option SecretStore) : Evaluation :=
  { state with context := state.context.withStore store }

variable {store : Option SecretStore}

theorem runCall_withStore {call : PlannedCall} (hcall : call.operator.IgnoresStore)
    {state : Evaluation} (hredact : state.context.redact = true) :
    (state.withStore store).runCall call
      = ((state.runCall call).1, (state.runCall call).2.withStore store) := by
  have hother := hcall ⟨state.tree, call.site.place.cursor, call.args⟩ state.context store hredact
  cases hrun : call.operator.run ⟨state.tree, call.site.place.cursor, call.args⟩ state.context with
  | mk result context =>
    rw [hrun] at hother
    -- the answer of the operator and its fate are the same with both stores
    cases result with
    | error fault =>
      rw [runCall_of_error hrun]
      exact runCall_of_error hother
    | ok response =>
      cases hrespond : respond state.tree call.site.place.cursor response with
      | error fault =>
        rw [runCall_of_respond_error hrun hrespond]
        exact runCall_of_respond_error hother hrespond
      | ok tree =>
        rw [runCall_of_ok hrun hrespond]
        exact runCall_of_ok hother hrespond

theorem runCalls_withStore {calls : List PlannedCall}
    (hcalls : ∀ call ∈ calls, call.operator.IgnoresStore ∧ call.operator.Proceeds) :
    ∀ {state : Evaluation}, state.context.redact = true →
    (state.withStore store).runCalls calls
      = ((state.runCalls calls).1, (state.runCalls calls).2.withStore store) := by
  induction calls with
  | nil => exact fun _ => rfl
  | cons call calls ih =>
    intro state hredact
    obtain ⟨⟨hcall, hproceeds⟩, hrest⟩ := List.forall_mem_cons.mp hcalls
    -- no call turns redaction off
    have hredact' : (state.runCall call).2.context.redact = true :=
      (proceedsTo_runCall hproceeds state).redact.trans hredact
    rw [runCalls_cons, runCalls_cons, runCall_withStore hcall hredact, ih hrest hredact']

theorem runPhase_withStore (budget : Nat) (phase : Phase) {state : Evaluation}
    (hredact : state.context.redact = true) :
    (state.withStore store).runPhase .builtin budget phase
      = ((state.runPhase .builtin budget phase).1,
          (state.runPhase .builtin budget phase).2.withStore store) := by
  cases budget with
  | zero => rw [runPhase_zero, runPhase_zero]
  | succ budget =>
    rw [runPhase_succ, runPhase_succ]
    -- the plan depends on the tree alone
    have htree : (state.withStore store).tree = state.tree := rfl
    rw [htree]
    cases hordered : ordered (planFor .builtin phase state.tree).calls with
    | error fault => rfl
    | ok calls =>
      have hcalls : ∀ call ∈ calls, call.operator.IgnoresStore ∧ call.operator.Proceeds := by
        intro call hcall
        have hop := find?_of_mem_planFor (mem_of_ordered hordered hcall)
        exact ⟨Operator.ignoresStore_of_builtin hop, Operator.proceeds_of_builtin hop⟩
      simp only [runCalls_withStore hcalls hredact]

theorem runPhases_withStore (budget : Nat) (phases : List Phase) : ∀ {state : Evaluation},
    state.context.redact = true →
    runPhases .builtin budget phases (state.withStore store)
      = ((runPhases .builtin budget phases state).1,
          (runPhases .builtin budget phases state).2.withStore store) := by
  induction phases with
  | nil => exact fun _ => rfl
  | cons phase phases ih =>
    intro state hredact
    have hafter := (proceedsTo_runPhase budget phase state).redact.trans hredact
    rw [runPhases, runPhases, runPhase_withStore budget phase hredact]
    generalize state.runPhase .builtin budget phase = after at hafter ⊢
    obtain ⟨result, after⟩ := after
    cases result with
    | ok => exact ih hafter
    | error failure => rfl

end Evaluation

/-! ## Whole runs -/

namespace Pipeline

theorem evaluate_withStore (options : Options) (state : Evaluation) (store : Option SecretStore)
    (hredact : state.context.redact = true) :
    evaluate options .builtin (state.withStore store)
      = ((evaluate options .builtin state).1,
          (evaluate options .builtin state).2.withStore store) := by
  have hsetup : Registry.setup .builtin = .ok () := rfl
  unfold evaluate
  rw [hsetup]
  split
  · rfl
  · exact Evaluation.runPhases_withStore options.budget Phase.all hredact

theorem proceedsTo_evaluate (options : Options) (state : Evaluation) :
    state.context.ProceedsTo (evaluate options .builtin state).2.context := by
  have hsetup : Registry.setup .builtin = .ok () := rfl
  unfold evaluate
  rw [hsetup]
  split
  · exact .refl state.context
  · exact Evaluation.proceedsTo_run options.budget state

/-- **While redaction is on, a run on a context with another store does the same.** -/
theorem run_withStore (options : Options) (docs : List Node) (ctx : Context)
    (store : Option SecretStore) (hredact : ctx.redact = true) :
    run options .builtin docs (ctx.withStore store)
      = ((run options .builtin docs ctx).1, (run options .builtin docs ctx).2.withStore store) := by
  unfold run
  cases options.prune.mapM Cursor.parse with
  | error fault => rfl
  | ok extra =>
    have hmerged :=
      (Merge.proceedsTo_documents options.fallback docs ctx).redact.trans hredact
    simp only [Merge.documents_withStore]
    generalize Merge.documents options.fallback docs ctx = merged at hmerged ⊢
    obtain ⟨result, context⟩ := merged
    cases result with
    | error failure => rfl
    | ok tree =>
      have hevaluate : evaluate options .builtin ⟨tree, context.withStore store⟩
          = ((evaluate options .builtin ⟨tree, context⟩).1,
              (evaluate options .builtin ⟨tree, context⟩).2.withStore store) :=
        evaluate_withStore options ⟨tree, context⟩ store hmerged
      simp only [hevaluate]
      generalize evaluate options .builtin ⟨tree, context⟩ = evaluated
      obtain ⟨result, state⟩ := evaluated
      cases result <;> rfl

/-- **While redaction is on, a run asks the store for nothing.** -/
theorem requests_run (options : Options) (docs : List Node) {ctx : Context}
    (hredact : ctx.redact = true) :
    (run options .builtin docs ctx).2.requests = ctx.requests := by
  unfold run
  cases options.prune.mapM Cursor.parse with
  | error fault => rfl
  | ok extra =>
    have hmerged := Merge.proceedsTo_documents options.fallback docs ctx
    generalize Merge.documents options.fallback docs ctx = merged at hmerged ⊢
    obtain ⟨result, context⟩ := merged
    cases result with
    | error failure => exact hmerged.requests hredact
    | ok tree =>
      have hevaluated := hmerged.trans (proceedsTo_evaluate options ⟨tree, context⟩)
      dsimp only
      generalize evaluate options .builtin ⟨tree, context⟩ = evaluated at hevaluated ⊢
      obtain ⟨result, state⟩ := evaluated
      cases result with
      | error failure => exact hevaluated.requests hredact
      | ok => exact hevaluated.requests hredact

/-- **While redaction is on, new runs with any two stores, or without one, have the same result,
leave the same behind, and ask neither of the stores for anything.** -/
theorem redacted_runs_agree (options : Options) (docs : List Node)
    (store store' : Option SecretStore) :
    let runOn (store : Option SecretStore) :=
      run options .builtin docs { store, redact := true }
    (runOn store).1 = (runOn store').1 ∧
      (runOn store').2 = (runOn store).2.withStore store' ∧
      (runOn store).2.requests = [] ∧ (runOn store').2.requests = [] := by
  intro runOn
  have hother : runOn store' = ((runOn store).1, (runOn store).2.withStore store') :=
    run_withStore options docs { store, redact := true } store' rfl
  rw [hother]
  exact ⟨rfl, rfl, requests_run options docs rfl, requests_run options docs rfl⟩

end Pipeline

end Laminate
