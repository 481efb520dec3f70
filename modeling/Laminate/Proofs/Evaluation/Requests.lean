import Laminate.Proofs.Evaluation.Running
import Laminate.Proofs.Operator.Context

/-!
# Requests of a run

Whatever happens in a run of evaluation, the context goes on only by operations that calls do
(`proceedsTo_run`). So a run on a context that remembers no answers asks the store at most once for
each path, and all calls that need a secret of this path are told the answer to that one request.
-/

namespace Laminate.Evaluation

variable {registry : Registry} {budget : Nat} {phase : Phase}

/-- The calls of a plan are calls to the operators of the registry. -/
theorem find?_of_mem_planFor {tree : Node} {call : PlannedCall}
    (h : call ∈ (planFor registry phase tree).calls) :
    registry.find? call.site.call.name = some call.operator :=
  (plannedCall?_eq_some.mp (mem_planFor_calls.mp h).2).1

/-! ## What a run does to the context -/

theorem proceedsTo_runCall {call : PlannedCall} (hcall : call.operator.Proceeds)
    (state : Evaluation) : state.context.ProceedsTo (state.runCall call).2.context := by
  rw [context_runCall (Prod.eta _).symm]
  exact hcall _ _

theorem proceedsTo_runCalls {calls : List PlannedCall}
    (hcalls : ∀ call ∈ calls, call.operator.Proceeds) : ∀ state : Evaluation,
    state.context.ProceedsTo (state.runCalls calls).2.context := by
  induction calls with
  | nil => exact fun state => .refl state.context
  | cons call calls ih =>
    intro state
    obtain ⟨hcall, hrest⟩ := List.forall_mem_cons.mp hcalls
    exact (proceedsTo_runCall hcall state).trans (ih hrest _)

theorem proceedsTo_runPhase (budget : Nat) (phase : Phase) (state : Evaluation) :
    state.context.ProceedsTo (state.runPhase .builtin budget phase).2.context := by
  cases budget with
  | zero =>
    rw [runPhase_zero]
    exact .refl _
  | succ budget =>
    rw [runPhase_succ]
    cases hordered : ordered (planFor .builtin phase state.tree).calls with
    | error fault => exact .refl _
    | ok calls =>
      exact proceedsTo_runCalls (fun call hcall => Operator.proceeds_of_builtin
        (find?_of_mem_planFor (mem_of_ordered hordered hcall))) state

theorem proceedsTo_runPhases (budget : Nat) (phases : List Phase) : ∀ state : Evaluation,
    state.context.ProceedsTo (runPhases .builtin budget phases state).2.context := by
  induction phases with
  | nil => exact fun state => .refl state.context
  | cons phase phases ih =>
    intro state
    have hphase := proceedsTo_runPhase budget phase state
    rw [runPhases]
    generalize state.runPhase .builtin budget phase = after at hphase ⊢
    obtain ⟨result, after⟩ := after
    cases result with
    | ok => exact hphase.trans (ih after)
    | error failure => exact hphase

/-- **A run does nothing to the context but what calls do.** -/
theorem proceedsTo_run (budget : Nat) (state : Evaluation) :
    state.context.ProceedsTo (state.run .builtin budget).2.context :=
  proceedsTo_runPhases budget Phase.all state

/-! ## Requests -/

/-- **From a context that remembers no answers up to its first reset, and from each reset to the
next one, the store is asked at most once for a path, and whenever a secret is asked for, the answer
to this one request is told. So a run of evaluation asks for no path twice.** -/
theorem each_path_asked_once {ctx : Context} (hnew : ctx.answers = []) :
    (∀ ops, .reset ∉ ops → ∃ asked, Context.AskedOnce ctx ops asked) ∧
    (∀ earlier ops, .reset ∉ ops →
      ∃ asked, Context.AskedOnce (ctx.performAll (earlier ++ [.reset])) ops asked) ∧
    ∀ tree budget, ∃ asked,
      (run .builtin budget ⟨tree, ctx⟩).2.context.requests = ctx.requests ++ asked ∧
      asked.Nodup := by
  refine ⟨fun ops => Context.exists_askedOnce hnew, fun earlier ops =>
    Context.exists_askedOnce (ctx.answers_performAll_reset earlier), fun tree budget => ?_⟩
  obtain ⟨ops, asked, hops, hasked⟩ :=
    (proceedsTo_run budget ⟨tree, ctx⟩).exists_askedOnce hnew
  exact ⟨asked, hops ▸ hasked.requests, hasked.nodup⟩

/-- A store that numbers its answers, so that no two of them are the same. -/
def numberedAnswers : SecretStore :=
  ⟨fun earlier _ => .ok [("user", Numeral.text earlier.length)]⟩

/-- Calls for two secrets, one of them asked for twice, and a call for a key that is not there. -/
def secretsOfTwoPaths : Node :=
  .mapping [("a", .string "(( vault \"db:user\" ))"), ("b", .string "(( vault \"mail:user\" ))"),
    ("c", .string "(( vault \"db:\" \"user\" ))"), ("d", .string "(( vault \"db:port\" ))")]

/-- A new context with that store. -/
def numberedContext : Context := { store := some numberedAnswers }

theorem each_path_asked_once_of_two :
    numberedContext.answers = [] ∧
    (∃ asked,
      Context.AskedOnce numberedContext [.secret "db", .secret "mail", .secret "db"] asked) ∧
    (run .builtin 32 ⟨secretsOfTwoPaths, numberedContext⟩).2.context.requests = ["db", "mail"] ∧
    ["db", "mail"].Nodup := by
  have hnew : numberedContext.answers = [] := rfl
  obtain ⟨hoperations, -, hruns⟩ := each_path_asked_once hnew
  obtain ⟨asked, hrequests, hnodup⟩ := hruns secretsOfTwoPaths 32
  have hrun : (run .builtin 32 ⟨secretsOfTwoPaths, numberedContext⟩).2.context.requests
      = ["db", "mail"] := by
    decide +kernel
  have hasked : asked = ["db", "mail"] := hrequests.symm.trans hrun
  exact ⟨hnew, hoperations _ (by decide), hrun, hasked ▸ hnodup⟩

end Laminate.Evaluation
