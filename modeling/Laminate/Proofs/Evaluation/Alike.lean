import Laminate.Proofs.Evaluation.Running
import Laminate.Proofs.Operator.Reading

/-!
# States that are alike

Two states of evaluation are alike if their trees are read alike, their contexts tell the same
secrets, and the same paths are marked in both (`Alike`). A call has the same fault in both, or
none, and leads to states that are alike again (`runCall_alike`); so the same calls in the same
order run alike (`runCalls_alike`).
-/

namespace Laminate.Evaluation

variable {R : Node → Node → Prop} {state state' state'' : Evaluation}

/-- Trees that are read alike, the same secrets and the same marks. -/
structure Alike (R : Node → Node → Prop) (state state' : Evaluation) : Prop where
  tree : R state.tree state'.tree
  secrets : state.context.SameSecrets state'.context
  prune : ∀ path, path ∈ state.context.prune ↔ path ∈ state'.context.prune

/-- The same faults in some order, and states that are alike. -/
structure RunsAlike (R : Node → Node → Prop) (run run' : List Fault × Evaluation) : Prop where
  faults : run.1.Perm run'.1
  state : Alike R run.2 run'.2

theorem Alike.refl (state : Evaluation) : Alike Eq state state :=
  ⟨rfl, .refl _, fun _ => .rfl⟩

theorem Alike.symm (h : Alike Eq state state') : Alike Eq state' state :=
  ⟨h.tree.symm, h.secrets.symm, fun path => (h.prune path).symm⟩

theorem Alike.trans (h : Alike Eq state state') (h' : Alike R state' state'') :
    Alike R state state'' :=
  ⟨h.tree ▸ h'.tree, h.secrets.trans h'.secrets, fun path => (h.prune path).trans (h'.prune path)⟩

theorem RunsAlike.refl (run : List Fault × Evaluation) : RunsAlike Eq run run :=
  ⟨.refl _, .refl _⟩

theorem RunsAlike.symm {run run' : List Fault × Evaluation} (h : RunsAlike Eq run run') :
    RunsAlike Eq run' run :=
  ⟨h.faults.symm, h.state.symm⟩

theorem RunsAlike.trans {run run' run'' : List Fault × Evaluation} (h : RunsAlike Eq run run')
    (h' : RunsAlike R run' run'') : RunsAlike R run run'' :=
  ⟨h.faults.trans h'.faults, h.state.trans h'.state⟩

/-! ## Calls -/

/-- What a call answers with in a state. -/
def answer (state : Evaluation) (call : PlannedCall) : Except OperatorFault Response :=
  (call.operator.run ⟨state.tree, call.site.place.cursor, call.args⟩ state.context).1

/-- A call whose answer depends on what it reads, and whose marks depend on its place. -/
structure Regular (call : PlannedCall) : Prop where
  alike : call.operator.AnswersAlike
  marks : ∃ marks, call.operator.Marks marks

theorem resolve_alike (hR : Node.Likeness R) {tree tree' : Node} (h : R tree tree')
    (arg : Argument) : ResultsAgree Eq R (arg.resolve tree) (arg.resolve tree') := by
  cases arg with
  | literal value => exact .ok (hR.scalar value)
  | reference path =>
    exact (hR.resolve h path.components).mapError fun _ _ heq => congrArg _ heq

/-- What a call does to the context. -/
theorem marks_runCall {call : PlannedCall} {marks : Cursor → List Cursor}
    (hmarks : call.operator.Marks marks) (hstore : state.context.StoreByPath) :
    (state.runCall call).2.context.SameSecrets state.context ∧
      ∀ path, path ∈ (state.runCall call).2.context.prune ↔
        path ∈ state.context.prune ∨ path ∈ marks call.site.place.cursor := by
  have hcontext : (state.runCall call).2.context = (call.operator.run
      ⟨state.tree, call.site.place.cursor, call.args⟩ state.context).2 := context_runCall rfl
  rw [hcontext]
  exact hmarks _ _ hstore

theorem storeByPath_runCall {call : PlannedCall} (hcall : Regular call)
    (hstore : state.context.StoreByPath) : (state.runCall call).2.context.StoreByPath := by
  obtain ⟨marks, hmarks⟩ := hcall.marks
  exact (marks_runCall hmarks hstore).1.symm.storeByPath hstore

/-- Answers that are alike come to the same fault, or to trees that are alike. -/
theorem runCall_of_answers (hR : Node.Likeness R) {call : PlannedCall}
    (htree : R state.tree state'.tree)
    (h : ResultsAgree Eq (Response.Alike R) (state.answer call) (state'.answer call)) :
    (state.runCall call).1 = (state'.runCall call).1 ∧
      R (state.runCall call).2.tree (state'.runCall call).2.tree := by
  unfold answer at h
  generalize hrun : call.operator.run ⟨state.tree, call.site.place.cursor, call.args⟩
    state.context = run at h
  generalize hrun' : call.operator.run ⟨state'.tree, call.site.place.cursor, call.args⟩
    state'.context = run' at h
  obtain ⟨answer, context⟩ := run
  obtain ⟨answer', context'⟩ := run'
  cases h with
  | error heq =>
    rw [runCall_of_error hrun, runCall_of_error hrun', heq]
    exact ⟨rfl, htree⟩
  | ok hresponse =>
    cases hresponse with
    | @replace value value' hvalue =>
      have hrespond : ResultsAgree Eq R
          (respond state.tree call.site.place.cursor (.replace value))
          (respond state'.tree call.site.place.cursor (.replace value')) :=
        (hR.replace htree hvalue _).mapError fun _ _ heq => congrArg _ heq
      generalize hafter : respond state.tree call.site.place.cursor (.replace value)
        = after at hrespond
      generalize hafter' : respond state'.tree call.site.place.cursor (.replace value')
        = after' at hrespond
      cases hrespond with
      | ok htree' =>
        rw [runCall_of_ok hrun hafter, runCall_of_ok hrun' hafter']
        exact ⟨rfl, htree'⟩
      | error heq =>
        rw [runCall_of_respond_error hrun hafter, runCall_of_respond_error hrun' hafter', heq]
        exact ⟨rfl, htree⟩

/-- **In states that are alike a call has the same fault, or none, and the states stay alike.** -/
theorem runCall_alike (hR : Node.Likeness R) {call : PlannedCall} (hcall : Regular call)
    (hstore : state.context.StoreByPath) (h : Alike R state state') :
    (state.runCall call).1 = (state'.runCall call).1 ∧
      Alike R (state.runCall call).2 (state'.runCall call).2 := by
  obtain ⟨marks, hmarks⟩ := hcall.marks
  obtain ⟨hsecrets, hprune⟩ := marks_runCall hmarks hstore
  obtain ⟨hsecrets', hprune'⟩ := marks_runCall hmarks (h.secrets.storeByPath hstore)
  obtain ⟨hfaults, htree⟩ := runCall_of_answers hR h.tree <|
    hcall.alike hR (fun arg _ => resolve_alike hR h.tree arg) h.secrets call.site.place.cursor
  refine ⟨hfaults, htree, hsecrets.trans (h.secrets.trans hsecrets'.symm), fun path => ?_⟩
  rw [hprune, hprune', h.prune]

/-- **In states that are alike the same calls run alike.** -/
theorem runCalls_alike (hR : Node.Likeness R) {calls : List PlannedCall}
    (hcalls : ∀ call ∈ calls, Regular call) : ∀ {state state' : Evaluation},
    state.context.StoreByPath → Alike R state state' →
    RunsAlike R (state.runCalls calls) (state'.runCalls calls) := by
  induction calls with
  | nil => exact fun _ h => ⟨.refl _, h⟩
  | cons call calls ih =>
    intro state state' hstore h
    obtain ⟨hcall, hcalls⟩ := List.forall_mem_cons.mp hcalls
    obtain ⟨hfaults, hafter⟩ := runCall_alike hR hcall hstore h
    have hrest := ih hcalls (storeByPath_runCall hcall hstore) hafter
    rw [runCalls_cons, runCalls_cons, hfaults]
    exact ⟨hrest.faults.append_left _, hrest.state⟩

end Laminate.Evaluation
