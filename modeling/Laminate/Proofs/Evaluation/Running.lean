import Laminate.Proofs.Evaluation.Filling
import Laminate.Proofs.Evaluation.Planning
import Laminate.Proofs.Operator.Builtin

/-!
# Running calls

A phase before the last one keeps the tree well-formed (`wellFormed_runPhases`). In the last phase
every call that runs without a fault fills in one value (`runCall_fill`), so the tree is at each
moment a filling of the tree that the phase began with, and calls that have run later have left all
other places as they were (`runCalls_fill`).
-/

namespace Laminate

theorem Faults.eq_nil_of_toExcept {α ε : Type} {fs : Faults} {a b : α} {f : Faults → ε}
    (h : (fs.toExcept a).mapError f = .ok b) : fs.toList = [] := by
  obtain ⟨faults⟩ := fs
  cases faults with
  | nil => rfl
  | cons fault faults => cases h

namespace Evaluation

/-! ## One call -/

section Call

variable {state : Evaluation} {call : PlannedCall} {context : Context}

theorem runCall_of_error {fault : OperatorFault}
    (h : call.operator.run ⟨state.tree, call.site.place.cursor, call.args⟩ state.context
      = (.error fault, context)) :
    state.runCall call
      = ([.operator call.site.place.path (.failed fault)], ⟨state.tree, context⟩) := by
  simp only [runCall, h]

theorem runCall_of_ok {response : Response} {tree : Node}
    (h : call.operator.run ⟨state.tree, call.site.place.cursor, call.args⟩ state.context
      = (.ok response, context))
    (hrespond : respond state.tree call.site.place.cursor response = .ok tree) :
    state.runCall call = ([], ⟨tree, context⟩) := by
  simp only [runCall, h, hrespond]

theorem runCall_of_respond_error {response : Response} {fault : Fault}
    (h : call.operator.run ⟨state.tree, call.site.place.cursor, call.args⟩ state.context
      = (.ok response, context))
    (hrespond : respond state.tree call.site.place.cursor response = .error fault) :
    state.runCall call = ([fault], ⟨state.tree, context⟩) := by
  simp only [runCall, h, hrespond]

/-- What the operator has done to the context stays, whatever becomes of its answer. -/
theorem context_runCall {result : Except OperatorFault Response}
    (h : call.operator.run ⟨state.tree, call.site.place.cursor, call.args⟩ state.context
      = (result, context)) : (state.runCall call).2.context = context := by
  cases result with
  | error fault => rw [runCall_of_error h]
  | ok response =>
    cases hrespond : respond state.tree call.site.place.cursor response with
    | error fault => rw [runCall_of_respond_error h hrespond]
    | ok tree => rw [runCall_of_ok h hrespond]

end Call

/-! ## Runs in parts -/

theorem runCalls_cons (state : Evaluation) (call : PlannedCall) (calls : List PlannedCall) :
    state.runCalls (call :: calls) =
      ((state.runCall call).1 ++ ((state.runCall call).2.runCalls calls).1,
        ((state.runCall call).2.runCalls calls).2) := rfl

theorem runCalls_pair (state : Evaluation) (call other : PlannedCall) :
    state.runCalls [call, other] =
      ((state.runCall call).1 ++ ((state.runCall call).2.runCall other).1,
        ((state.runCall call).2.runCall other).2) := by
  rw [runCalls_cons, runCalls_cons]
  simp only [runCalls, List.append_nil]

theorem runCalls_append (calls others : List PlannedCall) : ∀ state : Evaluation,
    state.runCalls (calls ++ others) =
      ((state.runCalls calls).1 ++ ((state.runCalls calls).2.runCalls others).1,
        ((state.runCalls calls).2.runCalls others).2) := by
  induction calls with
  | nil => exact fun _ => rfl
  | cons call calls ih =>
    intro state
    rw [List.cons_append, runCalls_cons, runCalls_cons, ih, List.append_assoc]

/-- A phase succeeds if all its calls can be planned and ordered and none of them has a fault. -/
theorem runPhase_eq_ok {registry : Registry} {budget : Nat} {phase : Phase}
    {state final : Evaluation} :
    state.runPhase registry budget phase = (.ok (), final) ↔
      0 < budget ∧ (planFor registry phase state.tree).faults = [] ∧
      ∃ calls, ordered (planFor registry phase state.tree).calls = .ok calls ∧
        state.runCalls calls = ([], final) := by
  cases budget with
  | zero =>
    rw [runPhase_zero]
    exact iff_of_false nofun fun h => absurd h.1 (Nat.lt_irrefl 0)
  | succ budget =>
    rw [runPhase_succ]
    cases hordered : ordered (planFor registry phase state.tree).calls with
    | error fault => exact iff_of_false nofun fun ⟨_, _, _, h, _⟩ => nomatch h
    | ok calls =>
      simp only [Prod.mk.injEq]
      constructor
      · rintro ⟨hresult, hfinal⟩
        obtain ⟨hplan, hrun⟩ := List.append_eq_nil_iff.mp (Faults.eq_nil_of_toExcept hresult)
        exact ⟨Nat.succ_pos _, hplan, calls, rfl, Prod.ext hrun hfinal⟩
      · rintro ⟨-, hplan, calls', heq, hrun⟩
        cases heq
        rw [hrun, hplan]
        exact ⟨rfl, rfl⟩

theorem runPhases_cons_eq_ok {registry : Registry} {budget : Nat} {phase : Phase}
    {phases : List Phase} {state final : Evaluation} :
    runPhases registry budget (phase :: phases) state = (.ok (), final) ↔
      ∃ middle, state.runPhase registry budget phase = (.ok (), middle) ∧
        runPhases registry budget phases middle = (.ok (), final) := by
  rw [runPhases]
  constructor
  · intro h
    split at h
    · next middle hmiddle => exact ⟨middle, hmiddle, h⟩
    · cases h
  · rintro ⟨middle, hmiddle, h⟩
    rw [hmiddle]
    exact h

/-- A run succeeds if the last phase does after those before it. -/
theorem run_eq_ok {registry : Registry} {budget : Nat} {state final : Evaluation} :
    state.run registry budget = (.ok (), final) ↔
      ∃ entered, runPhases registry budget [.merge, .param] state = (.ok (), entered) ∧
        entered.runPhase registry budget .eval = (.ok (), final) := by
  rw [run, Phase.all]
  constructor
  · intro h
    obtain ⟨merged, hmerge, h⟩ := runPhases_cons_eq_ok.mp h
    obtain ⟨entered, hparam, h⟩ := runPhases_cons_eq_ok.mp h
    obtain ⟨last, heval, h⟩ := runPhases_cons_eq_ok.mp h
    cases h
    exact ⟨entered, runPhases_cons_eq_ok.mpr ⟨merged, hmerge,
      runPhases_cons_eq_ok.mpr ⟨entered, hparam, rfl⟩⟩, heval⟩
  · rintro ⟨entered, hentered, heval⟩
    obtain ⟨merged, hmerge, h⟩ := runPhases_cons_eq_ok.mp hentered
    obtain ⟨last, hparam, h⟩ := runPhases_cons_eq_ok.mp h
    cases h
    exact runPhases_cons_eq_ok.mpr ⟨merged, hmerge, runPhases_cons_eq_ok.mpr ⟨entered, hparam,
      runPhases_cons_eq_ok.mpr ⟨final, heval, rfl⟩⟩⟩

/-- The calls that are put into an order are calls of the plan. -/
theorem mem_of_ordered {calls inOrder : List PlannedCall} (h : ordered calls = .ok inOrder)
    {call : PlannedCall} (hmem : call ∈ inOrder) : call ∈ calls := by
  unfold ordered at h
  obtain ⟨order, -, rfl⟩ := exists_of_map_eq_ok h
  obtain ⟨i, -, hi⟩ := List.mem_filterMap.mp hmem
  exact List.mem_of_getElem? hi

/-! ## Well-formed trees -/

theorem wellFormed_injectAt {tree tree' : Node} {here : Cursor} {entries : Entries Node}
    (hwf : tree.WellFormed) (hentries : (Node.mapping entries).WellFormed)
    (h : injectAt tree here entries = .ok tree') : tree'.WellFormed := by
  unfold injectAt at h
  split at h
  · cases h
  · next key _ =>
    split at h
    · cases h
    · next siblings hparent =>
      have hsiblings : (Node.mapping siblings).WellFormed := hwf.resolve hparent
      cases hsiblings with
      | mapping nodup values_wf =>
        cases hentries with
        | mapping _ entries_wf =>
          refine hwf.replace (.mapping ?_ ?_) (eq_ok_of_mapError h)
          -- only keys that are not there yet are injected
          · exact Entries.nodup_keys_foldl_insertNew _ _ (Entries.nodup_keys_erase nodup _)
          · exact Entries.forall_mem_foldl_insertNew
              (fun e he => values_wf e (List.mem_of_mem_filter he)) entries_wf
    · cases h

theorem wellFormed_runCall {state : Evaluation} {call : PlannedCall}
    (hanswers : call.operator.AnswersWell) (hwf : state.tree.WellFormed) :
    (state.runCall call).2.tree.WellFormed := by
  cases hrun : call.operator.run ⟨state.tree, call.site.place.cursor, call.args⟩ state.context with
  | mk result context =>
    cases result with
    | error fault =>
      rw [runCall_of_error hrun]
      exact hwf
    | ok response =>
      have hresponse := hanswers _ _ _ _ hwf hrun
      cases hrespond : respond state.tree call.site.place.cursor response with
      | error fault =>
        rw [runCall_of_respond_error hrun hrespond]
        exact hwf
      | ok tree =>
        rw [runCall_of_ok hrun hrespond]
        cases response with
        | replace value => exact hwf.replace hresponse (eq_ok_of_mapError hrespond)
        | inject entries => exact wellFormed_injectAt hwf hresponse hrespond

theorem wellFormed_runCalls {calls : List PlannedCall}
    (hanswers : ∀ call ∈ calls, call.operator.AnswersWell) : ∀ {state : Evaluation},
    state.tree.WellFormed → (state.runCalls calls).2.tree.WellFormed := by
  induction calls with
  | nil => exact fun hwf => hwf
  | cons call calls ih =>
    intro state hwf
    obtain ⟨hcall, hcalls⟩ := List.forall_mem_cons.mp hanswers
    exact ih hcalls (wellFormed_runCall hcall hwf)

/-- **The phases before the last one keep the tree well-formed.** -/
theorem wellFormed_runPhases {budget : Nat} {final : Evaluation} {phases : List Phase}
    (hphases : ∀ phase ∈ phases, phase ≠ .eval) : ∀ {state : Evaluation}, state.tree.WellFormed →
    runPhases .builtin budget phases state = (.ok (), final) → final.tree.WellFormed := by
  induction phases with
  | nil =>
    intro state hwf h
    cases h
    exact hwf
  | cons phase phases ih =>
    intro state hwf h
    obtain ⟨hphase, hrest⟩ := List.forall_mem_cons.mp hphases
    obtain ⟨middle, hmiddle, h⟩ := runPhases_cons_eq_ok.mp h
    obtain ⟨-, -, calls, hordered, hrun⟩ := runPhase_eq_ok.mp hmiddle
    have hanswers : ∀ call ∈ calls, call.operator.AnswersWell := by
      intro call hcall
      obtain ⟨hop, hop_phase, -⟩ :=
        plannedCall?_eq_some.mp (mem_planFor_calls.mp (mem_of_ordered hordered hcall)).2
      exact Operator.answersWell_of_ne_eval hop (hop_phase ▸ hphase)
    have hmiddle_wf := wellFormed_runCalls hanswers hwf
    rw [hrun] at hmiddle_wf
    exact ih hrest hmiddle_wf h

/-! ## Filling in values -/

/-- The call is a call of the tree, and a value takes its place. -/
structure FillsIn (tree : Node) (call : PlannedCall) : Prop where
  answers : call.operator.AnswersByValue
  stands : ∃ n, tree.At call.site.place.cursor.components n ∧ n.call?.isSome

section Filling

variable {tree : Node}

theorem respond_fill (hwf : tree.WellFormed) {call : PlannedCall} (hfills : FillsIn tree call)
    {state : Evaluation} {f : Filling} (hstate : state.tree = tree.fill f) (value : Node) :
    respond state.tree call.site.place.cursor (.replace value)
      = .ok (tree.fill (f.set call.site.place.cursor.components value)) := by
  obtain ⟨n, hat, hcall⟩ := hfills.stands
  simp only [respond, Cursor.replace, hstate, Node.replace_fill hat hcall value f hwf]
  rfl

/-- **A call that runs without a fault fills in the value that it answers with.** -/
theorem runCall_fill (hwf : tree.WellFormed) {call : PlannedCall} (hfills : FillsIn tree call)
    {state : Evaluation} {f : Filling} (hstate : state.tree = tree.fill f)
    (hfaultless : (state.runCall call).1 = []) :
    ∃ value after,
      call.operator.run ⟨state.tree, call.site.place.cursor, call.args⟩ state.context
        = (.ok (.replace value), after) ∧
      (state.runCall call).2.tree = tree.fill (f.set call.site.place.cursor.components value) := by
  cases hrun : call.operator.run ⟨state.tree, call.site.place.cursor, call.args⟩ state.context with
  | mk result after =>
    cases result with
    | error fault =>
      rw [runCall_of_error hrun] at hfaultless
      cases hfaultless
    | ok response =>
      obtain ⟨value, rfl⟩ := hfills.answers _ _ _ _ hrun
      refine ⟨value, after, rfl, ?_⟩
      rw [runCall_of_ok hrun (respond_fill hwf hfills hstate value)]

/-- **Calls that run without faults fill in values in their places, and nothing else.** -/
theorem runCalls_fill (hwf : tree.WellFormed) {calls : List PlannedCall}
    (hfills : ∀ call ∈ calls, FillsIn tree call) : ∀ {state : Evaluation} {f : Filling},
    state.tree = tree.fill f → (state.runCalls calls).1 = [] →
    ∃ g, (state.runCalls calls).2.tree = tree.fill g ∧
      ∀ path, (∀ call ∈ calls, call.site.place.cursor.components ≠ path) → g path = f path := by
  induction calls with
  | nil => exact fun hstate _ => ⟨_, hstate, fun _ _ => rfl⟩
  | cons call calls ih =>
    intro state f hstate hfaultless
    obtain ⟨hcall, hcalls⟩ := List.forall_mem_cons.mp hfills
    rw [runCalls_cons] at hfaultless ⊢
    obtain ⟨hfirst, hrest⟩ := List.append_eq_nil_iff.mp hfaultless
    obtain ⟨value, -, -, hafter⟩ := runCall_fill hwf hcall hstate hfirst
    obtain ⟨g, htree, hg⟩ := ih hcalls hafter hrest
    refine ⟨g, htree, fun path hpath => ?_⟩
    obtain ⟨hne, hothers⟩ := List.forall_mem_cons.mp hpath
    rw [hg path hothers, Filling.set_of_ne (Ne.symm hne)]

end Filling

end Evaluation

end Laminate
