import Laminate.Proofs.Evaluation.Order
import Laminate.Proofs.Evaluation.Planning

/-!
# References to what contains them

A call that refers to its own place, or to something that contains it, would copy a value into
itself. The path of such a reference is a dependency of the call on itself, so its phase ends with a
cycle fault before any call has run, and no operator is asked for anything (`CaughtAsCycle`).

The root is the exception: it is no dependency (`existingBeginning?_root`), so a reference to it is
caught only if the phase has a cycle for another reason.
-/

namespace Laminate

/-- The registry with other computations behind its operators. -/
def Registry.withRuns (registry : Registry) (runs : String → CallInput → Running Response) :
    Registry :=
  registry.map fun e => (e.1, { e.2 with run := runs e.1 })

/-- The planned call with another computation behind its operator. -/
def PlannedCall.withRuns (call : PlannedCall) (runs : String → CallInput → Running Response) :
    PlannedCall :=
  { call with operator := { call.operator with run := runs call.site.call.name } }

namespace Evaluation

open Relation

/-- The phase ends with the fault of a cycle, everything is left as it was, and no operator has been
run: other computations behind them change nothing. -/
structure CaughtAsCycle (registry : Registry) (budget : Nat) (phase : Phase) (state : Evaluation) :
    Prop where
  fault : ∃ paths, state.runPhase registry budget phase
    = (.error (.single (.cycle "$" (.dataFlow paths))), state)
  idle : ∀ runs, state.runPhase (registry.withRuns runs) budget phase
    = state.runPhase registry budget phase

/-- The names of the operators that read their arguments from the tree. -/
def readers : List String :=
  ["grab", "concat", "string", "join", "vault", "static_ips", "inject"]

/-- A call of a phase that reads a reference to its own place or to something that contains it. -/
structure RefersAround (phase : Phase) (tree : Node) (site : CallSite) (path : Cursor) : Prop where
  found : site ∈ tree.callSites
  reads : site.call.name ∈ readers
  operator : ∃ op, Registry.builtin.find? site.call.name = some op ∧ op.phase = phase
  argument : ∃ args, Argument.parseAll site.call.args = .ok args ∧ .reference path ∈ args
  contains : ∃ container, path.canonical tree = .ok container ∧
    container.components <+: site.place.cursor.components

/-! ## Other computations -/

section WithRuns

variable {registry : Registry} {runs : String → CallInput → Running Response} {phase : Phase}
  {tree : Node}

theorem find?_withRuns (name : String) :
    (registry.withRuns runs).find? name
      = (registry.find? name).map fun op => { op with run := runs name } := by
  unfold Registry.find? Registry.withRuns
  induction registry with
  | nil => rfl
  | cons e registry ih =>
    obtain ⟨k, op⟩ := e
    rw [List.map_cons, Entries.get?_cons, Entries.get?_cons]
    split
    · next heq => rw [heq]; rfl
    · exact ih

theorem plannedCall?_withRuns (site : CallSite) :
    plannedCall? (registry.withRuns runs) phase tree site
      = (plannedCall? registry phase tree site).map (·.withRuns runs) := by
  unfold plannedCall?
  rw [find?_withRuns]
  cases registry.find? site.call.name with
  | none => rfl
  | some op =>
    cases Argument.parseAll site.call.args with
    | error fault => rfl
    | ok args =>
      simp only [Option.map_some]
      by_cases h : op.phase = phase
      · simp [h, PlannedCall.withRuns]
      · simp [h]

/-- The plan does not depend on what operators compute. -/
theorem planFor_withRuns_calls :
    (planFor (registry.withRuns runs) phase tree).calls
      = (planFor registry phase tree).calls.map (·.withRuns runs) := by
  simp only [planFor, ofSites_calls, List.map_filterMap]
  exact List.filterMap_congr fun site _ => plannedCall?_withRuns site

theorem tasks_withRuns (calls : List PlannedCall) :
    tasks (calls.map (·.withRuns runs)) = tasks calls := by
  simp only [tasks, List.length_map, List.getElem?_map, Tasks.mk.injEq, true_and]
  funext i j
  cases calls[i]? <;> cases calls[j]? <;> rfl

/-- The order does not depend on what operators compute. -/
theorem schedule_withRuns (calls : List PlannedCall) :
    schedule (calls.map (·.withRuns runs)) = schedule calls := by
  have hfault : cycleFault (calls.map (·.withRuns runs)) = cycleFault calls := by
    funext stuck
    simp only [cycleFault, List.getElem?_map, Option.map_map]
    rfl
  unfold schedule
  rw [tasks_withRuns, hfault]

end WithRuns

/-! ## Cycles and the run of a phase -/

section Run

variable {registry : Registry} {budget : Nat} {phase : Phase} {state : Evaluation}

theorem ordered_of_schedule_error {calls : List PlannedCall} {fault : Fault}
    (h : schedule calls = .error fault) : ordered calls = .error fault := by
  simp only [ordered, h]
  rfl

/-- A phase whose calls cannot be ordered ends before any of them runs. -/
theorem caughtAsCycle_of_schedule {fault : Fault}
    (h : schedule (planFor registry phase state.tree).calls = .error fault) :
    CaughtAsCycle registry (budget + 1) phase state := by
  have hrun : ∀ runs, state.runPhase (registry.withRuns runs) (budget + 1) phase
      = (.error (.single fault), state) := by
    intro runs
    -- the plan asks an operator for its phase and its dependencies only
    rw [runPhase_succ, planFor_withRuns_calls,
      ordered_of_schedule_error ((schedule_withRuns _).trans h)]
  have hrun' : state.runPhase registry (budget + 1) phase = (.error (.single fault), state) := by
    rw [runPhase_succ, ordered_of_schedule_error h]
  obtain ⟨-, paths, -, -, -, -, rfl⟩ := isCycleOf_of_schedule h
  exact ⟨⟨paths, hrun'⟩, fun runs => (hrun runs).trans hrun'.symm⟩

/-- A phase whose calls can be ordered reports no cycle. -/
theorem not_caughtAsCycle_of_schedule {order : List Nat}
    (h : schedule (planFor registry phase state.tree).calls = .ok order) :
    ¬CaughtAsCycle registry (budget + 1) phase state := by
  rintro ⟨⟨paths, hfault⟩, -⟩
  have hordered : ordered (planFor registry phase state.tree).calls
      = .ok (order.filterMap fun i => (planFor registry phase state.tree).calls[i]?) := by
    simp only [ordered, h]
    rfl
  -- a run reports its faults several at a time, only the order reports a single one
  rw [runPhase_succ, hordered] at hfault
  have := congrArg Prod.fst hfault
  simp only [Faults.toExcept] at this
  split at this <;> cases this

/-- **A phase ends with a cycle fault before any call has run exactly if a call depends on itself
over others.** -/
theorem caughtAsCycle_iff : CaughtAsCycle registry (budget + 1) phase state ↔
    ∃ i, TransGen (DependsOn (planFor registry phase state.tree).calls) i i := by
  have hok : (∃ order, schedule (planFor registry phase state.tree).calls = .ok order)
      ↔ ¬∃ i, TransGen (DependsOn (planFor registry phase state.tree).calls) i i :=
    exists_schedule_eq_ok_iff
  cases h : schedule (planFor registry phase state.tree).calls with
  | ok order => exact iff_of_false (not_caughtAsCycle_of_schedule h) (hok.mp ⟨order, h⟩)
  | error fault =>
    refine iff_of_true (caughtAsCycle_of_schedule h) (not_not.mp fun hacyclic => ?_)
    obtain ⟨order, horder⟩ := hok.mpr hacyclic
    rw [h] at horder
    cases horder

end Run

/-! ## References to containers -/

/-- A reference to a container of its call, other than the root, makes the call depend on itself. -/
theorem exists_dependsOn_self {phase : Phase} {tree : Node} {site : CallSite} {path : Cursor}
    (h : RefersAround phase tree site path) (hroot : path ≠ .root) :
    ∃ i, DependsOn (planFor .builtin phase tree).calls i i := by
  obtain ⟨op, hop, hphase⟩ := h.operator
  obtain ⟨args, hargs, hmem⟩ := h.argument
  obtain ⟨container, hcontainer, hprefix⟩ := h.contains
  have hname : site.call.name ≠ "param" := by
    have hreads := h.reads
    rintro heq
    rw [heq] at hreads
    exact absurd hreads (by decide)
  -- the planned call of the site waits for the container
  let call : PlannedCall := ⟨site, op, args,
    op.dependencies site.place.cursor tree args (automaticDependencies tree args)⟩
  have hcall : call ∈ (planFor .builtin phase tree).calls :=
    mem_planFor_calls.mpr ⟨h.found, plannedCall?_eq_some.mpr ⟨hop, hphase, hargs, rfl, rfl⟩⟩
  have hdepth : 0 < path.depth := by
    rw [Cursor.depth, List.length_pos_iff]
    rintro hnil
    exact hroot (by cases path; exact congrArg Cursor.mk hnil)
  have hcanonical : tree.canonical path.components = .ok container.components :=
    Cursor.toOption_canonical_eq_some.mp (congrArg Except.toOption hcontainer)
  have hautomatic : container ∈ automaticDependencies tree args :=
    mem_automaticDependencies.mpr ⟨path, hmem, existingBeginning?_of_canonical hdepth hcanonical⟩
  have hdependency : container ∈ call.dependencies :=
    automatic_subset_dependencies hop hname _ _ _ hautomatic
  obtain ⟨i, hi⟩ := List.getElem?_of_mem hcall
  exact ⟨i, call, call, hi, hi, container, hdependency, hprefix⟩

/-- **A call with a reference around itself is caught before any call has run, if and only if the
reference is not the root or the calls of the phase have a cycle anyway; without a budget the phase
ends while looking for calls.** -/
theorem containing_reference_caught_iff {phase : Phase} {state : Evaluation} {site : CallSite}
    {path : Cursor} (h : RefersAround phase state.tree site path) :
    state.runPhase .builtin 0 phase = (.error (.several ⟨[.cycle "$" .budgetExhausted]⟩), state) ∧
    ∀ budget, CaughtAsCycle .builtin (budget + 1) phase state ↔
      path ≠ .root ∨ ∃ i, TransGen (DependsOn (planFor .builtin phase state.tree).calls) i i := by
  refine ⟨runPhase_zero _ _ _, fun budget => ?_⟩
  rw [caughtAsCycle_iff]
  constructor
  · exact Or.inr
  · rintro (hroot | hcycle)
    · obtain ⟨i, hi⟩ := exists_dependsOn_self h hroot
      exact ⟨i, .single hi⟩
    · exact hcycle

theorem self_reference_caught :
    RefersAround .eval (.mapping [("self", .string "(( grab self ))")])
      (siteAtKey "self" "grab" "self") ⟨["self"]⟩ ∧
    CaughtAsCycle .builtin 1 .eval ⟨.mapping [("self", .string "(( grab self ))")], {}⟩ := by
  have h : RefersAround .eval (.mapping [("self", .string "(( grab self ))")])
      (siteAtKey "self" "grab" "self") ⟨["self"]⟩ :=
    { found := List.mem_singleton.mpr rfl
      reads := by decide
      operator := ⟨Operator.grab, rfl, rfl⟩
      argument := ⟨[.reference ⟨["self"]⟩], rfl, List.mem_singleton.mpr rfl⟩
      contains := ⟨⟨["self"]⟩, rfl, List.prefix_refl _⟩ }
  have hcaught : ∀ budget, CaughtAsCycle .builtin (budget + 1) .eval
      ⟨.mapping [("self", .string "(( grab self ))")], {}⟩ ↔ _ :=
    (containing_reference_caught_iff h).2
  exact ⟨h, (hcaught 0).mpr (Or.inl (by decide))⟩

/-- A reference to the root is not caught: the document is copied into itself with the call in it,
and no fault is reported. -/
theorem reference_to_root_copied :
    RefersAround .eval (.mapping [("a", .string "(( grab $ ))")]) (siteAtKey "a" "grab" "$") .root ∧
    runPhase .builtin 32 .eval ⟨.mapping [("a", .string "(( grab $ ))")], {}⟩
      = (.ok (), ⟨.mapping [("a", .mapping [("a", .string "(( grab $ ))")])], {}⟩) ∧
    ¬CaughtAsCycle .builtin 32 .eval ⟨.mapping [("a", .string "(( grab $ ))")], {}⟩ := by
  have hrun : runPhase .builtin 32 .eval ⟨.mapping [("a", .string "(( grab $ ))")], {}⟩
      = (.ok (), ⟨.mapping [("a", .mapping [("a", .string "(( grab $ ))")])], {}⟩) := rfl
  refine ⟨?_, hrun, ?_⟩
  · exact
      { found := List.mem_singleton.mpr rfl
        reads := by decide
        operator := ⟨Operator.grab, rfl, rfl⟩
        argument := ⟨[.reference .root], rfl, List.mem_singleton.mpr rfl⟩
        contains := ⟨.root, rfl, List.nil_prefix⟩ }
  · rintro ⟨⟨paths, hfault⟩, -⟩
    rw [hrun] at hfault
    cases hfault

end Evaluation

end Laminate
