import Laminate.Evaluate
import Laminate.Operator.Builtin
import Laminate.Proofs.Walk.CallSites

/-!
# Planning a phase

Each call site gives at most one planned call or one fault, whatever the other sites are
(`ofSites_calls`, `ofSites_faults`). The dependencies of a call are the longest beginnings of its
references that lead somewhere (`existingBeginning?_eq_some`, `existingBeginning?_eq_none`); the
root counts as no beginning, so a reference to the root gives no dependency at all.
-/

namespace Laminate.Evaluation

/-! ## From sites to calls -/

/-- The planned call at a site. -/
def plannedCall? (registry : Registry) (phase : Phase) (tree : Node) (site : CallSite) :
    Option PlannedCall :=
  match registry.find? site.call.name, Argument.parseAll site.call.args with
  | some op, .ok args =>
    if op.phase ≠ phase then none
    else
      let automatic := automaticDependencies tree args
      some ⟨site, op, args, op.dependencies site.place.cursor tree args automatic⟩
  | _, _ => none

/-- The fault of a site that cannot be planned. -/
def planFault? (registry : Registry) (phase : Phase) (site : CallSite) : Option Fault :=
  match registry.find? site.call.name, Argument.parseAll site.call.args with
  | none, _ =>
    if phase = .eval then
      some (.operator site.place.path (.unknownOperator site.call.name))
    else none
  | some op, .error fault =>
    if op.phase ≠ phase then none
    else some (.operator site.place.path (.argumentText fault))
  | some _, .ok _ => none

variable {registry : Registry} {phase : Phase} {tree : Node}

theorem add_eq (plan : Plan) (site : CallSite) :
    Plan.add registry phase tree plan site =
      { calls := plan.calls ++ (plannedCall? registry phase tree site).toList
        faults := plan.faults ++ (planFault? registry phase site).toList } := by
  unfold Plan.add plannedCall? planFault?
  cases registry.find? site.call.name with
  | none =>
    cases Argument.parseAll site.call.args <;> by_cases h : phase = .eval <;> simp [h]
  | some op =>
    cases Argument.parseAll site.call.args <;> by_cases h : op.phase = phase <;> simp [h]

theorem foldl_add_eq (sites : List CallSite) : ∀ plan : Plan,
    sites.foldl (Plan.add registry phase tree) plan =
      { calls := plan.calls ++ sites.filterMap (plannedCall? registry phase tree)
        faults := plan.faults ++ sites.filterMap (planFault? registry phase) } := by
  induction sites with
  | nil => simp
  | cons site sites ih =>
    intro plan
    rw [List.foldl_cons, ih, add_eq]
    cases hcall : plannedCall? registry phase tree site <;>
      cases hfault : planFault? registry phase site <;> simp [hcall, hfault]

theorem ofSites_calls (sites : List CallSite) :
    (Plan.ofSites registry phase tree sites).calls =
      sites.filterMap (plannedCall? registry phase tree) := by
  rw [Plan.ofSites, foldl_add_eq]
  exact List.nil_append _

theorem ofSites_faults (sites : List CallSite) :
    (Plan.ofSites registry phase tree sites).faults =
      sites.filterMap (planFault? registry phase) := by
  rw [Plan.ofSites, foldl_add_eq]
  exact List.nil_append _

theorem plannedCall?_eq_some {site : CallSite} {call : PlannedCall} :
    plannedCall? registry phase tree site = some call ↔
      registry.find? site.call.name = some call.operator ∧ call.operator.phase = phase ∧
      Argument.parseAll site.call.args = .ok call.args ∧ call.site = site ∧
      call.dependencies = call.operator.dependencies site.place.cursor tree call.args
        (automaticDependencies tree call.args) := by
  unfold plannedCall?
  obtain ⟨callSite, operator, arguments, dependencies⟩ := call
  cases registry.find? site.call.name with
  | none => simp
  | some op =>
    cases Argument.parseAll site.call.args with
    | error fault => simp
    | ok args =>
      by_cases h : op.phase = phase
      · simp only [h, ne_eq, not_true_eq_false, if_false, Option.some.injEq, PlannedCall.mk.injEq]
        constructor
        · rintro ⟨rfl, rfl, rfl, rfl⟩
          exact ⟨rfl, h, rfl, rfl, rfl⟩
        · rintro ⟨rfl, -, hargs, rfl, rfl⟩
          cases hargs
          exact ⟨rfl, rfl, rfl, rfl⟩
      · simp only [ne_eq, h, not_false_eq_true, if_true, reduceCtorEq, Option.some.injEq,
          false_iff]
        rintro ⟨rfl, hphase, -⟩
        exact h hphase

theorem planFault?_eq_some {site : CallSite} {fault : Fault} :
    planFault? registry phase site = some fault ↔
      (registry.find? site.call.name = none ∧ phase = .eval ∧
        fault = .operator site.place.path (.unknownOperator site.call.name)) ∨
      ∃ op problem, registry.find? site.call.name = some op ∧ op.phase = phase ∧
        Argument.parseAll site.call.args = .error problem ∧
        fault = .operator site.place.path (.argumentText problem) := by
  unfold planFault?
  cases registry.find? site.call.name with
  | none =>
    by_cases h : phase = .eval
    · simp [h, eq_comm]
    · simp [h]
  | some op =>
    cases Argument.parseAll site.call.args with
    | ok args => simp
    | error problem =>
      by_cases h : op.phase = phase
      · simp [h, eq_comm]
      · simp [h]

theorem mem_calls {sites : List CallSite} {call : PlannedCall} :
    call ∈ (Plan.ofSites registry phase tree sites).calls ↔
      call.site ∈ sites ∧ plannedCall? registry phase tree call.site = some call := by
  rw [ofSites_calls, List.mem_filterMap]
  constructor
  · rintro ⟨site, hmem, hsite⟩
    obtain rfl := (plannedCall?_eq_some.mp hsite).2.2.2.1
    exact ⟨hmem, hsite⟩
  · rintro ⟨hmem, hsite⟩
    exact ⟨call.site, hmem, hsite⟩

/-- The site of a call under a key at the top of a tree. -/
def siteAtKey (key name args : String) : CallSite :=
  ⟨Location.root.key key, ⟨name, args⟩⟩

/-- The plan of a phase for a tree. -/
def planFor (registry : Registry) (phase : Phase) (tree : Node) : Plan :=
  Plan.ofSites registry phase tree tree.callSites

theorem mem_planFor_calls {call : PlannedCall} :
    call ∈ (planFor registry phase tree).calls ↔
      call.site ∈ tree.callSites ∧ plannedCall? registry phase tree call.site = some call :=
  mem_calls

/-- With any budget but zero a phase orders the calls of its plan and runs them. -/
theorem runPhase_succ (registry : Registry) (budget : Nat) (phase : Phase) (state : Evaluation) :
    state.runPhase registry (budget + 1) phase =
      match ordered (planFor registry phase state.tree).calls with
      | .error fault => (.error (.single fault), state)
      | .ok calls =>
        let (faults, after) := state.runCalls calls
        ((Faults.toExcept ⟨(planFor registry phase state.tree).faults ++ faults⟩ ()).mapError
          .several, after) := by
  simp only [runPhase, CallSite.collect_succ]
  rfl

/-- Without a budget a phase does nothing. -/
theorem runPhase_zero (registry : Registry) (phase : Phase) (state : Evaluation) :
    state.runPhase registry 0 phase
      = (.error (.several ⟨[.cycle "$" .budgetExhausted]⟩), state) := by
  simp only [runPhase, CallSite.collect_zero]

/-! ## Dependencies -/

theorem findSome?_reverse_range {α : Type} (g : Nat → Option α) (n : Nat) :
    (∀ a, (List.range n).reverse.findSome? g = some a →
      ∃ k, k < n ∧ g k = some a ∧ ∀ j, k < j → j < n → g j = none) ∧
    ((List.range n).reverse.findSome? g = none → ∀ k, k < n → g k = none) := by
  induction n with
  | zero => simp
  | succ n ih =>
    -- the greatest number is tried first
    rw [List.range_succ, List.reverse_append, List.reverse_singleton, List.singleton_append,
      List.findSome?_cons]
    cases hg : g n with
    | some b =>
      refine ⟨fun a ha => ⟨n, Nat.lt_succ_self n, by rw [hg]; exact ha, ?_⟩, by simp⟩
      intro j hj hlt
      omega
    | none =>
      refine ⟨fun a ha => ?_, fun hnone k hk => ?_⟩
      · obtain ⟨k, hk, hka, hrest⟩ := ih.1 a ha
        refine ⟨k, by omega, hka, fun j hj hlt => ?_⟩
        by_cases heq : j = n
        · rw [heq, hg]
        · exact hrest j hj (by omega)
      · by_cases heq : k = n
        · rw [heq, hg]
        · exact ih.2 hnone k (by omega)

/-- The beginning of a reference that a call waits for is the longest one that leads somewhere. -/
theorem existingBeginning?_eq_some {path c : Cursor}
    (h : existingBeginning? tree path = some c) : ∃ k, 0 < k ∧ k ≤ path.depth ∧
      tree.canonical (path.components.take k) = .ok c.components ∧
      ∀ j, k < j → j ≤ path.depth → ∀ d, tree.canonical (path.components.take j) ≠ .ok d := by
  obtain ⟨k, hk, hsome, hnone⟩ := (findSome?_reverse_range _ _).1 c h
  refine ⟨k + 1, Nat.succ_pos k, hk, Cursor.toOption_canonical_eq_some.mp hsome, fun j hj hlt => ?_⟩
  have := hnone (j - 1) (by omega) (by omega)
  rw [show j - 1 + 1 = j by omega] at this
  exact Cursor.toOption_canonical_eq_none.mp this

/-- A call waits for nothing because of a reference if not even its first component leads
anywhere. -/
theorem existingBeginning?_eq_none {path : Cursor} (h : existingBeginning? tree path = none) :
    ∀ k, 0 < k → k ≤ path.depth → ∀ d, tree.canonical (path.components.take k) ≠ .ok d := by
  intro k hk hle
  have := (findSome?_reverse_range _ _).2 h (k - 1) (by omega)
  rw [show k - 1 + 1 = k by omega] at this
  exact Cursor.toOption_canonical_eq_none.mp this

/-- A reference that leads somewhere is waited for as a whole, unless it is the root. -/
theorem existingBeginning?_of_canonical {path : Cursor} {c : List String} (hne : 0 < path.depth)
    (h : tree.canonical path.components = .ok c) : existingBeginning? tree path = some ⟨c⟩ := by
  have htake : path.components.take path.depth = path.components := List.take_length
  cases hb : existingBeginning? tree path with
  | none => exact absurd (htake.symm ▸ h) (existingBeginning?_eq_none hb _ hne (Nat.le_refl _) c)
  | some d =>
    obtain ⟨k, -, hle, hk, hlonger⟩ := existingBeginning?_eq_some hb
    -- no beginning is longer than the reference itself
    rcases Nat.lt_or_eq_of_le hle with hlt | rfl
    · exact absurd (htake.symm ▸ h) (hlonger _ hlt (Nat.le_refl _) c)
    · rw [htake, h] at hk
      cases d
      exact congrArg some (congrArg Cursor.mk (Except.ok.inj hk)).symm

theorem mem_automaticDependencies {args : List Argument} {dependency : Cursor} :
    dependency ∈ automaticDependencies tree args ↔
      ∃ path, .reference path ∈ args ∧ existingBeginning? tree path = some dependency := by
  rw [automaticDependencies, List.mem_filterMap]
  constructor
  · rintro ⟨arg, hmem, harg⟩
    cases arg with
    | literal value => cases harg
    | reference path => exact ⟨path, hmem, harg⟩
  · rintro ⟨path, hmem, hpath⟩
    exact ⟨.reference path, hmem, hpath⟩

/-! ## The built-in operators -/

/-- The built-in operators that read their arguments wait for all that these lead to. -/
theorem automatic_subset_dependencies {name : String} {op : Operator}
    (h : Registry.builtin.find? name = some op) (hname : name ≠ "param") (here : Cursor)
    (args : List Argument) (automatic : List Cursor) :
    automatic ⊆ op.dependencies here tree args automatic := by
  have hmem : (name, op) ∈ Registry.builtin := Entries.mem_of_get? h
  simp only [Registry.builtin, List.mem_cons, Prod.mk.injEq, List.not_mem_nil, or_false] at hmem
  rcases hmem with ⟨-, rfl⟩ | ⟨-, rfl⟩ | ⟨-, rfl⟩ | ⟨-, rfl⟩ | ⟨rfl, -⟩ | ⟨-, rfl⟩ | ⟨-, rfl⟩ |
    ⟨-, rfl⟩ | ⟨-, rfl⟩
  case inr.inr.inr.inr.inl => exact absurd rfl hname
  -- addresses are drawn from a job and a network that no argument leads to
  case inr.inr.inr.inr.inr.inl =>
    simp only [Operator.staticAddresses]
    split
    · exact List.Subset.refl _
    · exact List.subset_append_left _ _
  all_goals exact List.Subset.refl _

end Laminate.Evaluation
