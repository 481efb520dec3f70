import Laminate.Proofs.Evaluation.Listing

/-!
# Parameters that were never set

A call to `param` stands for a value that a later document has to set. Two checks report the calls
that are left: a walk with the visitor `checkParameters`, and the phase that `param` belongs to. The
walk meets the calls one by one in document order (`faults_checkParameters`); the phase finds the
calls, reads their arguments, puts them into an order and runs them, and reports those whose
arguments cannot be read before all others (`runPhase_param`). No call waits for another one, so
every call is reported exactly once on both ways (`parameter_checks_agree`).
-/

namespace Laminate

/-- The calls of a tree to `param`, in document order. -/
def Node.parameterCalls (tree : Node) : List CallSite :=
  tree.callSites.filter fun site => site.call.name = "param"

/-- The path that a fault names, if it is a problem at a place of a document. -/
def Fault.path? : Fault → Option String
  | .structural path _ => some path
  | .cycle path _ => some path
  | .operator path _ => some path
  | .malformed _ => none
  | .notFound _ => none
  | .secret _ => none

/-! ## The walk -/

namespace Visitor

/-- What the visitor reports at a call to `param`. -/
def parameterFault (site : CallSite) : Fault :=
  .operator site.place.path (.failed (.parameter (parameterMessage site.call)))

theorem checkParameters_of_call {n : Node} {place : Location} {call : Call}
    (h : n.call? = some call) (hname : call.name = "param") :
    checkParameters n place = .fail (.single (parameterFault ⟨place, call⟩)) := by
  simp only [checkParameters, h, hname, if_true, parameterFault]

theorem checkParameters_of_other {n : Node} {place : Location}
    (h : ∀ call, n.call? = some call → call.name ≠ "param") :
    checkParameters n place = .ignore := by
  cases hcall : n.call? with
  | none => simp only [checkParameters, hcall]
  | some call => simp only [checkParameters, hcall, h call hcall, if_false]

/-- Only texts are calls, and nothing is below a text. -/
theorem looksAt_checkParameters (v : Node × Location) : Walk.LooksAt checkParameters v := by
  by_cases h : ∃ call, v.1.call? = some call ∧ call.name = "param"
  · obtain ⟨call, hcall, hname⟩ := h
    obtain ⟨text, htext, -⟩ := Node.call?_eq_some hcall
    exact Or.inr ⟨⟨_, checkParameters_of_call hcall hname⟩, by rw [htext]; rfl⟩
  · exact Or.inl (checkParameters_of_other fun call hcall hname => h ⟨call, hcall, hname⟩)

/-- What a visit contributes to the report. -/
theorem faults_notesAt_checkParameters (v : Node × Location) :
    (Walk.notesAt checkParameters v).flatMap Walk.Note.faults =
      (((CallSite.ofVisit? v).filter fun site => site.call.name = "param").map
        parameterFault).toList := by
  cases hcall : v.1.call? with
  | none =>
    rw [Walk.notesAt, checkParameters_of_other (by simp [hcall])]
    simp [CallSite.ofVisit?, hcall, Walk.Note.faults]
  | some call =>
    by_cases hname : call.name = "param"
    · rw [Walk.notesAt, checkParameters_of_call hcall hname]
      simp [CallSite.ofVisit?, hcall, hname, Option.filter, Walk.Note.faults, Failure.faults]
    · rw [Walk.notesAt, checkParameters_of_other (by simp [hcall, hname])]
      simp [CallSite.ofVisit?, hcall, hname, Walk.Note.faults]

theorem walk_checkParameters (tree : Node) (budget : Nat) :
    tree.walk checkParameters (budget + 1) =
      ⟨tree, (tree.visits .root).flatMap (Walk.notesAt checkParameters)⟩ :=
  Walk.walkNode_of_looks fun v _ => looksAt_checkParameters v

/-- **The walk reports every call to `param`, in document order.** -/
theorem faults_checkParameters (tree : Node) (budget : Nat) :
    (tree.walk checkParameters (budget + 1)).faults.toList =
      tree.parameterCalls.map parameterFault := by
  rw [walk_checkParameters, Walk.Walked.faults, Node.parameterCalls, Node.callSites,
    List.filter_filterMap, List.map_filterMap, List.filterMap_eq_flatMap_toList,
    List.flatMap_assoc]
  exact List.flatMap_congr fun v _ => faults_notesAt_checkParameters v

end Visitor

/-! ## The phase -/

namespace Evaluation

open Relation

/-- What the phase reports at a call to `param`. -/
def parameterFault (tree : Node) (site : CallSite) : Fault :=
  .operator site.place.path <|
    match Argument.parseAll site.call.args with
    | .error problem => .argumentText problem
    | .ok args =>
      .failed (.parameter (Operator.parameterMessage ⟨tree, site.place.cursor, args⟩))

theorem parameterFault_of_error {tree : Node} {site : CallSite} {problem : SyntaxFault}
    (h : Argument.parseAll site.call.args = .error problem) :
    parameterFault tree site = .operator site.place.path (.argumentText problem) := by
  rw [parameterFault, h]

theorem parameterFault_of_ok {tree : Node} {site : CallSite} {args : List Argument}
    (h : Argument.parseAll site.call.args = .ok args) :
    parameterFault tree site = .operator site.place.path
      (.failed (.parameter (Operator.parameterMessage ⟨tree, site.place.cursor, args⟩))) := by
  rw [parameterFault, h]

/-- A call that begins with a quoted text reports this text. -/
theorem parameterFault_of_literal {tree : Node} {site : CallSite} {args : List Argument}
    {text : String} {rest : List Token} (hargs : Argument.parseAll site.call.args = .ok args)
    (htokens : Token.readAll site.call.args = .ok (.literal text :: rest)) :
    parameterFault tree site = .operator site.place.path (.failed (.parameter text)) := by
  obtain ⟨args, rfl⟩ : ∃ others, args = .literal (.string text) :: others := by
    rw [Argument.parseAll, htokens] at hargs
    dsimp only at hargs
    rw [List.mapM_cons] at hargs
    obtain ⟨first, hfirst, hrest⟩ := exists_of_bind_eq_ok hargs
    obtain ⟨others, -, hothers⟩ := exists_of_bind_eq_ok hrest
    cases hfirst
    cases hothers
    exact ⟨others, rfl⟩
  rw [parameterFault_of_ok hargs]
  rfl

/-- In the phase of `param` there are no other operators. -/
theorem find?_builtin_param {name : String} {op : Operator}
    (h : Registry.builtin.find? name = some op) (hphase : op.phase = .param) :
    name = "param" ∧ op = Operator.param := by
  have hnames : ∀ e ∈ Registry.builtin, e.2.phase = .param → e.1 = "param" := by decide
  obtain rfl : name = "param" := hnames _ (Entries.mem_of_get? h) hphase
  exact ⟨rfl, (Option.some.inj h).symm⟩

variable {tree : Node}

/-! ### Planning -/

section Planning

variable {site : CallSite} {call : PlannedCall} {fault : Fault}

/-- A call of this phase is a call to `param`, and it waits for nothing. -/
theorem plannedCall?_param :
    plannedCall? .builtin .param tree site = some call ↔
      site.call.name = "param" ∧ ∃ args, Argument.parseAll site.call.args = .ok args ∧
        call = ⟨site, Operator.param, args, []⟩ := by
  rw [plannedCall?_eq_some]
  obtain ⟨callSite, operator, args, dependencies⟩ := call
  constructor
  · rintro ⟨hfind, hphase, hargs, hsite, hdependencies⟩
    obtain ⟨hname, hop⟩ := find?_builtin_param hfind hphase
    dsimp only at hop hsite hdependencies
    subst hop hsite hdependencies
    exact ⟨hname, args, hargs, rfl⟩
  · rintro ⟨hname, args', hargs, heq⟩
    cases heq
    exact ⟨hname ▸ rfl, rfl, hargs, rfl, rfl⟩

theorem planFault?_param :
    planFault? .builtin .param site = some fault ↔
      site.call.name = "param" ∧ ∃ problem, Argument.parseAll site.call.args = .error problem ∧
        fault = .operator site.place.path (.argumentText problem) := by
  rw [planFault?_eq_some]
  constructor
  · rintro (⟨-, hphase, -⟩ | ⟨op, problem, hfind, hphase, hargs, rfl⟩)
    · cases hphase
    · exact ⟨(find?_builtin_param hfind hphase).1, problem, hargs, rfl⟩
  · rintro ⟨hname, problem, hargs, rfl⟩
    exact Or.inr ⟨Operator.param, problem, hname ▸ rfl, rfl, hargs, rfl⟩

/-- No two calls of this phase wait for each other. -/
theorem exists_ordered_param (tree : Node) :
    ∃ inOrder, ordered (planFor .builtin .param tree).calls = .ok inOrder := by
  have hindependent : ∀ i j, ¬DependsOn (planFor .builtin .param tree).calls i j := by
    rintro i j ⟨call, other, hcall, -, path, hpath, -⟩
    obtain ⟨-, args, -, heq⟩ :=
      plannedCall?_param.mp (mem_planFor_calls.mp (List.mem_of_getElem? hcall)).2
    rw [heq] at hpath
    cases hpath
  refine exists_ordered_of_acyclic ?_
  rintro ⟨i, hcycle⟩
  obtain ⟨j, -, hlast⟩ := TransGen.tail'_iff.mp hcycle
  exact hindependent j i hlast

end Planning

/-! ### Running -/

/-- The fault of a call to `param` that is run. -/
def refusal (tree : Node) (call : PlannedCall) : Fault :=
  .operator call.site.place.path
    (.failed (.parameter (Operator.parameterMessage ⟨tree, call.site.place.cursor, call.args⟩)))

/-- Calls to `param` that are run are refused one by one, and nothing else happens. -/
theorem runCalls_param {calls : List PlannedCall} {state : Evaluation}
    (h : ∀ call ∈ calls, call.operator = Operator.param) :
    state.runCalls calls = (calls.map (refusal state.tree), state) := by
  induction calls with
  | nil => rfl
  | cons call calls ih =>
    obtain ⟨hcall, hcalls⟩ := List.forall_mem_cons.mp h
    have hrun : state.runCall call = ([refusal state.tree call], state) :=
      runCall_of_error (by rw [hcall]; rfl)
    rw [runCalls_cons, hrun, ih hcalls]
    rfl

/-! ### The report -/

/-- Whether the arguments of a call can be read. -/
def isReadable (site : CallSite) : Bool :=
  (Argument.parseAll site.call.args).isOk

theorem filterMap_eq_map_filter {α β : Type} {l : List α} {f : α → Option β} {g : α → β}
    {p : α → Bool} (h : ∀ a ∈ l, f a = if p a then some (g a) else none) :
    l.filterMap f = (l.filter p).map g := by
  rw [← List.filterMap_eq_map', List.filterMap_filter]
  exact List.filterMap_congr h

/-- The calls whose arguments cannot be read are reported before anything runs. -/
theorem faults_planFor_param (tree : Node) :
    (planFor .builtin .param tree).faults =
      (tree.parameterCalls.filter fun site => !isReadable site).map (parameterFault tree) := by
  rw [planFor, ofSites_faults, Node.parameterCalls, List.filter_filter]
  refine filterMap_eq_map_filter fun site _ => Option.ext fun fault => ?_
  cases hargs : Argument.parseAll site.call.args with
  | error problem =>
    simp [planFault?_param, parameterFault_of_error hargs, isReadable, hargs,
      Except.isOk, Except.toBool, @eq_comm _ fault]
  | ok args =>
    simp [planFault?_param, isReadable, hargs, Except.isOk, Except.toBool]

/-- All other calls are run, and refused then. -/
theorem map_refusal_planFor_param (tree : Node) :
    (planFor .builtin .param tree).calls.map (refusal tree) =
      (tree.parameterCalls.filter isReadable).map (parameterFault tree) := by
  rw [planFor, ofSites_calls, List.map_filterMap, Node.parameterCalls, List.filter_filter]
  refine filterMap_eq_map_filter fun site _ => Option.ext fun fault => ?_
  cases hargs : Argument.parseAll site.call.args with
  | error problem =>
    simp [plannedCall?_param, isReadable, hargs, Except.isOk, Except.toBool]
  | ok args =>
    simp [plannedCall?_param, parameterFault_of_ok hargs, isReadable, hargs,
      Except.isOk, Except.toBool, refusal]

/-- The faults that a phase ends with. -/
def reported : Except Failure Unit → List Fault
  | .ok () => []
  | .error failure => failure.faults

theorem reported_toExcept (faults : List Fault) :
    reported (((⟨faults⟩ : Faults).toExcept ()).mapError .several) = faults := by
  cases faults with
  | nil => rfl
  | cons fault faults => rfl

theorem exists_error_toExcept_iff (faults : List Fault) :
    (∃ failure, ((⟨faults⟩ : Faults).toExcept ()).mapError Failure.several = .error failure) ↔
      faults ≠ [] := by
  cases faults with
  | nil => exact iff_of_false nofun fun h => h rfl
  | cons fault faults => exact iff_of_true ⟨_, rfl⟩ nofun

/-- **The phase refuses every call to `param` once and does nothing else.** -/
theorem runPhase_param (tree : Node) (context : Context) (budget : Nat) :
    ∃ faults : List Fault, faults.Perm (tree.parameterCalls.map (parameterFault tree)) ∧
      runPhase .builtin (budget + 1) .param ⟨tree, context⟩ =
        (((⟨faults⟩ : Faults).toExcept ()).mapError .several, ⟨tree, context⟩) := by
  obtain ⟨inOrder, hordered⟩ := exists_ordered_param tree
  have hparam : ∀ call ∈ inOrder, call.operator = Operator.param := by
    intro call hcall
    obtain ⟨-, args, -, heq⟩ :=
      plannedCall?_param.mp (mem_planFor_calls.mp (mem_of_ordered hordered hcall)).2
    rw [heq]
  refine ⟨(planFor .builtin .param tree).faults ++ inOrder.map (refusal tree), ?_, ?_⟩
  · have hrun := (perm_of_ordered hordered).map (refusal tree)
    rw [map_refusal_planFor_param] at hrun
    rw [faults_planFor_param]
    refine (hrun.append_left _).trans ?_
    rw [← List.map_append]
    exact (List.perm_append_comm.trans (List.filter_append_perm _ _)).map _
  · rw [runPhase_succ]
    simp only [hordered, runCalls_param hparam]

/-! ## Both checks -/

/-- What is promised of the two checks of a tree: the walk with `checkParameters` and the phase of
`param`. -/
structure ParameterChecksAgree (tree : Node) (context : Context) (walked : Walk.Walked Node)
    (ran : Except Failure Unit × Evaluation) : Prop where
  walk_unchanged : walked.value = tree
  phase_unchanged : ran.2 = ⟨tree, context⟩
  fails_iff : ¬Walk.Faultless walked ↔ ∃ failure, ran.1 = .error failure
  /-- The walk reports each call once, in document order. -/
  walk_faults : walked.faults.toList = tree.parameterCalls.map Visitor.parameterFault
  /-- The phase reports each call once. -/
  phase_faults : (reported ran.1).Perm (tree.parameterCalls.map (parameterFault tree))
  walk_paths : walked.faults.toList.map Fault.path? =
    tree.parameterCalls.map fun site => some site.place.path
  same_paths : ((reported ran.1).map Fault.path?).Perm (walked.faults.toList.map Fault.path?)
  /-- Of a call that begins with a quoted message both report this message. -/
  same_messages : ∀ site ∈ tree.parameterCalls, ∀ args text rest,
    Argument.parseAll site.call.args = .ok args →
    Token.readAll site.call.args = .ok (.literal text :: rest) →
    Visitor.parameterFault site = .operator site.place.path (.failed (.parameter text)) ∧
      parameterFault tree site = .operator site.place.path (.failed (.parameter text))

/-- **The walk that checks parameters and the phase that runs them agree**: both fail on the same
trees, report every call to `param` once and nothing else, and leave the tree as it is. Their
messages are the same for a call that begins with a quoted text. -/
theorem parameter_checks_agree {budget : Nat} (hbudget : 0 < budget) (tree : Node)
    (context : Context) :
    ParameterChecksAgree tree context (tree.walk Visitor.checkParameters budget)
      (runPhase .builtin budget .param ⟨tree, context⟩) := by
  obtain ⟨budget, rfl⟩ := Nat.exists_eq_add_one.mpr hbudget
  obtain ⟨faults, hperm, hrun⟩ := runPhase_param tree context budget
  have hwalk := Visitor.faults_checkParameters tree budget
  have hpaths : (tree.parameterCalls.map Visitor.parameterFault).map Fault.path? =
      tree.parameterCalls.map fun site => some site.place.path := List.map_map
  have hphase_paths : (tree.parameterCalls.map (parameterFault tree)).map Fault.path? =
      tree.parameterCalls.map fun site => some site.place.path := List.map_map
  have hsame := hperm.map Fault.path?
  rw [hphase_paths] at hsame
  rw [hrun]
  exact {
    walk_unchanged := by rw [Visitor.walk_checkParameters]
    phase_unchanged := rfl
    fails_iff := by
      have hempty : faults = [] ↔ tree.parameterCalls = [] := by
        rw [← List.length_eq_zero_iff, hperm.length_eq, List.length_map, List.length_eq_zero_iff]
      rw [exists_error_toExcept_iff, Walk.Faultless, hwalk, List.map_eq_nil_iff, ne_eq, hempty]
    walk_faults := hwalk
    phase_faults := by rwa [reported_toExcept]
    walk_paths := by rw [hwalk, hpaths]
    same_paths := by rwa [reported_toExcept, hwalk, hpaths]
    same_messages := fun site _ args text rest hargs htokens =>
      ⟨by rw [Visitor.parameterFault, Visitor.parameterMessage, htokens]; rfl,
        parameterFault_of_literal hargs htokens⟩ }

/-- Parameters that were never set: one with a message, one whose arguments cannot be read and one
that refers to itself. -/
def unsetParameters : Node :=
  .mapping [("name", .string "(( param \"set a name\" ))"),
    ("hosts", .sequence [.string "(( param \"unfinished ))", .string "(( param hosts ))"]),
    ("copy", .string "(( grab name ))")]

theorem unsetParameters_checks_agree :
    0 < 1 ∧
    (unsetParameters.walk Visitor.checkParameters 1).faults.toList =
      [.operator "$.name" (.failed (.parameter "set a name")),
        .operator "$.hosts.0" (.failed (.parameter "parameter was never overridden")),
        .operator "$.hosts.1" (.failed (.parameter "hosts"))] ∧
    reported (runPhase .builtin 1 .param ⟨unsetParameters, {}⟩).1 =
      [.operator "$.hosts.0" (.argumentText ⟨.unclosedQuote, 0⟩),
        .operator "$.name" (.failed (.parameter "set a name")),
        .operator "$.hosts.1" (.failed (.parameter "parameter was never overridden"))] ∧
    ParameterChecksAgree unsetParameters {} (unsetParameters.walk Visitor.checkParameters 1)
      (runPhase .builtin 1 .param ⟨unsetParameters, {}⟩) :=
  ⟨by decide, by rfl, by rfl, parameter_checks_agree (by decide) unsetParameters {}⟩

end Evaluation

end Laminate
