import Laminate.Proofs.Evaluation.Grab
import Laminate.Proofs.Evaluation.Undisturbed
import Laminate.Proofs.Node.WellFormed
import Laminate.Proofs.Walk.Expansion

/-!
# Following references and running calls

There are two ways to replace the calls to `grab` of a tree. A walk follows each reference in the
tree as it was, again and again, within a budget; a run puts the calls into an order and lets each
read the tree as it is by then. Where the walk comes to an end without a fault, both give the same
tree (`run_eq_dereferenced`).

What ties them together are expansions. The walk gives the expansion of the tree. In a tree that
expands every call has a target, and no call depends on itself over others (`not_transGen_self`), so
the calls can be ordered and none of them fails. In the end each has in its place what stands at its
target (`follows_of_runCalls`), and only the expansion is like that (`Expands.fill_eq`).
-/

namespace Laminate

open Relation

/-- The tree after a walk that follows references, if the walk has no faults. -/
def Node.dereferenced (tree : Node) (budget : Nat) : Except Faults Node :=
  let walked := tree.walk (Visitor.dereference tree) budget
  walked.faults.toExcept walked.value

variable {tree : Node}

/-- A tree with its references followed is the expansion of the tree. -/
theorem Node.expands_of_dereferenced {followed : Node} {budget : Nat} (hwf : tree.WellFormed)
    (htree : tree.OnlyGrabs) (h : tree.dereferenced budget = .ok followed) :
    tree.Expands tree followed := by
  have hexpands := Walk.expands_of_walk hwf htree budget tree [] (.here _) .root
  unfold Node.dereferenced Node.walk at h
  generalize Walk.walk (Visitor.dereference tree) budget tree .root = walked at h hexpands
  simp only [Faults.toExcept] at h
  split at h
  · next hempty =>
    cases h
    exact hexpands (List.isEmpty_iff.mp hempty)
  · cases h

/-! ## Elements -/

namespace Node

theorem call?_eq_none_of_field? {item n : Node} {field : String} (h : item.field? field = none)
    (hget : item.get? field = some n) : n.call? = none := by
  rw [field?, hget] at h
  cases hcall : n.call? with
  | none => rfl
  | some call =>
    obtain ⟨text, rfl, -⟩ := call?_eq_some hcall
    cases h

theorem PlainElement.firm {item : Node} (h : item.PlainElement) : item.Firm := by
  refine ⟨h.no_call, fun field hfield n hn => ?_⟩
  simp only [nameFields, List.mem_cons, List.not_mem_nil, or_false] at hfield
  rcases hfield with rfl | rfl | rfl
  · exact h.name_no_call n hn
  · exact call?_eq_none_of_field? h.no_key hn
  · exact call?_eq_none_of_field? h.no_id hn

theorem PlainElements.firmElements {n : Node} (h : n.PlainElements) : n.FirmElements := by
  induction h with
  | scalar s => exact .scalar s
  | sequence plain _ ih => exact .sequence (fun item hitem => (plain item hitem).firm) ih
  | mapping _ ih => exact .mapping ih

/-- A reference leads in every filling to its filled target. -/
theorem Refers.resolve_fill {call : Call} {place : List String} {target : Node}
    (h : tree.Refers call place target) (hwf : tree.WellFormed) (hfirm : tree.FirmElements)
    (f : Filling) : (tree.fill f).resolve (DottedPath.steps call.args)
      = .ok (target.fill (f.below place)) := by
  obtain ⟨m, hm, hresolve⟩ := canonical_at hwf h.canonical
  rw [hm.unique h.stands] at hresolve
  have hfill := resolve_fill_append hfirm.steady h.canonical hresolve f []
  rw [List.append_nil] at hfill
  exact (hfill _).mpr rfl

end Node

/-! ## Fillings that follow references -/

/-- In the filled tree every call has in its place what stands at its target. -/
def Filling.Follows (g : Filling) (tree : Node) : Prop :=
  ∀ path n call place target, tree.At path n → n.call? = some call →
    tree.Refers call place target → n.fill (g.below path) = target.fill (g.below place)

namespace Node.Expands

/-- In such a filling every node that expands is its expansion. -/
theorem fill_eq (hwf : tree.WellFormed) {g : Filling} (hg : g.Follows tree) {n value : Node}
    (h : tree.Expands n value) : ∀ path, tree.At path n → n.fill (g.below path) = value := by
  induction h with
  | scalar no_call => exact fun path _ => fill_of_no_call no_call _
  | @call n target value call place is_call refers _ ih =>
    intro path hat
    rw [hg path n call place target hat is_call refers]
    exact ih place refers.stands
  | @sequence items values length_eq _ ih =>
    intro path hat
    rw [fill_sequence]
    refine congrArg Node.sequence (List.ext_getElem? fun i => ?_)
    rw [getElem?_fillItems, Nat.zero_add, Filling.below_below]
    cases hitem : items[i]? with
    | none =>
      rw [Option.map_none, eq_comm, List.getElem?_eq_none_iff, length_eq]
      exact List.getElem?_eq_none_iff.mp hitem
    | some item =>
      have hlt := (List.getElem?_eq_some_iff.mp hitem).1
      have hvalue := List.getElem?_eq_getElem (length_eq ▸ hlt)
      rw [Option.map_some, hvalue, ih i item _ hitem hvalue _ (hat.item_at hwf hitem)]
  | @mapping es values keys_eq _ ih =>
    intro path hat
    rw [fill_mapping]
    have hkeys := keys_fillEntries es (g.below path)
    have hnodup := (hwf.resolve hat.resolve).nodup
    refine congrArg Node.mapping (Entries.eq_of_get?_eq (hkeys ▸ hnodup) (hkeys.trans keys_eq.symm)
      fun key hkey => ?_)
    rw [hkeys] at hkey
    obtain ⟨n, hn⟩ := Entries.exists_get?_of_mem_keys hkey
    obtain ⟨value, hvalue⟩ := Entries.exists_get?_of_mem_keys (keys_eq ▸ hkey)
    rw [get?_fillEntries, Filling.below_below, hn, hvalue, Option.map_some,
      ih key n value hn hvalue _ (hat.value_at hn)]

/-- In a tree that expands, every call refers to something other than the root. -/
theorem exists_refers (hwf : tree.WellFormed) {value : Node} (h : tree.Expands tree value)
    {path : List String} {n : Node} {call : Call} (hat : tree.At path n)
    (hcall : n.call? = some call) :
    DottedPath.steps call.args ≠ [] ∧ ∃ place target, tree.Refers call place target := by
  refine h.forall_calls hwf (P := fun _ call => DottedPath.steps call.args ≠ [] ∧
    ∃ place target, tree.Refers call place target) ?_ hat hcall
  intro path n call place target hat hcall hrefers hbelow
  refine ⟨fun hnil => ?_, place, target, hrefers⟩
  -- a reference to the root would have the call itself below its target
  have hplace : place = [] := by
    have := hrefers.canonical
    rw [hnil] at this
    cases this
    rfl
  subst hplace
  obtain rfl := hrefers.stands.unique (.here tree)
  exact (hbelow path n call hat hcall).1 hnil

end Node.Expands

/-- The call is one of the tree, and its only argument is its path. -/
structure PlannedCall.IsGrab (tree : Node) (call : PlannedCall) : Prop where
  site_mem : call.site ∈ tree.callSites
  operator_eq : call.operator = .grab
  args_eq : call.args = [.reference ⟨DottedPath.steps call.site.call.args⟩]
  dependencies_eq : call.dependencies = Evaluation.automaticDependencies tree call.args

namespace Evaluation

/-! ## Plans -/

section Plans

variable (htree : tree.OnlyGrabs)
include htree

theorem operator_of_planned {phase : Phase} {call : PlannedCall}
    (h : call ∈ (planFor .builtin phase tree).calls) : call.operator = .grab := by
  obtain ⟨hsite, hcall⟩ := mem_planFor_calls.mp h
  have hoperator := (plannedCall?_eq_some.mp hcall).1
  rw [(htree.calls _ hsite).1] at hoperator
  exact (Option.some.inj hoperator).symm

/-- The calls of a plan are calls to `grab` with one reference. -/
theorem isGrab_of_planned {phase : Phase} {call : PlannedCall}
    (h : call ∈ (planFor .builtin phase tree).calls) : call.IsGrab tree := by
  obtain ⟨hsite, hcall⟩ := mem_planFor_calls.mp h
  obtain ⟨-, -, hargs, -, hdependencies⟩ := plannedCall?_eq_some.mp hcall
  have hoperator := operator_of_planned htree h
  rw [(htree.calls _ hsite).2.parseAll_eq] at hargs
  rw [hoperator] at hdependencies
  exact ⟨hsite, hoperator, (Except.ok.inj hargs).symm, hdependencies⟩

theorem faults_planFor (phase : Phase) : (planFor .builtin phase tree).faults = [] := by
  rw [planFor, ofSites_faults, List.filterMap_eq_nil_iff]
  intro site hsite
  obtain ⟨hname, hbare⟩ := htree.calls site hsite
  have hfind : Registry.builtin.find? site.call.name = some .grab := by rw [hname]; rfl
  simp only [planFault?, hfind, hbare.parseAll_eq]

theorem runPhase_of_ne_eval {budget : Nat} (hbudget : 0 < budget) {phase : Phase}
    (hphase : phase ≠ .eval) (context : Context) :
    runPhase .builtin budget phase ⟨tree, context⟩ = (.ok (), ⟨tree, context⟩) := by
  have hcalls : (planFor .builtin phase tree).calls = [] :=
    List.eq_nil_iff_forall_not_mem.mpr fun call hcall => by
      have hoperator := (plannedCall?_eq_some.mp (mem_planFor_calls.mp hcall).2).2.1
      rw [operator_of_planned htree hcall] at hoperator
      exact hphase hoperator.symm
  refine runPhase_eq_ok.mpr ⟨hbudget, faults_planFor htree phase, [], ?_, rfl⟩
  rw [hcalls]
  rfl

end Plans

/-! ## The order of calls -/

/-- A call waits for its target. -/
theorem dependencies_of_refers {call : PlannedCall} (hgrab : call.IsGrab tree)
    (hne : DottedPath.steps call.site.call.args ≠ []) {place : List String} {target : Node}
    (hrefers : tree.Refers call.site.call place target) : call.dependencies = [⟨place⟩] := by
  have hbeginning : existingBeginning? tree ⟨DottedPath.steps call.site.call.args⟩ = some ⟨place⟩ :=
    existingBeginning?_of_canonical (List.length_pos_iff.mpr hne) hrefers.canonical
  rw [hgrab.dependencies_eq, hgrab.args_eq]
  simp [automaticDependencies, hbeginning]

/-- What a call depends on stands at or below its target. -/
theorem exists_below_of_dependsOn (hwf : tree.WellFormed) (htree : tree.OnlyGrabs) {i j : Nat}
    {call : PlannedCall} (hi : (planFor .builtin .eval tree).calls[i]? = some call)
    (hne : DottedPath.steps call.site.call.args ≠ []) {place : List String} {target : Node}
    (hrefers : tree.Refers call.site.call place target)
    (h : DependsOn (planFor .builtin .eval tree).calls i j) :
    ∃ rest n other, target.At rest n ∧ n.call? = some other.site.call ∧
      (planFor .builtin .eval tree).calls[j]? = some other ∧
      other.site.place.cursor.components = place ++ rest := by
  obtain ⟨_, other, hi', hj, dependency, hdependency, rest, hrest⟩ := h
  rw [hi] at hi'
  cases hi'
  rw [dependencies_of_refers (isGrab_of_planned htree (List.mem_of_getElem? hi)) hne hrefers,
    List.mem_singleton] at hdependency
  subst hdependency
  obtain ⟨n, hat, hcall⟩ := Node.exists_at_of_mem_callSites hwf
    (isGrab_of_planned htree (List.mem_of_getElem? hj)).site_mem
  rw [← hrest] at hat
  obtain ⟨m, hm, hn⟩ := hat.exists_of_append
  obtain rfl := hm.unique hrefers.stands
  exact ⟨rest, n, other, hn, hcall, hj, hrest.symm⟩

section Expanding

variable (hwf : tree.WellFormed) (htree : tree.OnlyGrabs) {value : Node}
  (h : tree.Expands tree value)
include hwf htree h

/-- In a tree that expands no call depends on itself over others. -/
theorem not_transGen_self (i : Nat) :
    ¬TransGen (DependsOn (planFor .builtin .eval tree).calls) i i := by
  intro hcycle
  obtain ⟨-, ⟨call, -, hi, -⟩, -⟩ := TransGen.head'_iff.mp hcycle
  obtain ⟨n, hat, hcall⟩ := Node.exists_at_of_mem_callSites hwf
    (isGrab_of_planned htree (List.mem_of_getElem? hi)).site_mem
  refine h.forall_calls hwf (P := fun path _ => ∀ (i : Nat) call,
    (planFor .builtin .eval tree).calls[i]? = some call →
    call.site.place.cursor.components = path →
    ¬TransGen (DependsOn (planFor .builtin .eval tree).calls) i i) ?_ hat hcall i call hi rfl hcycle
  rintro path n call place target hat hcall hrefers hbelow i planned hi rfl hcycle
  obtain ⟨n', hat', hcall'⟩ := Node.exists_at_of_mem_callSites hwf
    (isGrab_of_planned htree (List.mem_of_getElem? hi)).site_mem
  obtain rfl := hat.unique hat'
  rw [hcall] at hcall'
  cases hcall'
  -- the next call on the circle stands at or below the target, and is on a circle too
  obtain ⟨j, hij, hji⟩ := TransGen.head'_iff.mp hcycle
  obtain ⟨rest, m, other, hm, hmcall, hj, hother⟩ := exists_below_of_dependsOn hwf htree hi
    (h.exists_refers hwf hat hcall).1 hrefers hij
  exact hbelow rest m other.site.call hm hmcall j other hj hother (TransGen.tail' hji hij)

/-- The calls of a tree that expands can be ordered. -/
theorem exists_ordered : ∃ calls, ordered (planFor .builtin .eval tree).calls = .ok calls :=
  exists_ordered_of_acyclic fun ⟨i, hi⟩ => not_transGen_self hwf htree h i hi

end Expanding

/-! ## Running calls to `grab` -/

/-- A call to `grab` with a target takes over what stands there. -/
theorem runCall_grab (hwf : tree.WellFormed) (hfirm : tree.FirmElements) {call : PlannedCall}
    (hgrab : call.IsGrab tree) (hfills : FillsIn tree call) {place : List String} {target : Node}
    (hrefers : tree.Refers call.site.call place target) (f : Filling) (context : Context) :
    runCall ⟨tree.fill f, context⟩ call = ([], ⟨tree.fill (f.set
      call.site.place.cursor.components (target.fill (f.below place))), context⟩) := by
  have hresolve := hrefers.resolve_fill hwf hfirm f
  refine runCall_of_ok ?_ (respond_fill hwf hfills rfl _)
  rw [hgrab.operator_eq, hgrab.args_eq]
  simp only [Operator.grab, Operator.grabValue, Argument.resolve, Cursor.resolve, hresolve]
  rfl

section Expanding

variable (hwf : tree.WellFormed) (htree : tree.OnlyGrabs) {value : Node}
  (h : tree.Expands tree value)
include hwf htree h

/-- In a tree that expands no call fails, and all that happens is that values are filled in. -/
theorem runCalls_grabs {calls : List PlannedCall}
    (hcalls : ∀ call ∈ calls, call ∈ (planFor .builtin .eval tree).calls) :
    ∀ (f : Filling) (context : Context), ∃ g,
      runCalls ⟨tree.fill f, context⟩ calls = ([], ⟨tree.fill g, context⟩) := by
  induction calls with
  | nil => exact fun f _ => ⟨f, rfl⟩
  | cons call calls ih =>
    intro f context
    obtain ⟨hcall, hcalls⟩ := List.forall_mem_cons.mp hcalls
    have hgrab := isGrab_of_planned htree hcall
    obtain ⟨n, hat, hn⟩ := Node.exists_at_of_mem_callSites hwf hgrab.site_mem
    obtain ⟨-, place, target, hrefers⟩ := h.exists_refers hwf hat hn
    obtain ⟨g, hg⟩ := ih hcalls _ context
    refine ⟨g, ?_⟩
    rw [runCalls_cons, runCall_grab hwf htree.elements.firmElements hgrab (fillsIn_of_mem hwf hcall)
      hrefers, hg]
    rfl

/-- After a run every call has in its place what stands at its target in the end. -/
theorem follows_of_runCalls {calls : List PlannedCall} {context : Context} {g : Filling}
    (hordered : ordered (planFor .builtin .eval tree).calls = .ok calls)
    (hrun : runCalls ⟨tree, context⟩ calls = ([], ⟨tree.fill g, context⟩)) : g.Follows tree := by
  intro path n call place target hat hcall hrefers
  have hfirm := htree.elements.firmElements
  obtain ⟨hne, -⟩ := h.exists_refers hwf hat hcall
  obtain ⟨text, rfl, hparse⟩ := Node.call?_eq_some hcall
  obtain ⟨site, hsite, rfl, hplace⟩ := Node.exists_callSite hat hparse
  obtain ⟨hname, hbare⟩ := htree.calls site hsite
  have hroot : (⟨DottedPath.steps site.call.args⟩ : Cursor) ≠ .root :=
    fun heq => hne (congrArg Cursor.components heq)
  obtain ⟨before, f, g', found, -, hgrab⟩ := @exists_grabRun ⟨tree, context⟩ ⟨tree.fill g, context⟩
    hwf calls hordered hrun site hsite _ ⟨hname, hbare.parseAll_eq, hroot⟩
  have htarget := hgrab.resolve_of_settled hwf hsite hroot
    ⟨hfirm.steady, fun c _ => hfirm.settles c⟩
  have hhere := hgrab.resolve_place hwf hsite
  rw [hplace, Cursor.resolve, (hat.fill g).resolve] at hhere
  rw [Cursor.resolve, hrefers.resolve_fill hwf hfirm g, ← hhere] at htarget
  exact (Except.ok.inj htarget).symm

end Expanding

/-! ## Agreement -/

/-- **If a walk follows the references of a tree without a fault, with any budget, then a run of the
tree succeeds and gives the same tree.** -/
theorem run_eq_dereferenced {followed : Node} (hwf : tree.WellFormed) (htree : tree.OnlyGrabs)
    {walkBudget : Nat} (hwalk : tree.dereferenced walkBudget = .ok followed) {budget : Nat}
    (hbudget : 0 < budget) (context : Context) :
    run .builtin budget ⟨tree, context⟩ = (.ok (), ⟨followed, context⟩) := by
  have hexpands := Node.expands_of_dereferenced hwf htree hwalk
  obtain ⟨calls, hordered⟩ := exists_ordered hwf htree hexpands
  obtain ⟨g, hrun⟩ := runCalls_grabs hwf htree hexpands (fun call => mem_of_ordered hordered)
    .empty context
  rw [Node.fill_empty] at hrun
  have hfill : tree.fill g = followed :=
    hexpands.fill_eq hwf (follows_of_runCalls hwf htree hexpands hordered hrun) [] (.here _)
  rw [hfill] at hrun
  have hentered : runPhases .builtin budget [.merge, .param] ⟨tree, context⟩
      = (.ok (), ⟨tree, context⟩) :=
    runPhases_cons_eq_ok.mpr ⟨_, runPhase_of_ne_eval htree hbudget (by decide) context,
      runPhases_cons_eq_ok.mpr ⟨_, runPhase_of_ne_eval htree hbudget (by decide) context, rfl⟩⟩
  exact run_eq_ok.mpr ⟨_, hentered,
    runPhase_eq_ok.mpr ⟨hbudget, faults_planFor htree .eval, calls, hordered, hrun⟩⟩

/-- A job under a second key, with a port that is a default. -/
def sharedJob (web port : Node) : Node :=
  .mapping [("web", web),
    ("jobs", .sequence [.mapping [("name", .string "api"), ("port", port)]]),
    ("defaults", .mapping [("port", .integer 80)])]

/-- A reference to a job that has a reference to a default in it. -/
def nestedReferences : Node :=
  sharedJob (.string "(( grab jobs.api ))") (.string "(( grab defaults.port ))")

theorem run_eq_dereferenced_of_nested :
    nestedReferences.WellFormed ∧ nestedReferences.OnlyGrabs ∧
      nestedReferences.dereferenced 3 = .ok (sharedJob
        (.mapping [("name", .string "api"), ("port", .integer 80)]) (.integer 80)) ∧
      run .builtin 1 ⟨nestedReferences, {}⟩ = (.ok (), ⟨sharedJob
        (.mapping [("name", .string "api"), ("port", .integer 80)]) (.integer 80), {}⟩) := by
  have hwf : nestedReferences.WellFormed := by decide
  have hjobs : BarePath "jobs.api" := by decide
  have hport : BarePath "defaults.port" := by decide
  have hjob : (Node.mapping [("name", .string "api"),
      ("port", .string "(( grab defaults.port ))")]).PlainElement := by
    refine ⟨rfl, rfl, rfl, ?_⟩
    rintro n ⟨⟩
    rfl
  have hcalls : nestedReferences.callSites.map CallSite.call
      = [⟨"grab", "jobs.api"⟩, ⟨"grab", "defaults.port"⟩] := by decide +kernel
  have hgrabs : nestedReferences.OnlyGrabs := by
    refine ⟨fun site hsite => ?_, ?_⟩
    · have hcall : site.call ∈ nestedReferences.callSites.map CallSite.call :=
        List.mem_map_of_mem hsite
      rw [hcalls, List.mem_cons, List.mem_singleton] at hcall
      rcases hcall with hcall | hcall
      · exact hcall ▸ ⟨rfl, hjobs⟩
      · exact hcall ▸ ⟨rfl, hport⟩
    refine .mapping (List.forall_mem_cons.mpr ⟨.scalar _, List.forall_mem_cons.mpr
      ⟨.sequence (List.forall_mem_singleton.mpr hjob) (List.forall_mem_singleton.mpr ?_),
        List.forall_mem_singleton.mpr (.mapping (List.forall_mem_singleton.mpr (.scalar _)))⟩⟩)
    exact .mapping (List.forall_mem_cons.mpr ⟨.scalar _, List.forall_mem_singleton.mpr (.scalar _)⟩)
  have hwalk : nestedReferences.dereferenced 3 = .ok (sharedJob
      (.mapping [("name", .string "api"), ("port", .integer 80)]) (.integer 80)) := rfl
  exact ⟨hwf, hgrabs, hwalk, run_eq_dereferenced hwf hgrabs hwalk (by decide) {}⟩

end Evaluation

end Laminate
