import Laminate.Proofs.Evaluation.CallRun
import Laminate.Proofs.Evaluation.Settled

/-!
# What calls to `grab` find

A call to `grab` puts the value of its reference in its own place, and nothing replaces that value
later. The calls that its path leads to, or above, have all run before it (`exists_grabRun`), so if
the path is settled it leads to the same value in the end (`resolve_of_settled`).

If the path is not settled, a call that computes the name of an element may turn it to another
element. Then the reference has another value in the end than the call has found, and that is the
only way in which the two can differ.
-/

namespace Laminate.Evaluation

/-! ## Calls to `grab` -/

/-- A call to `grab` with a reference to something below the root as its only argument. -/
structure Grabs (site : CallSite) (path : Cursor) : Prop where
  name : site.call.name = "grab"
  argument : Argument.parseAll site.call.args = .ok [.reference path]
  below_root : path ≠ .root

/-- In a tree the place of a call and the end of a path hold the same. -/
def EqualsTarget (tree : Node) (site : CallSite) (path : Cursor) : Prop :=
  ∃ value, site.place.cursor.resolve tree = .ok value ∧ path.resolve tree = .ok value

/-- What is between the trees of the last phase as it begins, as a call runs, and as the phase ends:
the value that the call finds takes its place and stays, and where the call waits for others nothing
happens after it. -/
structure GrabRun (tree before final : Node) (site : CallSite) (path : Cursor) (f g : Filling)
    (value : Node) : Prop where
  before_eq : before = tree.fill f
  final_eq : final = tree.fill g
  found : path.resolve before = .ok value
  pending : f site.place.cursor.components = none
  placed : g site.place.cursor.components = some value
  waited : ∀ dependency, existingBeginning? tree path = some dependency →
    ∀ place, dependency.components <+: place → g place = f place

theorem resolve_of_run_grab {tree value : Node} {here path : Cursor} {context after : Context}
    (h : Operator.grab.run ⟨tree, here, [.reference path]⟩ context
      = (.ok (.replace value), after)) : path.resolve tree = .ok value := by
  have hvalue : ((Argument.reference path).resolve tree).map Response.replace
      = .ok (.replace value) := congrArg Prod.fst h
  obtain ⟨found, hfound, heq⟩ := exists_of_map_eq_ok hvalue
  cases heq
  exact eq_ok_of_mapError hfound

/-- **A call to `grab` that runs without a fault puts what it finds in its place for good.** -/
theorem exists_grabRun {entered final : Evaluation} (hwf : entered.tree.WellFormed)
    {calls : List PlannedCall}
    (hordered : ordered (planFor .builtin .eval entered.tree).calls = .ok calls)
    (hrun : entered.runCalls calls = ([], final)) {site : CallSite}
    (hsite : site ∈ entered.tree.callSites) {path : Cursor} (hgrabs : Grabs site path) :
    ∃ before f g value, RunsIn entered site before ∧
      GrabRun entered.tree before.tree final.tree site path f g value := by
  let call : PlannedCall := ⟨site, .grab, [.reference path],
    automaticDependencies entered.tree [.reference path]⟩
  have hcall : call ∈ (planFor .builtin .eval entered.tree).calls := by
    refine mem_planFor_calls.mpr ⟨hsite, plannedCall?_eq_some.mpr
      ⟨?_, rfl, hgrabs.argument, rfl, rfl⟩⟩
    rw [show call.site.call.name = "grab" from hgrabs.name]
    rfl
  obtain ⟨before, after, f, g, value, hcallRun⟩ := exists_callRun hwf hordered hrun hcall
  refine ⟨before, f, g, value, hcallRun.runs, ?_⟩
  exact
    { before_eq := hcallRun.before_eq
      final_eq := hcallRun.final_eq
      found := resolve_of_run_grab hcallRun.answers
      pending := hcallRun.pending
      placed := hcallRun.placed
      waited := fun dependency hdependency => hcallRun.waited dependency
        (mem_automaticDependencies.mpr ⟨path, List.mem_singleton.mpr rfl, hdependency⟩) }

namespace GrabRun

variable {tree before final : Node} {site : CallSite} {path : Cursor} {f g : Filling} {value : Node}

/-- In the end the value stands in the place of the call. -/
theorem resolve_place (h : GrabRun tree before final site path f g value) (hwf : tree.WellFormed)
    (hsite : site ∈ tree.callSites) : site.place.cursor.resolve final = .ok value := by
  rw [h.final_eq]
  exact resolve_place_fill hwf hsite h.placed

/-- A call with a settled path that finds something waits for some place: at the root a call cannot
make a step succeed that fails now. -/
theorem exists_dependency (h : GrabRun tree before final site path f g value)
    (hwf : tree.WellFormed) (hsite : site ∈ tree.callSites) (hroot : path ≠ .root)
    (hsettled : tree.Settled path.components) :
    ∃ dependency, existingBeginning? tree path = some dependency := by
  refine Option.ne_none_iff_exists'.mp fun hnone => ?_
  obtain ⟨components⟩ := path
  cases components with
  | nil => exact hroot rfl
  | cons c cs =>
    have hfound : (tree.fill f).resolve (c :: cs) = .ok value := h.before_eq ▸ h.found
    obtain ⟨d, child, hstep, -⟩ := Node.resolve_cons_ok.mp hfound
    cases hscalar : tree.isScalar with
    | false =>
      -- the first step leads somewhere in the tree already, so there is something to wait for
      obtain ⟨child', hstep'⟩ := Node.step_fill_error hscalar (hsettled.2 c rfl) hstep
      exact existingBeginning?_eq_none hnone 1 Nat.one_pos (Nat.succ_pos _) [d]
        (Node.canonical_cons_ok.mpr ⟨d, child', [], hstep', rfl, rfl⟩)
    | true =>
      -- the whole tree is the call itself, which has not run yet
      cases tree with
      | scalar s =>
        obtain ⟨text, hat, -⟩ := Node.at_of_mem_callSites hwf hsite
        have hpending := h.pending
        rw [hat.eq_nil_of_scalar] at hpending
        rw [Node.fill_scalar, hpending] at hstep
        split at hstep <;> cases hstep
      | _ => cases hscalar

/-- **A settled path leads in the end to what the call has found.** -/
theorem resolve_of_settled (h : GrabRun tree before final site path f g value)
    (hwf : tree.WellFormed) (hsite : site ∈ tree.callSites) (hroot : path ≠ .root)
    (hsettled : tree.Settled path.components) : path.resolve final = .ok value := by
  obtain ⟨dependency, hdependency⟩ := h.exists_dependency hwf hsite hroot hsettled
  obtain ⟨k, -, -, hcanonical, -⟩ := existingBeginning?_eq_some hdependency
  obtain ⟨m, -, hm⟩ := Node.canonical_at hwf hcanonical
  have hparts : path.components = path.components.take k ++ path.components.drop k :=
    (List.take_append_drop k path.components).symm
  have hsteady : tree.Steady (path.components.take k) := Node.Steady.of_append (hparts ▸ hsettled.1)
  -- below the dependency the two fillings are the same
  have hbelow : g.below dependency.components = f.below dependency.components := by
    funext rest
    exact h.waited dependency hdependency _ (List.prefix_append _ _)
  have hlead := Node.resolve_fill_append hsteady hcanonical hm
  have hfound := h.found
  rw [h.before_eq, Cursor.resolve, hparts, hlead, ← hbelow, ← hlead, ← hparts] at hfound
  rw [h.final_eq]
  exact hfound

end GrabRun

/-! ## Whole runs -/

/-- **After a run that succeeds, the place of a call to `grab` and its reference hold the same if
and only if the reference still leads to what it led to when the call ran; if no call decides where
the reference leads, they always do.** -/
theorem grab_equals_target_iff {budget : Nat} {state final : Evaluation}
    (hwf : state.tree.WellFormed) (hrun : state.run .builtin budget = (.ok (), final)) :
    ∃ entered, runPhases .builtin budget [.merge, .param] state = (.ok (), entered) ∧
      ∀ site ∈ entered.tree.callSites, ∀ path, Grabs site path →
        (∃ before, RunsIn entered site before ∧
          (∃ value, path.resolve before.tree = .ok value) ∧
          site.place.cursor.resolve final.tree = path.resolve before.tree ∧
          (EqualsTarget final.tree site path ↔
            path.resolve final.tree = path.resolve before.tree)) ∧
        (entered.tree.Settled path.components → EqualsTarget final.tree site path) := by
  obtain ⟨entered, hentered, hphase⟩ := run_eq_ok.mp hrun
  refine ⟨entered, hentered, fun site hsite path hgrabs => ?_⟩
  have hwf' : entered.tree.WellFormed := wellFormed_runPhases (by decide) hwf hentered
  obtain ⟨-, -, calls, hordered, hcalls⟩ := runPhase_eq_ok.mp hphase
  obtain ⟨before, f, g, value, hruns, hgrab⟩ := exists_grabRun hwf' hordered hcalls hsite hgrabs
  have hplace := hgrab.resolve_place hwf' hsite
  refine ⟨⟨before, hruns, ⟨value, hgrab.found⟩, hplace.trans hgrab.found.symm, ?_⟩,
    fun hsettled => ?_⟩
  · rw [hgrab.found]
    constructor
    · rintro ⟨value', hplace', hpath'⟩
      rw [hplace] at hplace'
      cases hplace'
      exact hpath'
    · exact fun hpath => ⟨value, hplace, hpath⟩
  · exact ⟨value, hplace, hgrab.resolve_of_settled hwf' hsite hgrabs.below_root hsettled⟩

/-- A node before a list of elements with a name and a value each. -/
def beforeList (n : Node) (elements : List (Scalar × Scalar)) : Node :=
  .mapping [("a", n),
    ("list", .sequence (elements.map fun e =>
      .mapping [("name", .scalar e.1), ("v", .scalar e.2)]))]

/-- A call that refers to an element whose value is computed by another call. -/
def chainedCalls : Evaluation where
  tree := beforeList (.string "(( grab list.x.v ))")
    [(.string "x", .string "(( grab list.y.v ))"), (.string "y", .integer 1)]
  context := {}

theorem grab_equals_target_of_chained_calls :
    EqualsTarget (beforeList (.integer 1) [(.string "x", .integer 1), (.string "y", .integer 1)])
      (siteAtKey "a" "grab" "list.x.v") ⟨["list", "x", "v"]⟩ := by
  have hwf : chainedCalls.tree.WellFormed := by
    refine .mapping (by decide) (List.forall_mem_cons.mpr
      ⟨.scalar _, List.forall_mem_singleton.mpr (.sequence (by decide) fun n hn => ?_)⟩)
    obtain ⟨e, -, rfl⟩ := List.mem_map.mp hn
    have hnodup : ["name", "v"].Nodup := by decide
    exact .mapping hnodup (List.forall_mem_cons.mpr
      ⟨.scalar e.1, List.forall_mem_singleton.mpr (.scalar e.2)⟩)
  have hplan : (planFor .builtin .eval chainedCalls.tree).calls =
      [⟨siteAtKey "a" "grab" "list.x.v", .grab, [.reference ⟨["list", "x", "v"]⟩],
          [⟨["list", "0", "v"]⟩]⟩,
        ⟨⟨⟨⟨["list", "0", "v"]⟩, ⟨["list", "x", "v"]⟩⟩, ⟨"grab", "list.y.v"⟩⟩, .grab,
          [.reference ⟨["list", "y", "v"]⟩], [⟨["list", "1", "v"]⟩]⟩] := rfl
  have hlast : chainedCalls.runPhase .builtin 32 .eval = (.ok (), ⟨beforeList (.integer 1)
      [(.string "x", .integer 1), (.string "y", .integer 1)], {}⟩) :=
    runPhase_eq_ok.mpr ⟨by decide, rfl, _, by rw [hplan]; rfl, rfl⟩
  have hentered : runPhases .builtin 32 [.merge, .param] chainedCalls
      = (.ok (), chainedCalls) := rfl
  obtain ⟨entered, hentered', h⟩ :=
    grab_equals_target_iff hwf (run_eq_ok.mpr ⟨chainedCalls, hentered, hlast⟩)
  rw [hentered] at hentered'
  cases hentered'
  refine (h _ List.mem_cons_self _ ⟨rfl, rfl, by decide⟩).2 ⟨?_, ?_⟩
  · exact .cons rfl trivial (.cons rfl (fun _ => Or.inl ⟨rfl, rfl⟩) (.cons rfl trivial trivial))
  · rintro c ⟨⟩
    trivial

/-- A call that refers to the second element by its name, while a call in the first one computes the
same name. -/
def computedName : Evaluation where
  tree := beforeList (.string "(( grab list.x.v ))")
    [(.string "(( concat \"x\" \"\" ))", .integer 1), (.string "x", .integer 2)]
  context := {}

/-- The reference leads to the second element when the call runs, and to the first one in the
end. -/
theorem grab_of_computed_name :
    runPhases .builtin 32 [.merge, .param] computedName = (.ok (), computedName) ∧
    siteAtKey "a" "grab" "list.x.v" ∈ computedName.tree.callSites ∧
    Grabs (siteAtKey "a" "grab" "list.x.v") ⟨["list", "x", "v"]⟩ ∧
    computedName.run .builtin 32 = (.ok (), ⟨beforeList (.integer 2)
      [(.string "x", .integer 1), (.string "x", .integer 2)], {}⟩) ∧
    ¬EqualsTarget (beforeList (.integer 2) [(.string "x", .integer 1), (.string "x", .integer 2)])
      (siteAtKey "a" "grab" "list.x.v") ⟨["list", "x", "v"]⟩ := by
  have hentered : runPhases .builtin 32 [.merge, .param] computedName
      = (.ok (), computedName) := rfl
  have hlast : computedName.runPhase .builtin 32 .eval = (.ok (), ⟨beforeList (.integer 2)
      [(.string "x", .integer 1), (.string "x", .integer 2)], {}⟩) := rfl
  refine ⟨hentered, List.mem_cons_self, ⟨rfl, rfl, by decide⟩,
    run_eq_ok.mpr ⟨_, hentered, hlast⟩, ?_⟩
  have hplace : (siteAtKey "a" "grab" "list.x.v").place.cursor.resolve (beforeList (.integer 2)
      [(.string "x", .integer 1), (.string "x", .integer 2)]) = .ok (.integer 2) := rfl
  have hpath : Cursor.resolve ⟨["list", "x", "v"]⟩ (beforeList (.integer 2)
      [(.string "x", .integer 1), (.string "x", .integer 2)]) = .ok (.integer 1) := rfl
  rintro ⟨value, hplace', hpath'⟩
  rw [hplace] at hplace'
  rw [hpath] at hpath'
  cases hplace'
  cases hpath'

end Laminate.Evaluation
