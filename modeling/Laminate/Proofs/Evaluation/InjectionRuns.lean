import Laminate.Proofs.Evaluation.InjectionOrder

/-!
# Injection does not depend on the order of keys

If the calls before a call have come to the same in two runs, then so does the call
(`InjectionRuns.takenTwice`), and by induction each step of one run comes to the same as a step of
the other one (`InjectionRuns.exists_agreeing_steps`). So untangled injections of reordered trees
have the same faults and leave reordered trees (`runPhase_untangled`). Injections that are not
untangled hang on the order of keys (`injection_before_its_target`).
-/

namespace Laminate.Evaluation

/-! ## Runs -/

/-- Calls to `inject` in an order in which none waits for itself or for a later one. -/
structure InjectionRun (tree : Node) (calls : List PlannedCall) : Prop extends
    Runnable tree calls where
  inject : ∀ call ∈ calls, call.operator = Operator.inject
  dependencies : ∀ call ∈ calls, call.dependencies = automaticDependencies tree call.args
  others : calls.Pairwise fun call other => ¬call.WaitsFor other
  own : ∀ call ∈ calls, ¬call.WaitsFor call

namespace InjectionRun

variable {state : Evaluation} {calls done rest : List PlannedCall}

theorem injectionsOf (h : InjectionRun state.tree calls) :
    InjectionsOf state.tree (state.steps calls) where
  inject _ hs := h.inject _ (mem_calls_of_mem_steps hs)
  stands := h.stands_steps
  apart := h.map_place_steps

theorem wellFormed (hwf : state.tree.WellFormed) (h : InjectionRun state.tree calls)
    (hsub : done ⊆ calls) : (state.runCalls done).2.tree.WellFormed :=
  wellFormed_runCalls (fun call hcall =>
    h.inject call (hsub hcall) ▸ Operator.answersWell_inject) hwf

section Step

variable {s : Step} (h : InjectionRun state.tree (done ++ s.call :: rest))
include h

theorem taken (hwf : state.tree.WellFormed) (hbefore : s.before = (state.runCalls done).2) :
    Taken state.tree (state.steps done) s := by
  obtain ⟨hpending, htree, hanswers⟩ := h.toRunnable.at_call hwf
  exact ⟨hpending, hbefore ▸ htree, hbefore ▸ hanswers⟩

/-- What a call waits for comes before it. -/
theorem mem_done {other : PlannedCall} (hother : other ∈ done ++ s.call :: rest)
    (hwaits : s.call.WaitsFor other) : other ∈ done := by
  rcases List.mem_append.mp hother with hdone | hrest
  · exact hdone
  · rcases List.mem_cons.mp hrest with rfl | hrest
    · exact absurd hwaits (h.own _ hother)
    · have hlater := (List.pairwise_append.mp h.others).2.1
      exact absurd hwaits ((List.pairwise_cons.mp hlater).1 _ hrest)

end Step

/-- The steps of a run are known by their calls. -/
theorem mem_steps (h : InjectionRun state.tree calls) {others : List Step}
    (hsub : others ⊆ state.steps calls) {t : Step} (ht : t ∈ state.steps calls)
    (hcall : t.call ∈ others.map Step.call) : t ∈ others := by
  obtain ⟨t', ht', heq⟩ := List.mem_map.mp hcall
  exact List.inj_on_of_nodup_map h.map_place_steps (hsub ht') ht (Step.place_eq heq) ▸ ht'

end InjectionRun

/-- Runs of the injections of reordered trees, each in an order of its own. -/
structure InjectionRuns (start start' : Evaluation) (calls calls' : List PlannedCall) : Prop where
  wellFormed : start.tree.WellFormed
  reordered : start.tree.Reordered start'.tree
  first : InjectionRun start.tree calls
  second : InjectionRun start'.tree calls'
  perm : calls.Perm calls'
  untangled : Untangled start.tree (start.steps calls)

namespace InjectionRuns

variable {start start' : Evaluation} {calls calls' : List PlannedCall}
  (h : InjectionRuns start start' calls calls')
include h

/-- Before the call of a step the two runs have come to the same as far as the call can tell, if
the calls before it in the second run have. -/
theorem takenTwice {s : Step} (hs : s ∈ start.steps calls) {done' rest' : List PlannedCall}
    (hcalls' : calls' = done' ++ s.call :: rest') {others : List Step}
    (hsub : others ⊆ start.steps calls)
    (hagree : List.Forall₂ StepsAgree others (start'.steps done')) :
    ∃ done rest, calls = done ++ s.call :: rest ∧ s.before = (start.runCalls done).2 ∧
      TakenTwice start.tree start'.tree (start.steps calls) (start.steps done) others
        (start'.steps done') s ⟨(start'.runCalls done').2, s.call⟩ := by
  obtain ⟨done, rest, hcalls, hbefore⟩ := exists_of_mem_steps hs
  have hfirst : InjectionRun start.tree (done ++ s.call :: rest) := hcalls ▸ h.first
  have hsecond : InjectionRun start'.tree (done' ++ s.call :: rest') := hcalls' ▸ h.second
  have hprior : start.steps done ⊆ start.steps calls := by
    rw [hcalls, steps_append]
    exact List.subset_append_left _ _
  have hothers : others.map Step.call = done' := by
    rw [map_eq_of_forall₂ hagree fun _ _ hst => hst.call, map_call_steps]
  refine ⟨done, rest, hcalls, hbefore, h.untangled, h.first.injectionsOf, hs, hprior, hsub, hagree,
    hfirst.taken h.wellFormed hbefore, ?_, rfl,
    h.first.dependencies _ (mem_calls_of_mem_steps hs), fun t ht hwaits => ?_⟩
  · exact InjectionRun.taken (s := ⟨_, s.call⟩) hsecond (h.reordered.wellFormed h.wellFormed) rfl
  have htcall : t.call ∈ calls := mem_calls_of_mem_steps ht
  constructor
  · refine h.first.mem_steps hprior ht ?_
    rw [map_call_steps]
    exact hfirst.mem_done (hcalls ▸ htcall) hwaits
  · refine h.first.mem_steps hsub ht ?_
    rw [hothers]
    exact hsecond.mem_done (hcalls' ▸ h.perm.subset htcall) hwaits

/-- **Each step of the second run comes to the same as one of the first.** -/
theorem exists_agreeing_steps : ∀ {done' : List PlannedCall}, done' <+: calls' →
    ∃ others ⊆ start.steps calls, List.Forall₂ StepsAgree others (start'.steps done') := by
  intro done'
  induction done' using List.reverseRecOn with
  | nil => exact fun _ => ⟨[], List.nil_subset _, .nil⟩
  | append_singleton done' call ih =>
    intro hbegins
    obtain ⟨others, hsub, hagree⟩ := ih ((List.prefix_append _ _).trans hbegins)
    obtain ⟨rest', hcalls'⟩ := hbegins
    rw [List.append_assoc, List.singleton_append] at hcalls'
    -- the step of the call in the first run
    have hcall : call ∈ (start.steps calls).map Step.call := by
      rw [map_call_steps, h.perm.mem_iff, ← hcalls']
      exact List.mem_append_right _ List.mem_cons_self
    obtain ⟨s, hs, rfl⟩ := List.mem_map.mp hcall
    obtain ⟨done, rest, hcalls, hbefore, htwice⟩ := h.takenTwice hs hcalls'.symm hsub hagree
    have hbefore_wf : s.before.tree.WellFormed := by
      rw [hbefore]
      exact h.first.wellFormed h.wellFormed (hcalls ▸ List.subset_append_left _ _)
    have hbefore_wf' : (start'.runCalls done').2.tree.WellFormed :=
      h.second.wellFormed (h.reordered.wellFormed h.wellFormed)
        (hcalls' ▸ List.subset_append_left _ _)
    have hstep := htwice.stepsAgree h.wellFormed h.reordered hbefore_wf hbefore_wf'
    have hs_sub : [s] ⊆ start.steps calls := List.cons_subset.mpr ⟨hs, List.nil_subset _⟩
    refine ⟨others ++ [s], List.append_subset.mpr ⟨hsub, hs_sub⟩, ?_⟩
    rw [steps_append]
    exact List.rel_append hagree (.cons hstep .nil)

/-- The steps of the first run in the order of the second one. -/
theorem exists_reordered_steps : ∃ others, others.Perm (start.steps calls) ∧
    List.Forall₂ StepsAgree others (start'.steps calls') := by
  obtain ⟨others, hsub, hagree⟩ := h.exists_agreeing_steps (List.prefix_refl _)
  have hothers : others.map Step.call = calls' := by
    rw [map_eq_of_forall₂ hagree fun _ _ hst => hst.call, map_call_steps]
  have hnodup : others.Nodup := by
    refine List.Nodup.of_map Step.call ?_
    rw [hothers]
    exact h.second.apart.of_map
  refine ⟨others, (List.subperm_of_subset hnodup hsub).perm_of_length_le ?_, hagree⟩
  rw [← List.length_map Step.call, map_call_steps, h.perm.length_eq, ← hothers, List.length_map]

/-- **The two runs have the same faults and leave reordered trees.** -/
theorem runCalls_reordered : (start.runCalls calls).1.Perm (start'.runCalls calls').1 ∧
    (start.runCalls calls).2.tree.Reordered (start'.runCalls calls').2.tree := by
  obtain ⟨others, hperm, hagree⟩ := h.exists_reordered_steps
  have hwf' := h.reordered.wellFormed h.wellFormed
  constructor
  · rw [faults_runCalls, faults_runCalls, List.flatMap, List.flatMap,
      ← map_eq_of_forall₂ hagree fun _ _ hst => hst.faults]
    exact (hperm.symm.map _).flatten
  · have hfinal_wf := h.first.wellFormed h.wellFormed (List.Subset.refl _)
    have hfinal_wf' := h.second.wellFormed hwf' (List.Subset.refl _)
    rw [h.first.tree_eq h.wellFormed] at hfinal_wf ⊢
    rw [h.second.tree_eq hwf'] at hfinal_wf' ⊢
    refine Node.Reordered.changed _ _ _ _ h.reordered (fun path => ?_) hfinal_wf hfinal_wf'
    have hall := h.first.injectionsOf
    have hothers : ∀ t ∈ others, t.call.operator = Operator.inject := fun t ht =>
      hall.inject t (hperm.subset ht)
    have hsame : ∀ t ∈ start.steps calls, t ∈ start.steps calls ↔ t ∈ others := fun t _ =>
      hperm.mem_iff.symm
    refine agree_of_same (agree_changesOf hagree hothers path) hothers hall.inject ?_ fun key => ?_
    · exact gone_changesOf_congr (List.Subset.refl _) hperm.subset fun t ht _ => hsame t ht
    · exact get?_joined_congr h.untangled hall (List.Subset.refl _) hperm.subset
        fun t ht _ _ => hsame t ht

end InjectionRuns

/-! ## The merge phase -/

section MergePhase

variable {tree tree' : Node} {call : PlannedCall}

/-- The calls of the merge phase inject, and wait for what their references lead to. -/
theorem inject_of_mem_planFor (h : call ∈ (planFor .builtin .merge tree).calls) :
    call.operator = Operator.inject ∧ call.dependencies = automaticDependencies tree call.args := by
  obtain ⟨hop, hphase, -, -, hdependencies⟩ := plannedCall?_eq_some.mp (mem_planFor_calls.mp h).2
  have hmem := Operator.mem_builtin hop
  generalize call.operator = op at hphase hdependencies hmem
  simp only [List.mem_cons, List.not_mem_nil, or_false] at hmem
  rcases hmem with rfl | rfl | rfl | rfl | rfl | rfl | rfl | rfl
  case inr.inr.inr.inr.inr.inr.inl => exact ⟨rfl, hdependencies⟩
  all_goals cases hphase

theorem plannedCall?_merge_eq (h : tree.Reordered tree') (site : CallSite) :
    plannedCall? .builtin .merge tree site = plannedCall? .builtin .merge tree' site := by
  by_cases hname : site.call.name = "static_ips"
  · -- addresses are given out in the last phase
    have hop : Registry.builtin.find? site.call.name = some .staticAddresses := by
      rw [hname]
      rfl
    unfold plannedCall?
    rw [hop]
    cases Argument.parseAll site.call.args <;> rfl
  · exact plannedCall?_eq h hname

theorem injectionRun_of_ordered (hwf : tree.WellFormed) {ran : List PlannedCall}
    (h : ordered (planFor .builtin .merge tree).calls = .ok ran) : InjectionRun tree ran := by
  have hmem : ∀ call ∈ ran, call ∈ (planFor .builtin .merge tree).calls := fun call hcall =>
    mem_of_ordered h hcall
  refine ⟨runnable_of_ordered hwf h, fun call hcall => (inject_of_mem_planFor (hmem call hcall)).1,
    fun call hcall => (inject_of_mem_planFor (hmem call hcall)).2, pairwise_of_ordered h, ?_⟩
  rintro call hcall ⟨path, hpath, hbegins⟩
  obtain ⟨_, _, rest, -, -, -, hwaits⟩ := exists_split h (hmem call hcall)
  exact hwaits call List.mem_cons_self path hpath hbegins

/-- **Untangled injections do not depend on the order of keys: on reordered trees the merge phase
succeeds on both or fails on both with the same message, and it leaves trees that are the same.** -/
theorem runPhase_untangled {state state' : Evaluation} (hwf : state.tree.WellFormed)
    (h : state.tree.Reordered state'.tree)
    (huntangled : ∀ ran, ordered (planFor .builtin .merge state.tree).calls = .ok ran →
      Untangled state.tree (state.steps ran)) (budget : Nat) :
    ResultsAgree (fun failure failure' => failure.message = failure'.message) Eq
      (state.runPhase .builtin budget .merge).1 (state'.runPhase .builtin budget .merge).1 ∧
    (state.runPhase .builtin budget .merge).2.tree.same
      (state'.runPhase .builtin budget .merge).2.tree = true := by
  cases budget with
  | zero =>
    rw [runPhase_zero, runPhase_zero]
    exact ⟨.error rfl, h.same⟩
  | succ budget =>
    have hplaces : ((planFor .builtin .merge state.tree).calls.map
        fun c => c.site.place.cursor).Nodup := nodup_planFor hwf
    have hordered := ordered_agree
      (planFor_calls_perm_of_eq h fun site _ => plannedCall?_merge_eq h site) hplaces.of_map
    rw [runPhase_succ, runPhase_succ]
    generalize hran : ordered (planFor .builtin .merge state.tree).calls = x at hordered ⊢
    generalize hran' : ordered (planFor .builtin .merge state'.tree).calls = y at hordered ⊢
    cases hordered with
    | error heq => exact ⟨.error (by rw [heq]), h.same⟩
    | @ok ran ran' hperm =>
      have hruns : InjectionRuns state state' ran ran' :=
        ⟨hwf, h, injectionRun_of_ordered hwf hran,
          injectionRun_of_ordered (h.wellFormed hwf) hran', hperm, huntangled ran hran⟩
      obtain ⟨hfaults, htree⟩ := hruns.runCalls_reordered
      exact ⟨Faults.toExcept_agree ((planFor_faults_perm h _).append hfaults) rfl, htree.same⟩

end MergePhase

/-- Defaults in layers: two of them are injected into one mapping, one of which is an element of a
list that is completed by a third one. A fourth one gives another element its name. -/
def layeredDefaults : Node :=
  .mapping [("job", .mapping [("a", .string "(( inject base ))"),
      ("b", .string "(( inject list.e ))"), ("keep", .integer 1)]),
    ("base", .mapping [("x", .integer 1)]),
    ("list", .sequence [.mapping [("name", .string "e"), ("c", .string "(( inject extra ))")],
      .mapping [("d", .string "(( inject label ))")]]),
    ("extra", .mapping [("w", .integer 3)]), ("label", .mapping [("name", .string "f")])]

/-- The same defaults under keys in another order. -/
def reorderedDefaults : Node :=
  .mapping [("label", .mapping [("name", .string "f")]), ("extra", .mapping [("w", .integer 3)]),
    ("list", .sequence [.mapping [("c", .string "(( inject extra ))"), ("name", .string "e")],
      .mapping [("d", .string "(( inject label ))")]]),
    ("base", .mapping [("x", .integer 1)]),
    ("job", .mapping [("keep", .integer 1), ("b", .string "(( inject list.e ))"),
      ("a", .string "(( inject base ))")])]

/-- Their calls in the order in which they run. -/
def layeredCalls : List PlannedCall :=
  (ordered (planFor .builtin .merge layeredDefaults).calls).toOption.getD []

/-- What they refer to. -/
def layeredReferences : List (List String) :=
  [["base"], ["list", "e"], ["extra"], ["label"]]

theorem untangled_layeredDefaults :
    Untangled layeredDefaults ((⟨layeredDefaults, {}⟩ : Evaluation).steps layeredCalls) := by
  have hargs : ∀ call ∈ layeredCalls, ∃ path ∈ layeredReferences,
      call.args = [.reference ⟨path⟩] := by decide
  have hbeginnings : ∀ path ∈ layeredReferences,
      existingBeginning? layeredDefaults ⟨path⟩ ≠ none := by decide
  have hnames : ∀ s ∈ (⟨layeredDefaults, {}⟩ : Evaluation).steps layeredCalls,
      s.place.dropLast.dropLast = [] ∨ ∀ field ∈ Node.nameFields, s.place.getLast? ≠ some field ∧
        ∀ path ∈ layeredReferences, ∀ name ∈ path,
          (Entries.get? s.injected field).bind Node.text? ≠ some name := by decide
  refine ⟨by decide, fun s hs path key hpath hnone => ?_, ?_, by decide⟩
  · obtain ⟨target, htarget, heq⟩ := hargs _ (mem_calls_of_mem_steps hs)
    rw [heq, List.mem_singleton] at hpath
    cases hpath
    exact absurd hnone (hbeginnings _ htarget)
  · intro s hs _ items hat field hfield name hadded t ht path hpath hname
    obtain ⟨target, htarget, heq⟩ := hargs _ (mem_calls_of_mem_steps ht)
    rw [heq, List.mem_singleton] at hpath
    cases hpath
    rcases hnames s hs with hroot | hlist
    · rw [hroot] at hat
      cases hat.resolve
    · obtain ⟨hlast, hnew⟩ := hlist field hfield
      rcases hadded with ⟨hlast', -⟩ | hvalue
      · exact hlast hlast'
      · exact hnew target htarget name hname hvalue

theorem runPhase_layered_defaults :
    (runPhase .builtin 32 .merge ⟨layeredDefaults, {}⟩).2.tree =
      .mapping [("job", .mapping [("keep", .integer 1), ("x", .integer 1), ("name", .string "e"),
          ("w", .integer 3)]),
        ("base", .mapping [("x", .integer 1)]),
        ("list", .sequence [.mapping [("name", .string "e"), ("w", .integer 3)],
          .mapping [("name", .string "f")]]),
        ("extra", .mapping [("w", .integer 3)]), ("label", .mapping [("name", .string "f")])] ∧
    ResultsAgree (fun failure failure' => failure.message = failure'.message) Eq
      (runPhase .builtin 32 .merge ⟨layeredDefaults, {}⟩).1
      (runPhase .builtin 32 .merge ⟨reorderedDefaults, {}⟩).1 ∧
    (runPhase .builtin 32 .merge ⟨layeredDefaults, {}⟩).2.tree.same
      (runPhase .builtin 32 .merge ⟨reorderedDefaults, {}⟩).2.tree = true := by
  have hreordered : layeredDefaults.Reordered reorderedDefaults :=
    (Node.reordered_iff_same (by decide) (by decide)).mpr rfl
  have hwf : (⟨layeredDefaults, {}⟩ : Evaluation).tree.WellFormed := by decide
  have hordered : ordered (planFor .builtin .merge layeredDefaults).calls = .ok layeredCalls := rfl
  refine ⟨rfl, runPhase_untangled hwf hreordered (fun ran hran => ?_) 32⟩
  cases hordered.symm.trans hran
  exact untangled_layeredDefaults

/-- A call that injects what another one brings to the top of the tree. -/
def injectionBeforeTarget : Node :=
  .mapping [("a", .string "(( inject x.y ))"), ("b", .string "(( inject z ))"),
    ("z", .mapping [("x", .mapping [("y", .mapping [("k", .integer 1)])])])]

/-- The same calls in the other order. -/
def injectionAfterTarget : Node :=
  .mapping [("b", .string "(( inject z ))"), ("a", .string "(( inject x.y ))"),
    ("z", .mapping [("x", .mapping [("y", .mapping [("k", .integer 1)])])])]

/-- A call whose reference does not lead anywhere yet waits for nothing, so it depends on the order
of keys whether it finds what another call injects. -/
theorem injection_before_its_target : injectionBeforeTarget.WellFormed ∧
    injectionBeforeTarget.Reordered injectionAfterTarget ∧
    (runPhase .builtin 32 .merge ⟨injectionBeforeTarget, {}⟩).1 = .error (.several
      ⟨[.operator "$.a" (.failed (.unresolved ⟨["x", "y"]⟩ ⟨["x"], .missing⟩))]⟩) ∧
    (runPhase .builtin 32 .merge ⟨injectionAfterTarget, {}⟩).1 = .ok () ∧
    (runPhase .builtin 32 .merge ⟨injectionAfterTarget, {}⟩).2.tree = .mapping
      [("z", .mapping [("x", .mapping [("y", .mapping [("k", .integer 1)])])]),
        ("x", .mapping [("y", .mapping [("k", .integer 1)])]), ("k", .integer 1)] :=
  ⟨by decide, (Node.reordered_iff_same (by decide) (by decide)).mpr rfl, rfl, rfl, rfl⟩

end Laminate.Evaluation
