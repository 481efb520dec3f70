import Laminate.Proofs.Evaluation.Listing
import Laminate.Proofs.Evaluation.Steps
import Laminate.Proofs.Node.WellFormed

/-!
# Evaluation changes only call sites

The steps of a phase are those of the calls of its plan, each of which runs once. What stands at a
position of the tree stays there unless a call stands at or below it: the containers of calls keep
what else they hold, in its order, and the place of each call holds what became of it
(`ChangesOnlyCallSites`).
-/

namespace Laminate.Evaluation

namespace Step

/-- Whether the call was carried out as an injection. -/
def isInjected (s : Step) : Bool :=
  match s.outcome with
  | .injected _ => true
  | _ => false

/-- The entries that have joined the mapping of the call. -/
def injected (s : Step) : Entries Node :=
  match s.outcome with
  | .injected entries => entries
  | _ => []

/-- The faults of the call. -/
def faults (s : Step) : List Fault :=
  (s.before.runCall s.call).1

theorem gone_changes (s : Step) (path : List String) :
    (s.changes path).gone = (decide (path = s.place) && s.isInjected) := by
  unfold changes isInjected
  cases s.outcome <;> simp [Changes.put, Changes.inject, Changes.empty]

theorem joined_changes (s : Step) (path : List String) :
    (s.changes path).joined = if path = s.place.dropLast then s.injected else [] := by
  unfold changes injected
  cases s.outcome <;> simp [Changes.put, Changes.inject, Changes.empty]

end Step

/-- The faults of a run are those of its steps. -/
theorem faults_runCalls (calls : List PlannedCall) : ∀ state : Evaluation,
    (state.runCalls calls).1 = (state.steps calls).flatMap Step.faults := by
  induction calls with
  | nil => exact fun _ => rfl
  | cons call calls ih =>
    intro state
    rw [runCalls_cons, ih]
    rfl

/-- What the steps of a phase leave of the tree that it began with. -/
structure ChangesOnlyCallSites (tree : Node) (stepList : List Step) (final : Node) : Prop where
  /-- The calls stand in different places, so each of them runs once. -/
  apart : (stepList.map Step.place).Nodup
  /-- The tree is the one before with the changes of the steps, and no others. -/
  eq_changed : final = tree.changed (changesOf stepList)
  /-- What holds no call that runs stays as it is. -/
  untouched : ∀ path n, tree.At path n → (∀ s ∈ stepList, ¬path <+: s.place) → final.At path n
  /-- Scalars that are no calls that run stay as they are, and so do calls that do not run. -/
  scalars : ∀ path scalar, tree.At path (.scalar scalar) → (∀ s ∈ stepList, path ≠ s.place) →
    final.At path (.scalar scalar)
  /-- Lists keep their places and their lengths. -/
  sequences : ∀ path items, tree.At path (.sequence items) →
    ∃ items', final.At path (.sequence items') ∧ items'.length = items.length
  /-- Mappings keep their places and the order of their keys. The keys of injections that were
  carried out are gone, and what they have injected comes behind the rest. -/
  mappings : ∀ path es, tree.At path (.mapping es) → ∃ kept,
    final.At path (.mapping (kept ++ stepList.flatMap fun s =>
      if path = s.place.dropLast then s.injected else [])) ∧
    Entries.keys kept = (Entries.keys es).filter fun key =>
      !stepList.any fun s => decide (path ++ [key] = s.place) && s.isInjected
  /-- A value that a call answers with is written without a fault, and stands in its place in the
  end. -/
  replaced : ∀ s ∈ stepList, ∀ value, s.before.answer s.call = .ok (.replace value) →
    respond s.before.tree s.call.site.place.cursor (.replace value) = .ok s.after.tree ∧
    s.faults = [] ∧ final.At s.place value
  /-- If a call injects entries, then its key goes at that moment, and of the entries those join its
  mapping that have other keys than what is left of it. -/
  injected : ∀ s ∈ stepList, ∀ entries, s.before.answer s.call = .ok (.inject entries) →
    s.faults = [] → ∃ path key siblings, s.place = path ++ [key] ∧ s.isInjected = true ∧
      s.before.tree.At path (.mapping siblings) ∧
      s.after.tree.At path (.mapping (Entries.erase siblings key ++ s.injected)) ∧
      s.injected = entries.filter fun e => !Entries.contains (Entries.erase siblings key) e.1
  /-- A call with a fault keeps its text. -/
  failed : ∀ s ∈ stepList, s.faults ≠ [] → s.isInjected = false ∧
    ∃ text, tree.At s.place (.string text) ∧ final.At s.place (.string text)

/-! ## Calls that can run -/

/-- Calls of a tree in different places, whose answers can be carried out. -/
structure Runnable (tree : Node) (calls : List PlannedCall) : Prop where
  stands : ∀ call ∈ calls, ∃ text, tree.At call.site.place.cursor.components (.string text)
  apart : (calls.map fun call => call.site.place.cursor.components).Nodup
  answerable : Answerable tree calls

/-- The calls of a plan can run. -/
theorem runnable_planFor {tree : Node} (hwf : tree.WellFormed) (phase : Phase) :
    Runnable tree (planFor .builtin phase tree).calls := by
  refine ⟨fun call hcall => ?_, ?_, ?_⟩
  · obtain ⟨text, hat, -⟩ := Node.at_of_mem_callSites hwf (mem_planFor_calls.mp hcall).1
    exact ⟨text, hat⟩
  · have hnodup : ((planFor .builtin phase tree).calls.map fun c => c.site.place.cursor).Nodup :=
      nodup_planFor hwf
    have hinj : Function.Injective Cursor.components := fun ⟨_⟩ ⟨_⟩ h => congrArg _ h
    have hmap := hnodup.map hinj
    rwa [List.map_map] at hmap
  · have hplanned : ∀ call ∈ (planFor .builtin phase tree).calls,
        Registry.builtin.find? call.site.call.name = some call.operator ∧
          call.operator.phase = phase := fun call hcall => by
      obtain ⟨hop, hphase, -⟩ := plannedCall?_eq_some.mp (mem_planFor_calls.mp hcall).2
      exact ⟨hop, hphase⟩
    -- entries are injected before the last phase only
    by_cases heval : phase = .eval
    · exact Or.inl fun call hcall => Operator.answersByValue_of_eval (hplanned call hcall).1
        ((hplanned call hcall).2.trans heval)
    · exact Or.inr ⟨fun call hcall => Operator.answersWell_of_ne_eval (hplanned call hcall).1
        fun h => heval ((hplanned call hcall).2.symm.trans h), hwf⟩

namespace Runnable

variable {state : Evaluation} {calls : List PlannedCall}

theorem of_subset {tree : Node} {others : List PlannedCall} (h : Runnable tree calls)
    (hsubset : others ⊆ calls)
    (hapart : (others.map fun call => call.site.place.cursor.components).Nodup) :
    Runnable tree others := by
  refine ⟨fun call hcall => h.stands call (hsubset hcall), hapart, ?_⟩
  rcases h.answerable with hvalue | ⟨hwell, hwf⟩
  · exact Or.inl fun call hcall => hvalue call (hsubset hcall)
  · exact Or.inr ⟨fun call hcall => hwell call (hsubset hcall), hwf⟩

theorem pending (h : Runnable state.tree calls) : ∀ call ∈ calls,
    Pending state.tree .empty call := fun call hcall =>
  ⟨h.stands call hcall, fun _ _ => rfl, rfl⟩

theorem map_place_steps (h : Runnable state.tree calls) :
    ((state.steps calls).map Step.place).Nodup := by
  have hplaces : (state.steps calls).map Step.place
      = ((state.steps calls).map Step.call).map fun call => call.site.place.cursor.components := by
    rw [List.map_map]
    rfl
  rw [hplaces, map_call_steps]
  exact h.apart

theorem stands_steps (h : Runnable state.tree calls) : ∀ s ∈ state.steps calls,
    ∃ text, state.tree.At s.place (.string text) := fun _ hs =>
  h.stands _ (mem_calls_of_mem_steps hs)

/-- The tree after the run has the changes of its steps. -/
theorem tree_eq (hwf : state.tree.WellFormed) (h : Runnable state.tree calls) :
    (state.runCalls calls).2.tree = state.tree.changed (changesOf (state.steps calls)) :=
  runCalls_changed hwf h.pending h.apart (Node.changed_empty _).symm h.answerable

/-- When a call runs it still stands where it stood, and its answer can be carried out. -/
theorem at_call (hwf : state.tree.WellFormed) {done rest : List PlannedCall} {call : PlannedCall}
    (h : Runnable state.tree (done ++ call :: rest)) :
    Pending state.tree (changesOf (state.steps done)) call ∧
      (state.runCalls done).2.tree = state.tree.changed (changesOf (state.steps done)) ∧
      Answerable (state.runCalls done).2.tree [call] := by
  have hapart := h.apart
  rw [List.map_append, List.map_cons, List.nodup_append] at hapart
  obtain ⟨hdone_apart, -, hothers⟩ := hapart
  have hdone : Runnable state.tree done :=
    h.of_subset (fun _ hcall => List.mem_append_left _ hcall) hdone_apart
  have hpending : Pending state.tree .empty call :=
    h.pending call (List.mem_append_right _ List.mem_cons_self)
  refine ⟨hpending.steps fun t ht => ⟨fun heq => ?_, hdone.stands_steps t ht⟩, hdone.tree_eq hwf,
    h.answerable.runCalls.after.1⟩
  exact hothers _ (List.mem_map_of_mem (mem_calls_of_mem_steps ht)) _ List.mem_cons_self heq

theorem at_step (hwf : state.tree.WellFormed) (h : Runnable state.tree calls) {s : Step}
    (hs : s ∈ state.steps calls) : ∃ c, Pending state.tree c s.call ∧
      s.before.tree = state.tree.changed c ∧ Answerable s.before.tree [s.call] := by
  obtain ⟨done, rest, rfl, hbefore⟩ := exists_of_mem_steps hs
  rw [hbefore]
  exact ⟨_, h.at_call hwf⟩

end Runnable

theorem runnable_of_ordered {tree : Node} (hwf : tree.WellFormed) {phase : Phase}
    {ran : List PlannedCall} (h : ordered (planFor .builtin phase tree).calls = .ok ran) :
    Runnable tree ran := by
  have hplan := runnable_planFor hwf phase
  have hperm := perm_of_ordered h
  exact hplan.of_subset hperm.subset ((hperm.map _).nodup_iff.mpr hplan.apart)

/-! ## What becomes of a call -/

section Outcome

variable {tree : Node} {c : Changes} {s : Step}

theorem replaced_of_answer (hwf : tree.WellFormed) (hpending : Pending tree c s.call)
    (hbefore : s.before.tree = tree.changed c) {value : Node}
    (hanswer : s.before.answer s.call = .ok (.replace value)) :
    s.outcome = .replaced value ∧ s.faults = [] ∧
      respond s.before.tree s.call.site.place.cursor (.replace value) = .ok s.after.tree := by
  have houtcome : s.outcome = .replaced value := by
    simp [Step.outcome, hanswer]
  have hrespond := respond_replace hwf hpending hbefore value
  have hrun : s.before.runCall s.call = _ := runCall_of_ok (Prod.ext hanswer rfl) hrespond
  rw [Step.faults, Step.after, hrun]
  exact ⟨houtcome, rfl, hrespond⟩

theorem injected_of_resolve (hwf : tree.WellFormed) (hpending : Pending tree c s.call)
    (hbefore : s.before.tree = tree.changed c) (hanswers : Answerable s.before.tree [s.call])
    {entries siblings : Entries Node} (hanswer : s.before.answer s.call = .ok (.inject entries))
    {path : List String} {key : String} (hplace : s.place = path ++ [key])
    (hsiblings : s.before.tree.resolve path = .ok (.mapping siblings)) :
    s.faults = [] ∧ s.before.tree.At path (.mapping siblings) ∧
      s.after.tree.At path (.mapping (Entries.erase siblings key ++
        entries.filter fun e => !Entries.contains (Entries.erase siblings key) e.1)) := by
  obtain ⟨hentries, hbefore_wf⟩ := hanswers.wellFormed hanswer
  obtain ⟨es, hes, hkeeps, hthere, hmerged⟩ :=
    hpending.container hbefore hbefore_wf hplace hsiblings
  have hrun : s.before.runCall s.call = _ := runCall_of_ok (Prod.ext hanswer rfl)
    (injectAt_changed hwf hpending hbefore hbefore_wf hentries.nodup hplace hsiblings)
  rw [Step.faults, Step.after, hrun, ← hmerged]
  refine ⟨rfl, hthere, ?_⟩
  rw [show s.call.site.place.cursor.components = path ++ [key] from hplace]
  exact hes.changed (hkeeps.followedBy (Changes.keeps_inject path key _))

theorem kept_of_faults (hwf : tree.WellFormed) (hpending : Pending tree c s.call)
    (hbefore : s.before.tree = tree.changed c) (hanswers : Answerable s.before.tree [s.call])
    (hfaults : s.faults ≠ []) : s.outcome = .kept := by
  cases hanswer : s.before.answer s.call with
  | error fault => simp [Step.outcome, hanswer]
  | ok response =>
    cases response with
    | replace value => exact absurd (replaced_of_answer hwf hpending hbefore hanswer).2.1 hfaults
    | inject entries =>
      rcases outcome_of_inject hanswer with ⟨path, key, siblings, hplace, hsiblings, -⟩ |
        ⟨houtcome, -⟩
      · exact absurd (injected_of_resolve hwf hpending hbefore hanswers hanswer hplace
          hsiblings).1 hfaults
      · exact houtcome

end Outcome

/-! ## A run -/

namespace Runnable

variable {state : Evaluation} {calls : List PlannedCall} {path : List String} {n : Node} {s : Step}

/-- What stands at a position where no call is carried out stays, with the changes below it. -/
theorem at_changed (h : Runnable state.tree calls) (hat : state.tree.At path n)
    (hkept : ∀ s ∈ state.steps calls, path = s.place → ∀ entries, s.outcome ≠ .injected entries) :
    (state.tree.changed (changesOf (state.steps calls))).At path
      (n.changed ((changesOf (state.steps calls)).below path)) :=
  hat.changed (keeps_changesOf hat h.stands_steps hkept)

/-- Lists and mappings are no calls, so they stay. -/
theorem container_changed (h : Runnable state.tree calls) (hat : state.tree.At path n)
    (hcontainer : ∀ text, n ≠ .string text) :
    (state.tree.changed (changesOf (state.steps calls))).At path
      (n.changed ((changesOf (state.steps calls)).below path)) := by
  refine h.at_changed hat ?_
  rintro s hs rfl
  obtain ⟨text, htext⟩ := h.stands_steps s hs
  exact absurd (hat.unique htext) (hcontainer text)

theorem scalar_changed (h : Runnable state.tree calls) {scalar : Scalar}
    (hat : state.tree.At path (.scalar scalar)) (hapart : ∀ s ∈ state.steps calls, path ≠ s.place) :
    (state.tree.changed (changesOf (state.steps calls))).At path (.scalar scalar) := by
  have hsame := h.at_changed hat fun s hs heq => absurd heq (hapart s hs)
  rwa [Node.changed_scalar, Changes.below, List.append_nil, value_changesOf_of_ne hapart] at hsame

theorem untouched_changed (h : Runnable state.tree calls) (hat : state.tree.At path n)
    (hbelow : ∀ s ∈ state.steps calls, ¬path <+: s.place) :
    (state.tree.changed (changesOf (state.steps calls))).At path n := by
  have hsame := h.at_changed hat fun s hs heq => absurd (heq ▸ List.prefix_refl _) (hbelow s hs)
  have hempty : (changesOf (state.steps calls)).below path = .empty := funext fun rest =>
    changesOf_of_not_prefix fun s hs hbegins =>
      hbelow s hs ((List.prefix_append _ _).trans hbegins)
  rwa [hempty, Node.changed_empty] at hsame

theorem mapping_changed (h : Runnable state.tree calls) {es : Entries Node}
    (hat : state.tree.At path (.mapping es)) : ∃ kept,
      (state.tree.changed (changesOf (state.steps calls))).At path
        (.mapping (kept ++ (state.steps calls).flatMap fun s =>
          if path = s.place.dropLast then s.injected else [])) ∧
      Entries.keys kept = (Entries.keys es).filter fun key =>
        !(state.steps calls).any fun s => decide (path ++ [key] = s.place) && s.isInjected := by
  have hsame := h.container_changed hat nofun
  rw [Node.changed_mapping, Changes.below, List.append_nil, joined_changesOf] at hsame
  simp only [Step.joined_changes] at hsame
  refine ⟨_, hsame, ?_⟩
  rw [Node.keys_changedEntries]
  simp only [Changes.below, gone_changesOf, Step.gone_changes]

/-- The place of a call that is not carried out holds its value, or its text. -/
theorem site_changed (h : Runnable state.tree calls) (hs : s ∈ state.steps calls)
    (hkept : ∀ entries, s.outcome ≠ .injected entries) :
    ∃ text, state.tree.At s.place (.string text) ∧
      (state.tree.changed (changesOf (state.steps calls))).At s.place
        ((s.changes s.place).value.getD (.string text)) := by
  obtain ⟨text, htext⟩ := h.stands_steps s hs
  have hapart := h.map_place_steps
  have hat := h.at_changed htext fun t ht heq =>
    (List.inj_on_of_nodup_map hapart hs ht heq) ▸ hkept
  rw [Node.changed_scalar, Changes.below, List.append_nil, value_changesOf_of_mem hs hapart] at hat
  exact ⟨text, htext, hat⟩

theorem replaced (hwf : state.tree.WellFormed) (h : Runnable state.tree calls)
    (hs : s ∈ state.steps calls) {value : Node}
    (hanswer : s.before.answer s.call = .ok (.replace value)) :
    respond s.before.tree s.call.site.place.cursor (.replace value) = .ok s.after.tree ∧
      s.faults = [] ∧ (state.tree.changed (changesOf (state.steps calls))).At s.place value := by
  obtain ⟨c, hpending, hbefore, -⟩ := h.at_step hwf hs
  obtain ⟨houtcome, hfaults, hrespond⟩ := replaced_of_answer hwf hpending hbefore hanswer
  obtain ⟨text, -, hat⟩ := h.site_changed hs (by simp [houtcome])
  refine ⟨hrespond, hfaults, ?_⟩
  simpa [changes_of_replaced houtcome, Changes.put] using hat

theorem injected (hwf : state.tree.WellFormed) (h : Runnable state.tree calls)
    (hs : s ∈ state.steps calls) {entries : Entries Node}
    (hanswer : s.before.answer s.call = .ok (.inject entries)) (hfaults : s.faults = []) :
    ∃ path key siblings, s.place = path ++ [key] ∧ s.isInjected = true ∧
      s.before.tree.At path (.mapping siblings) ∧
      s.after.tree.At path (.mapping (Entries.erase siblings key ++ s.injected)) ∧
      s.injected = entries.filter fun e => !Entries.contains (Entries.erase siblings key) e.1 := by
  obtain ⟨c, hpending, hbefore, hanswers⟩ := h.at_step hwf hs
  rcases outcome_of_inject hanswer with ⟨path, key, siblings, hplace, hsiblings, houtcome⟩ |
    ⟨-, fault, hrefused⟩
  · obtain ⟨-, hthere, hafter⟩ :=
      injected_of_resolve hwf hpending hbefore hanswers hanswer hplace hsiblings
    have hinjected : s.injected = entries.filter fun e =>
        !Entries.contains (Entries.erase siblings key) e.1 := by
      rw [Step.injected, houtcome]
    refine ⟨path, key, siblings, hplace, ?_, hthere, hinjected ▸ hafter, hinjected⟩
    rw [Step.isInjected, houtcome]
  · rw [Step.faults, runCall_of_respond_error (Prod.ext hanswer rfl) hrefused] at hfaults
    cases hfaults

theorem failed (hwf : state.tree.WellFormed) (h : Runnable state.tree calls)
    (hs : s ∈ state.steps calls) (hfaults : s.faults ≠ []) : s.isInjected = false ∧
      ∃ text, state.tree.At s.place (.string text) ∧
        (state.tree.changed (changesOf (state.steps calls))).At s.place (.string text) := by
  obtain ⟨c, hpending, hbefore, hanswers⟩ := h.at_step hwf hs
  have houtcome := kept_of_faults hwf hpending hbefore hanswers hfaults
  obtain ⟨text, htext, hat⟩ := h.site_changed hs (by simp [houtcome])
  rw [changes_of_kept houtcome] at hat
  exact ⟨by rw [Step.isInjected, houtcome], text, htext, hat⟩

/-- **A run changes call sites only.** -/
theorem changesOnlyCallSites (hwf : state.tree.WellFormed) (h : Runnable state.tree calls) :
    ChangesOnlyCallSites state.tree (state.steps calls) (state.runCalls calls).2.tree := by
  rw [h.tree_eq hwf]
  exact {
    apart := h.map_place_steps
    eq_changed := rfl
    untouched := fun _ _ hat hbelow => h.untouched_changed hat hbelow
    scalars := fun _ _ hat hapart => h.scalar_changed hat hapart
    sequences := fun _ items hat =>
      ⟨_, h.container_changed hat nofun, Node.length_changedItems items _ 0⟩
    mappings := fun _ _ hat => h.mapping_changed hat
    replaced := fun _ hs _ hanswer => h.replaced hwf hs hanswer
    injected := fun _ hs _ hanswer hfaults => h.injected hwf hs hanswer hfaults
    failed := fun _ hs hfaults => h.failed hwf hs hfaults }

end Runnable

/-- **A phase changes call sites only.** It runs each call of its plan once, or none at all if the
budget is used up or the calls wait for each other. -/
theorem runPhase_changes_only_call_sites {state : Evaluation} (hwf : state.tree.WellFormed)
    (budget : Nat) (phase : Phase) : ∃ ran : List PlannedCall,
      (ran.Perm (planFor .builtin phase state.tree).calls ∨ ran = [] ∧
        (budget = 0 ∨ ∃ fault, ordered (planFor .builtin phase state.tree).calls = .error fault)) ∧
      (state.runPhase .builtin budget phase).2 = (state.runCalls ran).2 ∧
      ChangesOnlyCallSites state.tree (state.steps ran)
        (state.runPhase .builtin budget phase).2.tree := by
  have hplan := runnable_planFor hwf phase
  have hnone : Runnable state.tree [] := hplan.of_subset (List.nil_subset _) .nil
  cases budget with
  | zero =>
    rw [runPhase_zero]
    exact ⟨[], Or.inr ⟨rfl, Or.inl rfl⟩, rfl, hnone.changesOnlyCallSites hwf⟩
  | succ budget =>
    rw [runPhase_succ]
    cases hordered : ordered (planFor .builtin phase state.tree).calls with
    | error fault =>
      exact ⟨[], Or.inr ⟨rfl, Or.inr ⟨fault, rfl⟩⟩, rfl, hnone.changesOnlyCallSites hwf⟩
    | ok ran =>
      have hperm := perm_of_ordered hordered
      exact ⟨ran, Or.inl hperm, rfl, (runnable_of_ordered hwf hordered).changesOnlyCallSites hwf⟩

/-- Defaults that are injected, once into a mapping and once into a list, and calls that fail or
belong to another phase. -/
def sharedDefaults : Node :=
  .mapping [("defaults", .mapping [("size", .integer 1), ("color", .string "red")]),
    ("job", .mapping [("color", .string "blue"), ("use", .string "(( inject defaults ))"),
      ("list", .sequence [.string "(( inject defaults ))"])]),
    ("missing", .string "(( inject nowhere ))"), ("later", .string "(( grab job.size ))")]

theorem sharedDefaults_changes_only_call_sites :
    sharedDefaults.WellFormed ∧
    (runPhase .builtin 32 .merge ⟨sharedDefaults, {}⟩).2.tree =
      .mapping [("defaults", .mapping [("size", .integer 1), ("color", .string "red")]),
        ("job", .mapping [("color", .string "blue"),
          ("list", .sequence [.string "(( inject defaults ))"]), ("size", .integer 1)]),
        ("missing", .string "(( inject nowhere ))"), ("later", .string "(( grab job.size ))")] ∧
    ∃ ran : List PlannedCall,
      (ran.Perm (planFor .builtin .merge sharedDefaults).calls ∨ ran = [] ∧
        (32 = 0 ∨ ∃ fault, ordered (planFor .builtin .merge sharedDefaults).calls = .error fault)) ∧
      (runPhase .builtin 32 .merge ⟨sharedDefaults, {}⟩).2
        = ((⟨sharedDefaults, {}⟩ : Evaluation).runCalls ran).2 ∧
      ChangesOnlyCallSites sharedDefaults ((⟨sharedDefaults, {}⟩ : Evaluation).steps ran)
        (runPhase .builtin 32 .merge ⟨sharedDefaults, {}⟩).2.tree := by
  have hwf : (⟨sharedDefaults, {}⟩ : Evaluation).tree.WellFormed := by decide
  exact ⟨hwf, rfl, runPhase_changes_only_call_sites hwf 32 .merge⟩

end Laminate.Evaluation
