import Laminate.Proofs.Evaluation.Order
import Laminate.Proofs.Evaluation.Running

/-!
# The run of a call

In a phase every call runs once, and the calls that it waits for have run before it
(`exists_split`). In the last phase different calls stand in different places, so what a call
answers with stands in its place in the end, and what it waits for stays as the call has found it
(`exists_callRun`).
-/

namespace Laminate.Evaluation

/-! ## Orders in parts -/

section Parts

variable {calls inOrder : List PlannedCall}

/-- **The calls that a call waits for have run before it.** -/
theorem exists_split (h : ordered calls = .ok inOrder) {call : PlannedCall} (hmem : call ∈ calls) :
    ∃ (i : Nat) (done rest : List PlannedCall), calls[i]? = some call ∧
      inOrder = done ++ call :: rest ∧
      (∀ other, other ∈ done ∨ other ∈ rest → ∃ j : Nat, i ≠ j ∧ calls[j]? = some other) ∧
      ∀ other ∈ call :: rest, ∀ dependency ∈ call.dependencies,
        ¬dependency.components <+: other.site.place.cursor.components := by
  obtain ⟨order, horder, rfl⟩ := exists_of_map_eq_ok h
  have hof := isOrderOf_of_schedule horder
  have hnodup : order.Nodup := hof.perm.nodup_iff.mpr List.nodup_range
  obtain ⟨i, hi⟩ := List.getElem?_of_mem hmem
  have hi_order : i ∈ order :=
    hof.perm.mem_iff.mpr (List.mem_range.mpr (List.getElem?_eq_some_iff.mp hi).1)
  obtain ⟨before, after, rfl⟩ := List.append_of_mem hi_order
  obtain ⟨-, hafter, hdisjoint⟩ := List.nodup_append.mp hnodup
  have hi_before : i ∉ before := fun hb => hdisjoint i hb i List.mem_cons_self rfl
  refine ⟨i, before.filterMap fun j => calls[j]?, after.filterMap fun j => calls[j]?, hi,
    ?_, ?_, ?_⟩
  · rw [List.filterMap_append, List.filterMap_cons, hi]
  · rintro other (hother | hother)
    · obtain ⟨j, hj, hother⟩ := List.mem_filterMap.mp hother
      exact ⟨j, fun heq => hi_before (heq ▸ hj), hother⟩
    · obtain ⟨j, hj, hother⟩ := List.mem_filterMap.mp hother
      exact ⟨j, fun heq => (List.nodup_cons.mp hafter).1 (heq ▸ hj), hother⟩
  · intro other hother dependency hdependency hprefix
    obtain ⟨j, hj, hget⟩ : ∃ j ∈ i :: after, calls[j]? = some other := by
      rcases List.mem_cons.mp hother with rfl | hother
      · exact ⟨i, List.mem_cons_self, hi⟩
      · obtain ⟨j, hj, hget⟩ := List.mem_filterMap.mp hother
        exact ⟨j, List.mem_cons_of_mem _ hj, hget⟩
    have hj_before : j ∉ before := fun hb => hdisjoint j hb j hj rfl
    -- a call that this one waits for would have come earlier
    have hlt := hof.after i j ⟨call, other, hi, hget, dependency, hdependency, hprefix⟩
    rw [List.idxOf_append_of_notMem hi_before, List.idxOf_append_of_notMem hj_before,
      List.idxOf_cons_self] at hlt
    omega

end Parts

/-! ## Calls of a plan -/

section Plan

variable {tree : Node} {phase : Phase} {registry : Registry}

/-- No two calls of a plan stand in the same place. -/
theorem nodup_planFor (hwf : tree.WellFormed) :
    ((planFor registry phase tree).calls.map fun c => c.site.place.cursor).Nodup := by
  -- planned calls are call sites, in the same order
  have hsub : ((planFor registry phase tree).calls.map fun c => c.site.place.cursor).Sublist
      (tree.callSites.map fun site => site.place.cursor) := by
    rw [planFor, ofSites_calls]
    induction tree.callSites with
    | nil => exact .slnil
    | cons site sites ih =>
      rw [List.filterMap_cons]
      cases hcall : plannedCall? registry phase tree site with
      | none => exact ih.cons _
      | some call =>
        obtain ⟨-, -, -, rfl, -⟩ := plannedCall?_eq_some.mp hcall
        exact ih.cons_cons _
  exact (Node.nodup_callSites hwf).sublist hsub

/-- Different calls of a plan stand in different places. -/
theorem cursor_ne_of_ne (hwf : tree.WellFormed) {call other : PlannedCall} {i j : Nat}
    (hi : (planFor registry phase tree).calls[i]? = some call)
    (hj : (planFor registry phase tree).calls[j]? = some other) (hne : i ≠ j) :
    call.site.place.cursor ≠ other.site.place.cursor := by
  have hnodup : ((planFor registry phase tree).calls.map fun c => c.site.place.cursor).Nodup :=
    nodup_planFor hwf
  intro heq
  refine hne ((List.getElem?_inj ?_ hnodup).mp ?_)
  · rw [List.length_map]
    exact (List.getElem?_eq_some_iff.mp hi).1
  · rw [List.getElem?_map, List.getElem?_map, hi, hj]
    exact congrArg some heq

/-- The calls of the last phase fill in values. -/
theorem fillsIn_of_mem (hwf : tree.WellFormed) {call : PlannedCall}
    (h : call ∈ (planFor .builtin .eval tree).calls) : FillsIn tree call := by
  obtain ⟨hsite, hcall⟩ := mem_planFor_calls.mp h
  obtain ⟨hop, hphase, -⟩ := plannedCall?_eq_some.mp hcall
  obtain ⟨n, hat, hn⟩ := Node.exists_at_of_mem_callSites hwf hsite
  exact ⟨Operator.answersByValue_of_eval hop hphase, n, hat, Option.isSome_of_eq_some hn⟩

end Plan

/-- A value that is filled in stands in the place of its call. -/
theorem resolve_place_fill {tree value : Node} {site : CallSite} {g : Filling}
    (hwf : tree.WellFormed) (hsite : site ∈ tree.callSites)
    (h : g site.place.cursor.components = some value) :
    site.place.cursor.resolve (tree.fill g) = .ok value := by
  obtain ⟨n, hat, hcall⟩ := Node.exists_at_of_mem_callSites hwf hsite
  have hfinal := (hat.fill g).resolve
  have hsome := Option.isSome_of_eq_some hcall
  rw [Node.fill_of_call hsome, Filling.below, List.append_nil, h] at hfinal
  exact hfinal

/-! ## Before, at and after a call -/

/-- The state of the last phase in which the call at a site runs. -/
def RunsIn (entered : Evaluation) (site : CallSite) (before : Evaluation) : Prop :=
  ∃ done call rest,
    ordered (planFor .builtin .eval entered.tree).calls = .ok (done ++ call :: rest) ∧
    call.site = site ∧ before = (entered.runCalls done).2

/-- What is between the states of the last phase as it begins, as a call runs, right after it, and
as the phase ends: the answer of the call takes its place and stays, and where the call waits for
others nothing happens after it. -/
structure CallRun (entered final : Evaluation) (call : PlannedCall) (before after : Evaluation)
    (f g : Filling) (value : Node) : Prop where
  runs : RunsIn entered call.site before
  before_eq : before.tree = entered.tree.fill f
  final_eq : final.tree = entered.tree.fill g
  answers : call.operator.run ⟨before.tree, call.site.place.cursor, call.args⟩ before.context
    = (.ok (.replace value), after.context)
  finishes : ∃ rest, (∀ other ∈ rest, other ∈ (planFor .builtin .eval entered.tree).calls) ∧
    final = (after.runCalls rest).2
  pending : f call.site.place.cursor.components = none
  placed : g call.site.place.cursor.components = some value
  waited : ∀ dependency ∈ call.dependencies, ∀ place, dependency.components <+: place →
    g place = f place

section Runs

variable {entered final : Evaluation} {call : PlannedCall}

/-- **Every call of a phase without faults runs, and its answer takes its place for good.** -/
theorem exists_callRun (hwf : entered.tree.WellFormed) {calls : List PlannedCall}
    (hordered : ordered (planFor .builtin .eval entered.tree).calls = .ok calls)
    (hrun : entered.runCalls calls = ([], final))
    (hcall : call ∈ (planFor .builtin .eval entered.tree).calls) :
    ∃ before after f g value, CallRun entered final call before after f g value := by
  obtain ⟨i, done, rest, hi, rfl, hothers, hwaits⟩ := exists_split hordered hcall
  have hne : ∀ other, other ∈ done ∨ other ∈ rest →
      other.site.place.cursor.components ≠ call.site.place.cursor.components := by
    intro other hother heq
    obtain ⟨j, hij, hj⟩ := hothers other hother
    exact cursor_ne_of_ne hwf hi hj hij (congrArg Cursor.mk heq.symm)
  have hplanned : ∀ other ∈ done ++ call :: rest,
      other ∈ (planFor .builtin .eval entered.tree).calls := fun other hother =>
    mem_of_ordered hordered hother
  have hfills : ∀ other ∈ done ++ call :: rest, FillsIn entered.tree other := fun other hother =>
    fillsIn_of_mem hwf (hplanned other hother)
  rw [runCalls_append, runCalls_cons, Prod.mk.injEq] at hrun
  obtain ⟨hfaultless, hfinal⟩ := hrun
  obtain ⟨hdone, hfaultless⟩ := List.append_eq_nil_iff.mp hfaultless
  obtain ⟨hthis, hrest⟩ := List.append_eq_nil_iff.mp hfaultless
  -- the calls before this one, the call itself, and the calls after it
  obtain ⟨f, hbefore, hf⟩ := runCalls_fill hwf
    (fun other hother => hfills other (List.mem_append_left _ hother))
    (Node.fill_empty entered.tree).symm hdone
  obtain ⟨value, context, hanswer, hafter⟩ := runCall_fill hwf
    (hfills call (List.mem_append_right _ List.mem_cons_self)) hbefore hthis
  obtain ⟨g, hlast, hg⟩ := runCalls_fill hwf
    (fun other hother => hfills other (List.mem_append_right _ (List.mem_cons_of_mem _ hother)))
    hafter hrest
  refine ⟨(entered.runCalls done).2, ((entered.runCalls done).2.runCall call).2, f, g, value, ?_⟩
  exact
    { runs := ⟨done, call, rest, hordered, rfl, rfl⟩
      before_eq := hbefore
      final_eq := hfinal ▸ hlast
      answers := hanswer.trans (congrArg _ (context_runCall hanswer).symm)
      finishes := ⟨rest, fun other hother =>
        hplanned other (List.mem_append_right _ (List.mem_cons_of_mem _ hother)), hfinal.symm⟩
      pending := hf _ fun other hother => hne other (Or.inl hother)
      placed := by
        rw [hg _ fun other hother => hne other (Or.inr hother)]
        exact Filling.set_self ..
      waited := by
        intro dependency hdependency place hprefix
        have hnever : ∀ other ∈ call :: rest, other.site.place.cursor.components ≠ place :=
          fun other hother heq => hwaits other hother dependency hdependency (heq ▸ hprefix)
        obtain ⟨hself, hothers⟩ := List.forall_mem_cons.mp hnever
        rw [hg place hothers]
        exact Filling.set_of_ne (Ne.symm hself) }

/-- In the end the answer stands in the place of the call. -/
theorem CallRun.resolve_place {before after : Evaluation} {f g : Filling} {value : Node}
    (h : CallRun entered final call before after f g value) (hwf : entered.tree.WellFormed)
    (hsite : call.site ∈ entered.tree.callSites) :
    call.site.place.cursor.resolve final.tree = .ok value := by
  rw [h.final_eq]
  exact resolve_place_fill hwf hsite h.placed

end Runs

end Laminate.Evaluation
