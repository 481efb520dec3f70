import Laminate.Proofs.Evaluation.CallRun

/-!
# Calls listed in another order

Which calls depend on which does not depend on the order in which they are listed: a renumbering of
the calls takes dependencies to dependencies (`exists_renumbering`), so cycles are cycles and the
calls behind them stay the same. Two listings of the same calls are both ordered, each in its way,
or both refused with the same fault (`ordered_agree`).
-/

namespace Laminate

/-- Whether a call has to wait for another one. -/
def PlannedCall.WaitsFor (call other : PlannedCall) : Prop :=
  ∃ path ∈ call.dependencies, path.components <+: other.site.place.cursor.components

namespace Evaluation

open Relation

variable {calls others inOrder : List PlannedCall}

/-! ## Orders -/

/-- The calls of some numbers. -/
def callsAt (calls : List PlannedCall) (numbers : List Nat) : List PlannedCall :=
  numbers.filterMap fun i => calls[i]?

theorem nodup_callsAt (hcalls : calls.Nodup) {numbers : List Nat} (h : numbers.Nodup) :
    (callsAt calls numbers).Nodup := by
  refine h.filterMap fun i j call hi hj => ?_
  obtain ⟨hlt, -⟩ := List.getElem?_eq_some_iff.mp hi
  exact (List.getElem?_inj hlt hcalls).mp (hi.trans hj.symm)

theorem callsAt_range (calls : List PlannedCall) :
    callsAt calls (List.range calls.length) = calls := by
  rw [callsAt]
  induction calls with
  | nil => rfl
  | cons call calls ih =>
    rw [List.length_cons, List.range_succ_eq_map, List.filterMap_cons, List.filterMap_map]
    exact congrArg (List.cons call) ih

/-- An order of calls holds each of them as often as they are listed. -/
theorem perm_of_ordered (h : ordered calls = .ok inOrder) : inOrder.Perm calls := by
  obtain ⟨order, horder, rfl⟩ := exists_of_map_eq_ok h
  exact ((isOrderOf_of_schedule horder).perm.filterMap _).trans (.of_eq (callsAt_range calls))

/-- In an order no call waits for a later one. -/
theorem pairwise_of_ordered (h : ordered calls = .ok inOrder) :
    inOrder.Pairwise fun call other => ¬call.WaitsFor other := by
  obtain ⟨order, horder, rfl⟩ := exists_of_map_eq_ok h
  have hof := isOrderOf_of_schedule horder
  have hnodup : order.Nodup := hof.perm.nodup_iff.mpr List.nodup_range
  have hlater : order.Pairwise fun i j => ¬DependsOn calls i j := by
    refine List.pairwise_iff_getElem.mpr fun i j hi hj hlt hdep => ?_
    have := hof.after _ _ hdep
    rw [hnodup.idxOf_getElem, hnodup.idxOf_getElem] at this
    omega
  exact hlater.filterMap _ fun i j hij call hi other hj hwaits =>
    hij ⟨call, other, hi, hj, hwaits⟩

/-! ## Renumbering -/

theorem exists_renumbering (h : calls ⊆ others) :
    ∃ f : Nat → Nat, ∀ i call, calls[i]? = some call → others[f i]? = some call := by
  have hnumber : ∀ i : Nat, ∃ j : Nat, ∀ call, calls[i]? = some call → others[j]? = some call := by
    intro i
    cases hget : calls[i]? with
    | none => exact ⟨0, nofun⟩
    | some call =>
      obtain ⟨j, hj⟩ := List.getElem?_of_mem (h (List.mem_of_getElem? hget))
      exact ⟨j, fun _ hsome => Option.some.inj hsome ▸ hj⟩
  choose f hf using hnumber
  exact ⟨f, hf⟩

/-- Whether a call is on a cycle or depends on one. -/
def Blocked (calls : List PlannedCall) (i : Nat) : Prop :=
  ∃ j, ReflTransGen (DependsOn calls) i j ∧ TransGen (DependsOn calls) j j

section Renumbering

variable {f : Nat → Nat} (hf : ∀ i call, calls[i]? = some call → others[f i]? = some call)
include hf

theorem dependsOn_renumber (i j : Nat) (h : DependsOn calls i j) :
    DependsOn others (f i) (f j) := by
  obtain ⟨call, other, hi, hj, hwaits⟩ := h
  exact ⟨call, other, hf i call hi, hf j other hj, hwaits⟩

theorem exists_cycle_renumber (h : ∃ i, TransGen (DependsOn calls) i i) :
    ∃ i, TransGen (DependsOn others) i i := by
  obtain ⟨i, hi⟩ := h
  exact ⟨f i, hi.lift f (dependsOn_renumber hf)⟩

theorem blocked_renumber {i : Nat} (h : Blocked calls i) : Blocked others (f i) := by
  obtain ⟨j, hreach, hcycle⟩ := h
  exact ⟨f j, hreach.lift f (dependsOn_renumber hf), hcycle.lift f (dependsOn_renumber hf)⟩

end Renumbering

theorem callsAt_subset (h : calls ⊆ others) {stuck stuck' : List Nat}
    (hstuck : ∀ i, i ∈ stuck ↔ Blocked calls i) (hstuck' : ∀ i, i ∈ stuck' ↔ Blocked others i) :
    callsAt calls stuck ⊆ callsAt others stuck' := by
  obtain ⟨f, hf⟩ := exists_renumbering h
  intro call hcall
  obtain ⟨i, hi, hget⟩ := List.mem_filterMap.mp hcall
  exact List.mem_filterMap.mpr
    ⟨f i, (hstuck' _).mpr (blocked_renumber hf ((hstuck i).mp hi)), hf i call hget⟩

/-! ## Two listings -/

theorem exists_schedule_of_subset (h : others ⊆ calls) {order : List Nat}
    (horder : schedule calls = .ok order) : ∃ order', schedule others = .ok order' := by
  obtain ⟨f, hf⟩ := exists_renumbering h
  exact exists_schedule_eq_ok_iff.mpr fun hcycle =>
    exists_schedule_eq_ok_iff.mp ⟨order, horder⟩ (exists_cycle_renumber hf hcycle)

/-- The fault of calls that cannot be ordered does not depend on how they are listed. -/
theorem eq_of_isCycleOf (h : calls.Perm others) (hcalls : calls.Nodup) {fault fault' : Fault}
    (hfault : IsCycleOf calls fault) (hfault' : IsCycleOf others fault') : fault = fault' := by
  obtain ⟨stuck, paths, hstuck, hblocked, hsorted, hpaths, rfl⟩ := hfault
  obtain ⟨stuck', paths', hstuck', hblocked', hsorted', hpaths', rfl⟩ := hfault'
  have hsame : (callsAt calls stuck).Perm (callsAt others stuck') := by
    refine (List.perm_ext_iff_of_nodup (nodup_callsAt hcalls hstuck.nodup)
      (nodup_callsAt (h.nodup_iff.mp hcalls) hstuck'.nodup)).mpr fun call => ?_
    exact ⟨fun hcall => callsAt_subset h.subset hblocked hblocked' hcall,
      fun hcall => callsAt_subset h.symm.subset hblocked' hblocked hcall⟩
  have hnames := hsame.map fun call => call.site.place.path
  rw [callsAt, callsAt, List.map_filterMap, List.map_filterMap] at hnames
  rw [eq_of_perm_of_pairwise (hpaths.trans (hnames.trans hpaths'.symm)) hsorted hsorted']

/-- **Two listings of the same calls are both put into orders, or both refused with the same
fault.** -/
theorem ordered_agree (h : calls.Perm others) (hcalls : calls.Nodup) :
    ResultsAgree Eq List.Perm (ordered calls) (ordered others) := by
  cases hschedule : schedule calls with
  | ok order =>
    obtain ⟨order', hschedule'⟩ := exists_schedule_of_subset h.symm.subset hschedule
    have hinOrder : ordered calls = .ok (callsAt calls order) :=
      congrArg (Except.map (callsAt calls)) hschedule
    have hinOrder' : ordered others = .ok (callsAt others order') :=
      congrArg (Except.map (callsAt others)) hschedule'
    rw [hinOrder, hinOrder']
    exact .ok ((perm_of_ordered hinOrder).trans (h.trans (perm_of_ordered hinOrder').symm))
  | error fault =>
    cases hschedule' : schedule others with
    | ok order' =>
      obtain ⟨order, hschedule''⟩ := exists_schedule_of_subset h.subset hschedule'
      rw [hschedule] at hschedule''
      cases hschedule''
    | error fault' =>
      have heq := eq_of_isCycleOf h hcalls (isCycleOf_of_schedule hschedule)
        (isCycleOf_of_schedule hschedule')
      rw [ordered, ordered, hschedule, hschedule', heq]
      exact .error rfl

end Evaluation

end Laminate
