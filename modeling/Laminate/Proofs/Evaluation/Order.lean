import Laminate.Evaluate
import Laminate.Proofs.Agreement
import Laminate.Proofs.Schedule.Cycle
import Mathlib.Order.Bounds.Defs

/-!
# The order of calls

A call depends on the calls at the places to which one of its dependencies leads or above which it
stands (`DependsOn`). Calls are put into an order exactly if no call depends on itself over any
number of others. The order holds each call after those that it depends on, and is the first such
order position by position (`IsOrderOf`); otherwise the fault names the calls that depend on a cycle
(`IsCycleOf`), and nothing has happened.
-/

namespace Laminate.Evaluation

open Relation

variable {calls : List PlannedCall}

/-- Whether a call depends on another one, both given by their numbers: a dependency of the first
leads to the place of the second or to something that contains it. -/
def DependsOn (calls : List PlannedCall) (i j : Nat) : Prop :=
  ∃ call other, calls[i]? = some call ∧ calls[j]? = some other ∧
    ∃ path ∈ call.dependencies, path.components <+: other.site.place.cursor.components

/-- What is promised of an order of calls. -/
structure IsOrderOf (calls : List PlannedCall) (order : List Nat) : Prop where
  perm : order.Perm (List.range calls.length)
  after : ∀ i j, DependsOn calls i j → order.idxOf j < order.idxOf i
  least : ∀ k (hk : k < order.length),
    IsLeast {i | i < calls.length ∧ i ∉ order.take k ∧ ∀ j, DependsOn calls i j → j ∈ order.take k}
      order[k]

/-- What is promised of the fault of calls that cannot be ordered: it names, sorted, the paths of
the calls that are on a cycle or depend on one. -/
def IsCycleOf (calls : List PlannedCall) (fault : Fault) : Prop :=
  ∃ (stuck : List Nat) (paths : List String),
    stuck.Pairwise (· < ·) ∧
    (∀ i, i ∈ stuck ↔ ∃ j, ReflTransGen (DependsOn calls) i j ∧ TransGen (DependsOn calls) j j) ∧
    paths.Pairwise (· ≤ ·) ∧
    paths.Perm (stuck.filterMap fun i => (calls[i]?).map fun call => call.site.place.path) ∧
    fault = .cycle "$" (.dataFlow paths)

/-! ## Calls as tasks -/

theorem waitsFor_iff {dependencies : List Cursor} {place : Cursor} :
    waitsFor dependencies place = true ↔
      ∃ path ∈ dependencies, path.components <+: place.components := by
  simp only [waitsFor, List.any_eq_true, Cursor.within_iff]

theorem waitsFor_tasks (calls : List PlannedCall) :
    (tasks calls).WaitsFor = DependsOn calls := by
  funext i j
  apply propext
  constructor
  · rintro ⟨hi, hj, hw⟩
    have hi' : calls[i]? = some calls[i] := List.getElem?_eq_getElem hi
    have hj' : calls[j]? = some calls[j] := List.getElem?_eq_getElem hj
    simp only [tasks, hi', hj'] at hw
    exact ⟨_, _, hi', hj', waitsFor_iff.mp hw⟩
  · rintro ⟨call, other, hi, hj, h⟩
    refine ⟨(List.getElem?_eq_some_iff.mp hi).1, (List.getElem?_eq_some_iff.mp hj).1, ?_⟩
    simp only [tasks, hi, hj]
    exact waitsFor_iff.mpr h

theorem mayCome_iff {placed : List Nat} {i : Nat} :
    (tasks calls).MayCome placed i ↔
      i < calls.length ∧ i ∉ placed ∧ ∀ j, DependsOn calls i j → j ∈ placed := by
  rw [← waitsFor_tasks]
  exact ⟨fun h => ⟨h.lt, h.unplaced, h.settled⟩, fun ⟨hlt, hnew, hall⟩ => ⟨hlt, hnew, hall⟩⟩

theorem schedule_eq_ok_iff {order : List Nat} :
    schedule calls = .ok order ↔ (tasks calls).schedule = .ok order := by
  unfold schedule
  cases (tasks calls).schedule with
  | ok placed =>
    constructor
    · rintro ⟨⟩
      rfl
    · rintro ⟨⟩
      rfl
  | error stuck => exact iff_of_false nofun nofun

theorem schedule_eq_error_iff {fault : Fault} :
    schedule calls = .error fault ↔
      ∃ stuck, (tasks calls).schedule = .error stuck ∧ fault = cycleFault calls stuck := by
  unfold schedule
  cases (tasks calls).schedule with
  | ok placed => exact iff_of_false nofun fun ⟨_, h, _⟩ => nomatch h
  | error stuck =>
    constructor
    · rintro ⟨⟩
      exact ⟨stuck, rfl, rfl⟩
    · rintro ⟨_, ⟨⟩, rfl⟩
      rfl

/-- An order of calls holds each of them once, after those that it depends on. -/
theorem isOrderOf_of_schedule {order : List Nat} (h : schedule calls = .ok order) :
    IsOrderOf calls order := by
  obtain ⟨-, hgreedy, hperm⟩ := Tasks.schedule_eq_ok (schedule_eq_ok_iff.mp h)
  refine ⟨hperm, fun i j hdep => ?_, fun k hk => ?_⟩
  · rw [← waitsFor_tasks] at hdep
    exact hgreedy.idxOf_lt (hperm.mem_iff.mpr (Tasks.mem_all.mpr hdep.1)) hdep
  · obtain ⟨may, least⟩ := hgreedy.getElem k hk
    exact ⟨mayCome_iff.mp may, fun i hi => least i (mayCome_iff.mpr hi)⟩

theorem isCycleOf_of_schedule {fault : Fault} (h : schedule calls = .error fault) :
    IsCycleOf calls fault := by
  obtain ⟨stuck, hstuck, rfl⟩ := schedule_eq_error_iff.mp h
  obtain ⟨-, hsorted, hblocked⟩ := Tasks.schedule_eq_error hstuck
  refine ⟨stuck, _, hsorted, fun i => ?_, pairwise_mergeSort_texts _, List.mergeSort_perm _ _, rfl⟩
  rw [hblocked, Tasks.Blocked, waitsFor_tasks]

theorem exists_schedule_eq_ok_iff :
    (∃ order, schedule calls = .ok order) ↔ ¬∃ i, TransGen (DependsOn calls) i i := by
  rw [← waitsFor_tasks]
  constructor
  · rintro ⟨order, h⟩
    exact (Tasks.schedule_eq_ok (schedule_eq_ok_iff.mp h)).1
  · intro hacyclic
    cases h : (tasks calls).schedule with
    | ok order => exact ⟨order, schedule_eq_ok_iff.mpr h⟩
    | error stuck => exact absurd (Tasks.schedule_eq_error h).1 hacyclic

theorem exists_ordered_of_acyclic (h : ¬∃ i, TransGen (DependsOn calls) i i) :
    ∃ inOrder, ordered calls = .ok inOrder := by
  obtain ⟨order, horder⟩ := exists_schedule_eq_ok_iff.mpr h
  exact ⟨_, congrArg (Except.map _) horder⟩

/-- **Calls are ordered if and only if none of them depends on itself over others, and then into the
first order that respects dependencies; otherwise the calls behind cycles are reported, and a phase
ends as it began.** -/
theorem schedule_least_order_or_cycle (calls : List PlannedCall) :
    ((∃ order, schedule calls = .ok order) ↔ ¬∃ i, TransGen (DependsOn calls) i i) ∧
    (∀ order, schedule calls = .ok order → IsOrderOf calls order) ∧
    (∀ fault, schedule calls = .error fault → IsCycleOf calls fault ∧
      ∀ registry budget phase state sites, CallSite.collect state.tree budget = .ok sites →
        (Plan.ofSites registry phase state.tree sites).calls = calls →
        runPhase registry budget phase state = (.error (.single fault), state)) := by
  refine ⟨exists_schedule_eq_ok_iff, fun order => isOrderOf_of_schedule,
    fun fault h => ⟨isCycleOf_of_schedule h, ?_⟩⟩
  intro registry budget phase state sites hsites hcalls
  unfold runPhase
  simp only [hsites, hcalls, ordered, h]
  rfl

end Laminate.Evaluation
