import Laminate.Proofs.Schedule.Progress
import Mathlib.Data.Fintype.Pigeonhole
import Mathlib.Logic.Relation

/-!
# Schedules and cycles

A task is blocked if it is on a cycle or waits, over any number of others, for one that is. A greedy
order places no blocked task (`Greedy.not_blocked`); and among finitely many tasks each of which
waits for another of them all are blocked (`blocked_of_closed`). So the tasks that a schedule leaves
over are exactly the blocked ones (`mem_stuck_finish_iff_blocked`).
-/

namespace Laminate.Tasks

open Relation

variable {tasks : Tasks}

/-- Whether a task is on a cycle, or waits in the end for one that is. -/
def Blocked (tasks : Tasks) (task : Nat) : Prop :=
  ∃ other, ReflTransGen tasks.WaitsFor task other ∧ TransGen tasks.WaitsFor other other

/-- Whether there is a cycle. -/
def HasCycle (tasks : Tasks) : Prop :=
  ∃ task, TransGen tasks.WaitsFor task task

theorem Blocked.exists_waitsFor {task : Nat} (h : tasks.Blocked task) :
    ∃ other, tasks.WaitsFor task other ∧ tasks.Blocked other := by
  obtain ⟨c, hreach, hcycle⟩ := h
  rcases hreach.cases_head with rfl | ⟨other, hw, hrest⟩
  · obtain ⟨other, hw, hback⟩ := TransGen.head'_iff.mp hcycle
    exact ⟨other, hw, _, hback, hcycle⟩
  · exact ⟨other, hw, c, hrest, hcycle⟩

theorem Blocked.lt {task : Nat} (h : tasks.Blocked task) : task < tasks.count := by
  obtain ⟨_, hw, _⟩ := h.exists_waitsFor
  exact hw.1

theorem hasCycle_iff_exists_blocked : tasks.HasCycle ↔ ∃ task, tasks.Blocked task :=
  ⟨fun ⟨task, h⟩ => ⟨task, task, .refl, h⟩, fun ⟨_, other, _, h⟩ => ⟨other, h⟩⟩

/-- A greedy order never gets to a blocked task. -/
theorem Greedy.not_blocked {placed : List Nat} (h : tasks.Greedy placed) :
    ∀ task ∈ placed, ¬tasks.Blocked task := by
  induction h with
  | nil => simp
  | snoc _ may _ ih =>
    intro task hmem hblocked
    rcases List.mem_append.mp hmem with hmem | hmem
    · exact ih task hmem hblocked
    · obtain ⟨other, hw, hother⟩ := hblocked.exists_waitsFor
      rw [List.mem_singleton.mp hmem] at hw
      exact ih other (may.settled other hw) hother

/-- Tasks each of which waits for another of them are blocked: following what they wait for, one
comes back to a task sooner or later. -/
theorem blocked_of_closed (left : Nat → Prop)
    (hleft : ∀ task, left task → ∃ other, tasks.WaitsFor task other ∧ left other) {task : Nat}
    (h : left task) : tasks.Blocked task := by
  choose! next hnext using hleft
  let walk : Nat → Nat := fun n => next^[n] task
  have hwalk : ∀ n, left (walk n) := by
    intro n
    induction n with
    | zero => exact h
    | succ n ih =>
      show left (next^[n + 1] task)
      rw [Function.iterate_succ_apply']
      exact (hnext _ ih).2
  have hstep : ∀ n, tasks.WaitsFor (walk n) (walk (n + 1)) := by
    intro n
    show tasks.WaitsFor (next^[n] task) (next^[n + 1] task)
    rw [Function.iterate_succ_apply']
    exact (hnext _ (hwalk n)).1
  have hreach : ∀ m n, ReflTransGen tasks.WaitsFor (walk m) (walk (m + n)) := by
    intro m n
    induction n with
    | zero => exact .refl
    | succ n ih => exact ih.tail (hstep (m + n))
  -- between two visits of the same task the walk goes round a cycle
  have hcome : ∀ m n, m < n → walk m = walk n → tasks.Blocked task := by
    intro m n hlt heq
    have hfrom : ReflTransGen tasks.WaitsFor task (walk m) := by
      have := hreach 0 m
      rwa [Nat.zero_add] at this
    have hback : ReflTransGen tasks.WaitsFor (walk (m + 1)) (walk n) := by
      have := hreach (m + 1) (n - (m + 1))
      rwa [show m + 1 + (n - (m + 1)) = n by omega] at this
    exact ⟨walk m, hfrom, TransGen.head' (hstep m) (heq ▸ hback)⟩
  -- there are only finitely many tasks to go to
  obtain ⟨m, n, hne, heq⟩ := Finite.exists_ne_map_eq_of_infinite
    fun n => (⟨walk n, (hstep n).1⟩ : Fin tasks.count)
  have heq' : walk m = walk n := congrArg Fin.val heq
  rcases Nat.lt_or_gt_of_ne hne with hlt | hlt
  · exact hcome m n hlt heq'
  · exact hcome n m hlt heq'.symm

/-- **The tasks that are left over are exactly the blocked ones.** -/
theorem mem_stuck_finish_iff_blocked {task : Nat} :
    task ∈ tasks.finish.stuck ↔ tasks.Blocked task := by
  have hsound := tasks.sound_finish
  rw [mem_stuck_finish]
  constructor
  · intro h
    refine blocked_of_closed (fun t => t < tasks.count ∧ t ∉ tasks.finish.placed) ?_ h
    rintro t ⟨hlt, hnew⟩
    by_contra hnone
    -- if `t` waited for placed tasks only, it would still be ready
    have may : tasks.MayCome tasks.finish.placed t := by
      refine ⟨hlt, hnew, fun other hw => ?_⟩
      by_contra hother
      exact hnone ⟨other, hw, hw.2.1, hother⟩
    have hready := (hsound.ready t).mpr may
    rw [ready_finish] at hready
    cases hready
  · intro h
    exact ⟨h.lt, fun hmem => hsound.greedy.not_blocked task hmem h⟩

/-- All tasks are placed, or the list of those that are stuck is not empty. -/
theorem length_placed_finish_lt_iff :
    tasks.finish.placed.length < tasks.count ↔ tasks.HasCycle := by
  have hsound := tasks.sound_finish
  rw [hasCycle_iff_exists_blocked]
  constructor
  · intro hlt
    by_contra hnone
    have hall : tasks.all ⊆ tasks.finish.placed := by
      intro task hmem
      by_contra hnew
      exact hnone ⟨task, mem_stuck_finish_iff_blocked.mp
        (mem_stuck_finish.mpr ⟨mem_all.mp hmem, hnew⟩)⟩
    have hle := (List.subperm_of_subset List.nodup_range hall).length_le
    rw [List.length_range] at hle
    omega
  · rintro ⟨task, hblocked⟩
    by_contra hge
    have hperm := hsound.greedy.perm_all (by omega)
    exact hsound.greedy.not_blocked task (hperm.mem_iff.mpr (mem_all.mpr hblocked.lt)) hblocked

/-- A schedule of all tasks is a greedy order of them. -/
theorem schedule_eq_ok {order : List Nat} (h : tasks.schedule = .ok order) :
    ¬tasks.HasCycle ∧ tasks.Greedy order ∧ order.Perm tasks.all := by
  have hsound := tasks.sound_finish
  unfold schedule at h
  by_cases hlt : tasks.finish.placed.length < tasks.count
  · simp [hlt] at h
  · have horder : tasks.finish.placed = order := by simpa [hlt] using h
    have hperm := hsound.greedy.perm_all (by omega)
    rw [← length_placed_finish_lt_iff]
    exact ⟨hlt, horder ▸ hsound.greedy, horder ▸ hperm⟩

/-- Without a schedule the blocked tasks are listed in ascending order. -/
theorem schedule_eq_error {stuck : List Nat} (h : tasks.schedule = .error stuck) :
    tasks.HasCycle ∧ stuck.Pairwise (· < ·) ∧ ∀ task, task ∈ stuck ↔ tasks.Blocked task := by
  unfold schedule at h
  by_cases hlt : tasks.finish.placed.length < tasks.count
  · have hstuck : tasks.finish.stuck = stuck := by simpa [hlt] using h
    subst hstuck
    exact ⟨length_placed_finish_lt_iff.mp hlt, List.pairwise_lt_range.filter _,
      fun _ => mem_stuck_finish_iff_blocked⟩
  · simp [hlt] at h

end Laminate.Tasks
