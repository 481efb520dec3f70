import Laminate.Schedule
import Mathlib.Data.List.Count
import Mathlib.Data.List.Nodup
import Mathlib.Data.List.Perm.Subperm

/-!
# What a schedule in the making knows

The numbers that a schedule keeps are never recomputed, only lowered. `Sound` says what they mean at
every moment: the number of a task is the number of unplaced tasks that it waits for, and the ready
tasks are exactly those that may come next. One step keeps this (`Sound.step`), so a whole run does
(`sound_run`), and since a run has as many steps as there are tasks, no task is ready at its end
(`ready_finish`).
-/

namespace Laminate.Tasks

variable {tasks : Tasks}

/-- Whether a task waits for another one, both of them among the tasks. -/
def WaitsFor (tasks : Tasks) (i j : Nat) : Prop :=
  i < tasks.count ∧ j < tasks.count ∧ tasks.waits i j = true

/-- Whether a task may come next: it is not placed yet and waits only for placed ones. -/
structure MayCome (tasks : Tasks) (placed : List Nat) (task : Nat) : Prop where
  lt : task < tasks.count
  unplaced : task ∉ placed
  settled : ∀ other, tasks.WaitsFor task other → other ∈ placed

/-- Orders in which each task is the first of those that may come next. -/
inductive Greedy (tasks : Tasks) : List Nat → Prop
  | nil : Greedy tasks []
  | snoc {placed : List Nat} {task : Nat} (h : Greedy tasks placed)
      (may : tasks.MayCome placed task)
      (least : ∀ other, tasks.MayCome placed other → task ≤ other) :
      Greedy tasks (placed ++ [task])

/-- What the numbers of a schedule in the making mean. -/
structure Sound (tasks : Tasks) (p : Progress) : Prop where
  greedy : tasks.Greedy p.placed
  length : p.pending.length = tasks.count
  pending : ∀ task, task < tasks.count → p.pending[task]? =
    some (tasks.all.countP fun other => tasks.waits task other && !p.placed.contains other)
  sorted : p.ready.Pairwise (· < ·)
  ready : ∀ task, task ∈ p.ready ↔ tasks.MayCome p.placed task

/-! ## Tasks in ascending order -/

theorem mem_all {task : Nat} : task ∈ tasks.all ↔ task < tasks.count :=
  List.mem_range

theorem mem_dependents {task other : Nat} :
    other ∈ tasks.dependents task ↔ other < tasks.count ∧ tasks.waits other task = true := by
  rw [dependents, List.mem_filter, mem_all]

theorem mem_insertTask {task other : Nat} {ts : List Nat} :
    other ∈ insertTask task ts ↔ other = task ∨ other ∈ ts := by
  induction ts with
  | nil => simp [insertTask]
  | cons t ts ih =>
    unfold insertTask
    split
    · simp
    · split
      · next h => simp [h]
      · rw [List.mem_cons, ih, List.mem_cons]
        tauto

theorem pairwise_insertTask {task : Nat} {ts : List Nat} (h : ts.Pairwise (· < ·)) :
    (insertTask task ts).Pairwise (· < ·) := by
  induction ts with
  | nil => simp [insertTask]
  | cons t ts ih =>
    obtain ⟨hlt, hts⟩ := List.pairwise_cons.mp h
    unfold insertTask
    split
    · next hlt' =>
      refine List.pairwise_cons.mpr ⟨fun other hother => ?_, h⟩
      rcases List.mem_cons.mp hother with heq | hmem
      · omega
      · have := hlt other hmem
        omega
    · split
      · exact h
      · refine List.pairwise_cons.mpr ⟨fun other hother => ?_, ih hts⟩
        rcases mem_insertTask.mp hother with heq | hmem
        · omega
        · exact hlt other hmem

/-! ## Releasing tasks -/

theorem getElem?_release (p : Progress) (task other : Nat) :
    (p.release task).pending[other]? =
      if task = other then (p.pending[other]?).map (· - 1) else p.pending[other]? := by
  simp only [Progress.release, List.getElem?_modify]
  split <;> simp

theorem mem_ready_release (p : Progress) (task other : Nat) :
    other ∈ (p.release task).ready ↔
      other ∈ p.ready ∨ other = task ∧ (p.release task).pending[task]? = some 0 := by
  simp only [Progress.release]
  split
  · next h => rw [mem_insertTask]; tauto
  · next h => tauto

theorem pairwise_ready_release {p : Progress} (h : p.ready.Pairwise (· < ·)) (task : Nat) :
    (p.release task).ready.Pairwise (· < ·) := by
  simp only [Progress.release]
  split
  · exact pairwise_insertTask h
  · exact h

section Foldl

variable {ts : List Nat}

theorem placed_foldl_release (ts : List Nat) : ∀ p : Progress,
    (ts.foldl Progress.release p).placed = p.placed := by
  induction ts with
  | nil => exact fun _ => rfl
  | cons t ts ih => exact fun p => ih (p.release t)

theorem length_foldl_release (ts : List Nat) : ∀ p : Progress,
    (ts.foldl Progress.release p).pending.length = p.pending.length := by
  induction ts with
  | nil => exact fun _ => rfl
  | cons t ts ih =>
    intro p
    rw [List.foldl_cons, ih]
    simp [Progress.release]

theorem getElem?_foldl_release : ∀ {ts : List Nat}, ts.Nodup → ∀ (p : Progress) (other : Nat),
    (ts.foldl Progress.release p).pending[other]? =
      if other ∈ ts then (p.pending[other]?).map (· - 1) else p.pending[other]?
  | [], _, p, other => by simp
  | t :: ts, h, p, other => by
    obtain ⟨hnot, hts⟩ := List.nodup_cons.mp h
    rw [List.foldl_cons, getElem?_foldl_release hts, getElem?_release]
    by_cases heq : t = other
    · subst heq
      simp [hnot]
    · have heq' : ¬other = t := fun e => heq e.symm
      simp [heq, heq']

theorem pairwise_ready_foldl_release (ts : List Nat) : ∀ p : Progress,
    p.ready.Pairwise (· < ·) → (ts.foldl Progress.release p).ready.Pairwise (· < ·) := by
  induction ts with
  | nil => exact fun _ h => h
  | cons t ts ih => exact fun p h => ih _ (pairwise_ready_release h t)

theorem mem_ready_foldl_release : ∀ {ts : List Nat}, ts.Nodup → ∀ (p : Progress) (other : Nat),
    other ∈ (ts.foldl Progress.release p).ready ↔
      other ∈ p.ready ∨
        other ∈ ts ∧ (ts.foldl Progress.release p).pending[other]? = some 0
  | [], _, p, other => by simp
  | t :: ts, h, p, other => by
    obtain ⟨hnot, hts⟩ := List.nodup_cons.mp h
    -- the number of `t` is not touched again after `t` itself is released
    have hkept : (ts.foldl Progress.release (p.release t)).pending[t]?
        = (p.release t).pending[t]? := by
      rw [getElem?_foldl_release hts, if_neg hnot]
    rw [List.foldl_cons, mem_ready_foldl_release hts, mem_ready_release, List.mem_cons]
    constructor
    · rintro ((hmem | ⟨rfl, hzero⟩) | ⟨hmem, hzero⟩)
      · exact Or.inl hmem
      · exact Or.inr ⟨Or.inl rfl, by rw [hkept]; exact hzero⟩
      · exact Or.inr ⟨Or.inr hmem, hzero⟩
    · rintro (hmem | ⟨rfl | hmem, hzero⟩)
      · exact Or.inl (Or.inl hmem)
      · exact Or.inl (Or.inr ⟨rfl, by rw [← hkept]; exact hzero⟩)
      · exact Or.inr ⟨hmem, hzero⟩

end Foldl

/-! ## Greedy orders -/

namespace Greedy

variable {placed : List Nat}

theorem lt (h : tasks.Greedy placed) : ∀ task ∈ placed, task < tasks.count := by
  induction h with
  | nil => simp
  | snoc _ may _ ih =>
    intro task hmem
    rcases List.mem_append.mp hmem with hmem | hmem
    · exact ih task hmem
    · exact List.mem_singleton.mp hmem ▸ may.lt

theorem nodup (h : tasks.Greedy placed) : placed.Nodup := by
  induction h with
  | nil => exact List.nodup_nil
  | snoc _ may _ ih =>
    rw [List.nodup_append]
    refine ⟨ih, List.nodup_singleton _, fun a ha b hb => ?_⟩
    rw [List.mem_singleton.mp hb]
    exact fun e => may.unplaced (e ▸ ha)

/-- What a placed task waits for is placed. -/
theorem settled (h : tasks.Greedy placed) :
    ∀ task ∈ placed, ∀ other, tasks.WaitsFor task other → other ∈ placed := by
  induction h with
  | nil => simp
  | snoc _ may _ ih =>
    intro task hmem other hw
    rcases List.mem_append.mp hmem with hmem | hmem
    · exact List.mem_append_left _ (ih task hmem other hw)
    · rw [List.mem_singleton.mp hmem] at hw
      exact List.mem_append_left _ (may.settled other hw)

theorem subset_all (h : tasks.Greedy placed) : placed ⊆ tasks.all :=
  fun task hmem => mem_all.mpr (h.lt task hmem)

/-- A greedy order that is long enough holds all tasks. -/
theorem perm_all (h : tasks.Greedy placed) (hlen : tasks.count ≤ placed.length) :
    placed.Perm tasks.all :=
  (List.subperm_of_subset h.nodup h.subset_all).perm_of_length_le
    (by rw [all, List.length_range]; exact hlen)

/-- Each task of a greedy order is the first of those that may come after the tasks before it. -/
theorem getElem (h : tasks.Greedy placed) : ∀ (k : Nat) (hk : k < placed.length),
    tasks.MayCome (placed.take k) placed[k] ∧
      ∀ other, tasks.MayCome (placed.take k) other → placed[k] ≤ other := by
  induction h with
  | nil => exact fun k hk => absurd hk (Nat.not_lt_zero k)
  | @snoc placed task _ may least ih =>
    intro k hk
    rw [List.length_append, List.length_singleton] at hk
    by_cases hlast : k < placed.length
    · rw [List.take_append_of_le_length (Nat.le_of_lt hlast), List.getElem_append_left hlast]
      exact ih k hlast
    · obtain rfl : k = placed.length := by omega
      rw [List.take_left, List.getElem_concat_length rfl]
      exact ⟨may, least⟩

/-- A task comes after those that it waits for. -/
theorem idxOf_lt (h : tasks.Greedy placed) {task other : Nat} (hmem : task ∈ placed)
    (hw : tasks.WaitsFor task other) : placed.idxOf other < placed.idxOf task := by
  have hk := List.idxOf_lt_length_of_mem hmem
  obtain ⟨may, -⟩ := h.getElem (placed.idxOf task) hk
  rw [List.getElem_idxOf hk] at may
  exact List.mem_take_iff_idxOf_lt (h.settled task hmem other hw) |>.mp (may.settled other hw)

end Greedy

/-! ## One step -/

/-- Placing a task lowers the number of unplaced tasks by one where the placed one counted. -/
theorem countP_unplaced_append {placed : List Nat} {task : Nat} (hlt : task < tasks.count)
    (hnew : task ∉ placed) (P : Nat → Bool) :
    tasks.all.countP (fun other => P other && !(placed ++ [task]).contains other) =
      tasks.all.countP (fun other => P other && !placed.contains other) -
        if P task then 1 else 0 := by
  have hnodup : tasks.all.Nodup := List.nodup_range
  have hmem : task ∈ tasks.all := mem_all.mpr hlt
  have hsplit : ∀ other, (P other && !(placed ++ [task]).contains other) =
      ((P other && !placed.contains other) && other != task) := by
    intro other
    by_cases h : other = task <;> simp [h]
  -- counting without `task` is counting in the list from which `task` is erased
  have hcount := List.countP_erase (p := fun other => P other && !placed.contains other)
    tasks.all task
  rw [hnodup.erase_eq_filter, List.countP_filter] at hcount
  simp only [hsplit]
  rw [hcount]
  simp [hmem, hnew]

/-- A task that waits only for placed ones has nothing left to wait for. -/
theorem countP_unplaced_eq_zero_iff {placed : List Nat} {task : Nat} (hlt : task < tasks.count) :
    tasks.all.countP (fun other => tasks.waits task other && !placed.contains other) = 0 ↔
      ∀ other, tasks.WaitsFor task other → other ∈ placed := by
  rw [List.countP_eq_zero]
  constructor
  · rintro h other ⟨-, hother, hw⟩
    simpa [hw] using h other (mem_all.mpr hother)
  · intro h other hmem
    by_cases hw : tasks.waits task other = true
    · simpa [hw] using h other ⟨hlt, mem_all.mp hmem, hw⟩
    · simp [hw]

/-- A task that may come still may after another one is placed. -/
theorem MayCome.append {placed : List Nat} {task other : Nat} (h : tasks.MayCome placed other)
    (hne : other ≠ task) : tasks.MayCome (placed ++ [task]) other where
  lt := h.lt
  unplaced := by simp [h.unplaced, hne]
  settled := fun o hw => List.mem_append_left _ (h.settled o hw)

/-- A task that does not wait for the one just placed could come before. -/
theorem MayCome.of_append {placed : List Nat} {task other : Nat}
    (h : tasks.MayCome (placed ++ [task]) other) (hw : tasks.waits other task = false) :
    tasks.MayCome placed other where
  lt := h.lt
  unplaced := fun hmem => h.unplaced (List.mem_append_left _ hmem)
  settled := by
    intro o ho
    rcases List.mem_append.mp (h.settled o ho) with hmem | hmem
    · exact hmem
    · obtain ⟨-, -, how⟩ := ho
      rw [List.mem_singleton.mp hmem, hw] at how
      cases how

theorem nodup_dependents (task : Nat) : (tasks.dependents task).Nodup :=
  List.nodup_range.filter _

/-- After a task has been placed, those may come that could come before, and those that waited for
nothing else any more. -/
theorem mayCome_append_iff {placed : List Nat} {task other : Nat} (h : tasks.Greedy placed)
    (may : tasks.MayCome placed task) :
    tasks.MayCome (placed ++ [task]) other ↔
      (tasks.MayCome placed other ∧ other ≠ task) ∨
        (other ∈ tasks.dependents task ∧
          ∀ o, tasks.WaitsFor other o → o ∈ placed ++ [task]) := by
  constructor
  · intro hother
    cases hw : tasks.waits other task with
    | true => exact Or.inr ⟨mem_dependents.mpr ⟨hother.lt, hw⟩, hother.settled⟩
    | false =>
      refine Or.inl ⟨hother.of_append hw, fun heq => hother.unplaced ?_⟩
      exact heq ▸ List.mem_append_right _ (List.mem_singleton_self _)
  · rintro (⟨hother, hne⟩ | ⟨hdep, hsettled⟩)
    · exact hother.append hne
    · obtain ⟨hlt, hw⟩ := mem_dependents.mp hdep
      refine ⟨hlt, fun hin => ?_, hsettled⟩
      rcases List.mem_append.mp hin with hin | hin
      · exact may.unplaced (h.settled other hin task ⟨hlt, may.lt, hw⟩)
      · -- a task that waits for itself could not have been placed
        rw [List.mem_singleton.mp hin] at hw
        exact may.unplaced (may.settled task ⟨may.lt, may.lt, hw⟩)

/-- **One step keeps the meaning of the numbers.** -/
theorem Sound.step {p q : Progress} (h : tasks.Sound p) (hstep : tasks.step? p = some q) :
    tasks.Sound q ∧ q.placed.length = p.placed.length + 1 := by
  unfold step? at hstep
  cases hready : p.ready with
  | nil => rw [hready] at hstep; cases hstep
  | cons task rest =>
    rw [hready] at hstep
    have hsorted := hready ▸ h.sorted
    obtain ⟨hleast, hrest⟩ := List.pairwise_cons.mp hsorted
    have may : tasks.MayCome p.placed task := (h.ready task).mp (by simp [hready])
    -- the state in which the tasks that wait for `task` are released
    let p₀ : Progress := { p with ready := rest, placed := p.placed ++ [task] }
    have hq : q = (tasks.dependents task).foldl Progress.release p₀ := (Option.some.inj hstep).symm
    have hplaced : q.placed = p.placed ++ [task] := by rw [hq, placed_foldl_release]
    -- each number loses the one task that was placed, where it counted it
    have hpending : ∀ other, other < tasks.count → q.pending[other]? = some (tasks.all.countP
        fun o => tasks.waits other o && !(p.placed ++ [task]).contains o) := by
      intro other hother
      rw [hq, getElem?_foldl_release (nodup_dependents task), h.pending other hother,
        countP_unplaced_append may.lt may.unplaced, Option.map_some]
      by_cases hw : tasks.waits other task = true <;> simp [mem_dependents, hw, hother]
    have hmem : ∀ other, other ∈ q.ready ↔ other ∈ rest ∨
        other ∈ tasks.dependents task ∧ q.pending[other]? = some 0 := by
      intro other
      rw [hq]
      exact mem_ready_foldl_release (nodup_dependents task) p₀ other
    refine ⟨⟨?greedy, ?length, ?pending, ?sorted, ?ready⟩, by simp [hplaced]⟩
    case greedy =>
      rw [hplaced]
      refine h.greedy.snoc may fun other hother => ?_
      rcases List.mem_cons.mp (hready ▸ (h.ready other).mpr hother) with heq | hmem'
      · exact Nat.le_of_eq heq.symm
      · exact Nat.le_of_lt (hleast other hmem')
    case length => rw [hq, length_foldl_release]; exact h.length
    case pending => rw [hplaced]; exact hpending
    case sorted => rw [hq]; exact pairwise_ready_foldl_release _ p₀ hrest
    case ready =>
      intro other
      rw [hmem, hplaced, mayCome_append_iff h.greedy may, ← h.ready, hready]
      refine or_congr ?_ (and_congr_right fun hdep => ?_)
      · constructor
        · exact fun hin => ⟨List.mem_cons_of_mem _ hin, Nat.ne_of_gt (hleast other hin)⟩
        · rintro ⟨hin, hne⟩
          exact (List.mem_cons.mp hin).resolve_left hne
      · have hother := (mem_dependents.mp hdep).1
        rw [hpending other hother, Option.some.injEq, countP_unplaced_eq_zero_iff hother]

/-! ## Whole runs -/

theorem sound_start : tasks.Sound tasks.start where
  greedy := .nil
  length := by simp [start, all]
  pending := by
    intro task hlt
    simp [start, all, degree, hlt]
  sorted := List.pairwise_lt_range.filter _
  ready := by
    intro task
    rw [start, List.mem_filter, mem_all, decide_eq_true_eq]
    constructor
    · rintro ⟨hlt, hzero⟩
      refine ⟨hlt, List.not_mem_nil, (countP_unplaced_eq_zero_iff hlt).mp ?_⟩
      simpa [degree] using hzero
    · rintro ⟨hlt, -, hsettled⟩
      refine ⟨hlt, ?_⟩
      simpa [degree] using (countP_unplaced_eq_zero_iff hlt).mpr hsettled

/-- **A whole run keeps the meaning of the numbers, and does not stop while a task is ready.** -/
theorem sound_run : ∀ (steps : Nat) (p : Progress), tasks.Sound p →
    tasks.count - p.placed.length ≤ steps →
    tasks.Sound (tasks.run steps p) ∧ (tasks.run steps p).ready = []
  | 0, p, h, hsteps => by
    refine ⟨h, List.eq_nil_iff_forall_not_mem.mpr fun task hmem => ?_⟩
    -- all tasks are placed already
    have may := (h.ready task).mp hmem
    have hall := h.greedy.perm_all (by omega)
    exact may.unplaced (hall.mem_iff.mpr (mem_all.mpr may.lt))
  | steps + 1, p, h, hsteps => by
    rw [run]
    cases hstep : tasks.step? p with
    | none =>
      refine ⟨h, ?_⟩
      unfold step? at hstep
      cases hready : p.ready with
      | nil => rfl
      | cons task rest => rw [hready] at hstep; cases hstep
    | some q =>
      obtain ⟨hsound, hlength⟩ := h.step hstep
      exact sound_run steps q hsound (by omega)

theorem sound_finish : tasks.Sound tasks.finish :=
  (sound_run tasks.count tasks.start sound_start (Nat.sub_le _ _)).1

theorem ready_finish : tasks.finish.ready = [] :=
  (sound_run tasks.count tasks.start sound_start (Nat.sub_le _ _)).2

/-- In the end the stuck tasks are those that are not placed. -/
theorem mem_stuck_finish {task : Nat} :
    task ∈ tasks.finish.stuck ↔ task < tasks.count ∧ task ∉ tasks.finish.placed := by
  have h := tasks.sound_finish
  rw [Progress.stuck, List.mem_filter, List.mem_range, h.length, decide_eq_true_eq]
  refine and_congr_right fun hlt => ?_
  rw [List.getD_eq_getElem?_getD, h.pending task hlt, Option.getD_some, Nat.pos_iff_ne_zero, ne_eq,
    countP_unplaced_eq_zero_iff hlt, not_iff_not]
  constructor
  · intro hsettled
    -- an unplaced task that waits for nothing any more would be ready
    by_contra hnew
    have hready := (h.ready task).mpr ⟨hlt, hnew, hsettled⟩
    rw [ready_finish] at hready
    cases hready
  · exact fun hmem => h.greedy.settled task hmem

end Laminate.Tasks
