/-!
# Schedules

Tasks are numbered from zero, and a task may wait for others and for itself. A schedule places one
task after the other: always the first one that is not placed yet and waits only for placed ones.

For each task the number of unplaced tasks that it waits for is kept. Placing a task lowers the
numbers of those that wait for it, and a task whose number gets to zero becomes ready. Where no task
is ready any more, those with a number above zero are stuck.
-/

namespace Laminate

/-- Tasks numbered from zero, and which of them waits for which. -/
structure Tasks where
  count : Nat
  waits : Nat → Nat → Bool

namespace Tasks

/-- All tasks, in order. -/
def all (tasks : Tasks) : List Nat :=
  List.range tasks.count

/-- The number of tasks that a task waits for. -/
def degree (tasks : Tasks) (task : Nat) : Nat :=
  tasks.all.countP (tasks.waits task)

/-- The tasks that wait for a task, in order. -/
def dependents (tasks : Tasks) (task : Nat) : List Nat :=
  tasks.all.filter fun other => tasks.waits other task

/-- A schedule in the making. -/
structure Progress where
  /-- For each task the number of unplaced tasks that it waits for. -/
  pending : List Nat
  /-- The tasks that can be placed next, in ascending order. -/
  ready : List Nat
  /-- The tasks that are placed, in order. -/
  placed : List Nat
deriving DecidableEq, Repr

/-- Adds a task to tasks in ascending order, unless it is among them. -/
def insertTask (task : Nat) : List Nat → List Nat
  | [] => [task]
  | t :: ts =>
    if task < t then task :: t :: ts else if task = t then t :: ts else t :: insertTask task ts

namespace Progress

/-- Lowers the number of a task; at zero the task becomes ready. -/
def release (p : Progress) (task : Nat) : Progress :=
  let pending := p.pending.modify task (· - 1)
  let ready := if pending[task]? = some 0 then insertTask task p.ready else p.ready
  { p with pending, ready }

/-- The tasks that cannot be placed, once no task is ready. -/
def stuck (p : Progress) : List Nat :=
  (List.range p.pending.length).filter fun task => 0 < p.pending.getD task 0

end Progress

/-- Nothing placed yet. -/
def start (tasks : Tasks) : Progress where
  pending := tasks.all.map tasks.degree
  ready := tasks.all.filter fun task => tasks.degree task = 0
  placed := []

/-- Places the first of the ready tasks, if there is one. -/
def step? (tasks : Tasks) (p : Progress) : Option Progress :=
  match p.ready with
  | [] => none
  | task :: ready =>
    some ((tasks.dependents task).foldl Progress.release
      { p with ready, placed := p.placed ++ [task] })

/-- Places tasks as long as one is ready, but at most a number of them. -/
def run (tasks : Tasks) : Nat → Progress → Progress
  | 0, p => p
  | steps + 1, p =>
    match tasks.step? p with
    | none => p
    | some p => tasks.run steps p

/-- All tasks placed that can be: there are no more steps than tasks. -/
def finish (tasks : Tasks) : Progress :=
  tasks.run tasks.count tasks.start

/-- A schedule of all tasks, or else the tasks that are stuck. -/
def schedule (tasks : Tasks) : Except (List Nat) (List Nat) :=
  let p := tasks.finish
  if p.placed.length < tasks.count then .error p.stuck else .ok p.placed

end Tasks

end Laminate
