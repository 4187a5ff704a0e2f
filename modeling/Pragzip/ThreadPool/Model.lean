import Mathlib

/-!
# Thread pool — the model

`ThreadPool` keeps its pending tasks in `std::map<int, std::deque<PackagedTaskWrapper>>`, keyed by
priority; `submit` appends a task to the deque of its priority, and a worker takes the front of the
first non-empty deque, in increasing order of the key. Every access holds `m_mutex`, so a run is a
sequence of submits, worker turns and `stop`.

* `TaskMap`: the map as a list of `(priority, deque)` sorted by priority; a packaged task is named
  by the number of tasks submitted before it;
* `emplaceBack` (`m_tasks[priority].emplace_back`), `popFront` (the `find_if` and `pop_front` of
  `workerMain`);
* `ThreadPool.submit`, `ThreadPool.unprocessedTasksCount`, `ThreadPool.hasUnprocessedTasks`,
  `ThreadPool.dequeue`, `ThreadPool.stop`;
* `PoolEvent`, `ThreadPool.run`: the state after a sequence of events and the tasks the workers
  took, in order.
-/

namespace Pragzip

/-- `m_tasks`: the deques by priority, in increasing order of the priority. -/
abbrev TaskMap := List (Int × List Nat)

/-- `m_tasks[priority].emplace_back(task)`: the deque of `priority`, created empty where missing,
gets `task` at its back. -/
def emplaceBack (priority : Int) (task : Nat) : TaskMap → TaskMap
  | [] => [(priority, [task])]
  | (p, d) :: rest =>
    if priority < p then (priority, [task]) :: (p, d) :: rest
    else if priority = p then (p, d ++ [task]) :: rest
    else (p, d) :: emplaceBack priority task rest

/-- The front of the first non-empty deque, and the map with it popped. The emptied deque stays
in the map, as in `std::map`. -/
def popFront : TaskMap → Option (Nat × TaskMap)
  | [] => none
  | (p, []) :: rest => (popFront rest).map fun (task, rest) => (task, (p, []) :: rest)
  | (p, task :: d) :: rest => some (task, (p, d) :: rest)

/-- The members of `ThreadPool` that the dispatch reads; `taskCount` counts the submitted tasks
and so names the next packaged task. -/
structure ThreadPool where
  threadPoolRunning : Bool
  tasks : TaskMap
  taskCount : Nat
  deriving DecidableEq, Repr

namespace ThreadPool

/-- The pool after its constructor: running, with no task. -/
def init : ThreadPool := ⟨true, [], 0⟩

variable (pool : ThreadPool)

/-- `submit(task, priority)`: the pool with the new task queued, and the task. -/
def submit (priority : Int) : ThreadPool × Nat :=
  ({ pool with tasks := emplaceBack priority pool.taskCount pool.tasks,
               taskCount := pool.taskCount + 1 }, pool.taskCount)

/-- `unprocessedTasksCount(priority)`: the length of the deque of `priority`, or of all deques. -/
def unprocessedTasksCount : Option Int → Nat
  | some priority => match pool.tasks.lookup priority with
    | some tasks => tasks.length
    | none => 0
  | none => (pool.tasks.map fun tasks => tasks.2.length).sum

/-- `hasUnprocessedTasks()`. -/
def hasUnprocessedTasks : Bool := pool.tasks.any fun tasks => !tasks.2.isEmpty

/-- One turn of `workerMain` that takes a task: once woken, a running pool pops the front of the
first non-empty deque; a stopped one takes nothing. -/
def dequeue : Option (Nat × ThreadPool) :=
  if pool.threadPoolRunning then
    (popFront pool.tasks).map fun (task, tasks) => (task, { pool with tasks })
  else none

/-- `stop()`: the workers leave their loop. -/
def stop : ThreadPool := { pool with threadPoolRunning := false }

end ThreadPool

/-- What happens under `m_mutex`: a submit of some priority, a worker's turn, or `stop`. -/
inductive PoolEvent
  | submit (priority : Int)
  | dequeue
  | stop

namespace ThreadPool

/-- The pool after an event, and the task a worker took in it. A worker whose turn finds no task
keeps waiting. -/
def step (pool : ThreadPool) : PoolEvent → ThreadPool × Option Nat
  | .submit priority => ((pool.submit priority).1, none)
  | .dequeue => match pool.dequeue with
    | some (task, pool) => (pool, some task)
    | none => (pool, none)
  | .stop => (pool.stop, none)

/-- The pool after a sequence of events, and the tasks the workers took, in order. -/
def run (pool : ThreadPool) : List PoolEvent → ThreadPool × List Nat
  | [] => (pool, [])
  | event :: events =>
    let (pool', taken) := pool.step event
    let (pool'', rest) := run pool' events
    (pool'', taken.toList ++ rest)

end ThreadPool

end Pragzip
