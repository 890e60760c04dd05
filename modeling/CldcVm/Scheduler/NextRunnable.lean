import Mathlib.Data.BitVec
import Mathlib.Data.List.Rotate

/-!
# The next thread to run

`Scheduler::get_next_runnable_thread` (`share/runtime/Scheduler.cpp`, lines 2132–2328), in a build
with isolates: the loop over the tasks, the second attempt where the quota of a task's threads is
used up, and the loop over the priorities of a task. A queue of threads is a circular list; it is
the list of its members from its head on.
-/

namespace CldcVm.Scheduler

abbrev Thread := ℕ

/-- `Task`, as far as the scheduler reads it. The queue of a priority is empty where the source has
a null head. -/
structure Task where
  priority : ℕ
  priorityQueueValid : BitVec 32
  lastPriorityQueue : ℕ
  priorityQueue : ℕ → List Thread

/-- The state that the search reads and changes. `quota` is the row of `sched_priority` that
`TaskPriorityScale` selects. -/
structure State where
  maxTasks : ℕ
  numTasks : ℕ
  currentTask : Option ℕ
  tasks : ℕ → Option Task
  quota : ℕ → ℕ
  taskFairScheduling : Bool
  taskExecuteCounts : ℕ → ℕ
  threadExecuteCounts : ℕ → ℕ → ℕ
  debuggerActive : Bool
  debuggerSuspended : Thread → Bool
  taskId : Thread → ℕ
  nextRunnableThread : Option Thread

/-- `ThreadObj::NUM_PRIORITY_SLOTS`. -/
def numPrioritySlots : ℕ := 10

/-- `Task::FIRST_TASK`. -/
def firstTask : ℕ := 1

/-- `no_higher_priority_threads`. -/
def noHigherPriorityThreads (priorityQueueValid : BitVec 32) (lastPriorityQueue : ℕ) : Bool :=
  priorityQueueValid ≠ 0 ∧
    priorityQueueValid &&& ~~~((1#32 <<< (lastPriorityQueue + 1)) - 1) = 0

/-- `Task::more_than_one_task`. -/
def State.moreThanOneTask (st : State) : Bool := 2 < st.numTasks

/-- The debugger has suspended the thread. -/
def State.suspended (st : State) (t : Thread) : Bool := st.debuggerActive && st.debuggerSuspended t

/-- `reset_thread_counts`. -/
def State.resetThreadCounts (st : State) (tid : ℕ) : State :=
  { st with threadExecuteCounts := Function.update st.threadExecuteCounts tid fun _ => 0 }

/-- `reset_task_counts`. -/
def State.resetTaskCounts (st : State) : State := { st with taskExecuteCounts := fun _ => 0 }

/-! ## One task -/

/-- The innermost loop: the queue with the first thread at its head that is not suspended, where
`passed` are those that are; none if all are. -/
def firstRunnable (suspended : Thread → Bool) (passed : List Thread) :
    List Thread → Option (List Thread)
  | [] => none
  | t :: rest =>
    if suspended t then firstRunnable suspended (passed ++ [t]) rest else some (t :: rest ++ passed)

/-- The queue from the thread on at which the search in it starts. -/
def startQueue (isYield : Bool) (queue : List Thread) : List Thread :=
  if isYield then queue.rotate 1 else queue

/-- The outcome of the loop over the priorities: a thread with its priority and the queue that it is
now the head of, or none, and whether a quota was used up. -/
inductive Found
  | thread (priority : ℕ) (t : Thread) (queue : List Thread)
  | none (threadQuotaExceeded : Bool)

/-- The loop over the priorities. -/
def searchPriorities (st : State) (tid : ℕ) (task : Task) (isYield : Bool) : ℕ → Bool → Found
  | 0, exceeded => .none exceeded
  | priority + 1, exceeded =>
    match firstRunnable st.suspended []
        (startQueue isYield (task.priorityQueue (priority + 1))) with
    | none | some [] => searchPriorities st tid task isYield priority exceeded
    | some (t :: queue) =>
      if st.threadExecuteCounts tid (priority + 1) > (priority + 1) * 2 then
        searchPriorities st tid task isYield priority true
      else .thread (priority + 1) t (t :: queue)

/-- The thread is chosen: it is the head of its queue, and the counts go up. -/
def State.choose (st : State) (tid : ℕ) (task : Task) (priority : ℕ) (t : Thread)
    (queue : List Thread) : State :=
  let last := Function.update st.tasks (st.taskId t)
    ((st.tasks (st.taskId t)).map fun task => { task with lastPriorityQueue := priority })
  { st with
    tasks := Function.update last tid ((last tid).map fun task =>
      { task with priorityQueue := Function.update task.priorityQueue priority queue })
    taskExecuteCounts :=
      if st.taskFairScheduling ∧ st.moreThanOneTask then
        Function.update st.taskExecuteCounts task.priority
          ((st.taskExecuteCounts task.priority + 1) % 2 ^ 32)
      else st.taskExecuteCounts
    threadExecuteCounts := Function.update st.threadExecuteCounts tid
      (Function.update (st.threadExecuteCounts tid) priority
        ((st.threadExecuteCounts tid priority + 1) % 2 ^ 8))
    nextRunnableThread := some t }

/-- The outcome of a search: the thread that has been chosen with the state, or the state only. -/
inductive Outcome
  | chosen (t : Thread) (st : State)
  | nothing (st : State)

/-- The loop with `inner_loop_count`: the counts of the threads are reset where a quota was used
up. -/
def searchTask (tid : ℕ) (task : Task) (isYield : Bool) (startPriority : ℕ) :
    (innerLoopCount : ℕ) → State → Outcome
  | 0, st => .nothing st
  | n + 1, st =>
    if task.priorityQueueValid = 0 then .nothing st
    else
      match searchPriorities st tid task isYield startPriority false with
      | .thread priority t queue => .chosen t (st.choose tid task priority t queue)
      | .none true => searchTask tid task isYield startPriority n (st.resetThreadCounts tid)
      | .none false => .nothing st

/-! ## All tasks -/

/-- The outcome of a pass over the tasks: with nothing chosen, the starting priority goes on as it
is, and whether the quota of a task was used up is known. -/
inductive PassOutcome
  | chosen (t : Thread) (st : State)
  | nothing (st : State) (startPriority : ℕ) (taskQuotaExceeded : Bool)

/-- The starting priority for a task. -/
def Task.startPriority (task : Task) (startPriority : ℕ) : ℕ :=
  if noHigherPriorityThreads task.priorityQueueValid task.lastPriorityQueue then
    task.lastPriorityQueue
  else startPriority

/-- The quota of the task is used up. -/
def State.taskQuotaExceeded (st : State) (task : Task) : Bool :=
  st.moreThanOneTask ∧ st.taskExecuteCounts task.priority > st.quota task.priority

/-- The loop over the tasks. -/
def searchTasks (isYield : Bool) : List ℕ → State → ℕ → Bool → PassOutcome
  | [], st, startPriority, exceeded => .nothing st startPriority exceeded
  | tid :: tids, st, startPriority, exceeded =>
    if tid = 0 then searchTasks isYield tids st startPriority exceeded
    else
      match st.tasks tid with
      | none => searchTasks isYield tids st startPriority exceeded
      | some task =>
        if st.taskQuotaExceeded task then searchTasks isYield tids st startPriority true
        else
          match searchTask tid task isYield (task.startPriority startPriority) 2 st with
          | .chosen t st => .chosen t st
          | .nothing st => searchTasks isYield tids st (task.startPriority startPriority) exceeded

/-- The tasks in the order in which they are visited: first the one after the current one. -/
def State.visited (st : State) : List ℕ :=
  let tid := st.currentTask.getD firstTask
  (List.range st.maxTasks).map fun i => (tid + 1 + i) % st.maxTasks

/-- The loop with `task_loop_count`: the counts of the tasks are reset where a quota was used up. -/
def searchPasses (isYield : Bool) : (taskLoopCount : ℕ) → State → ℕ → Outcome
  | 0, st, _ => .nothing st
  | n + 1, st, startPriority =>
    match searchTasks isYield st.visited st startPriority false with
    | .chosen t st => .chosen t st
    | .nothing st startPriority true => searchPasses isYield n st.resetTaskCounts startPriority
    | .nothing st _ false => .nothing st

/-- `get_next_runnable_thread`: the thread and the state. The source is given a thread to yield from
where `isYield` holds. -/
def getNextRunnableThread (isYield : Bool) (st : State) : Option Thread × State :=
  if isYield = false ∧ st.nextRunnableThread.isSome then (st.nextRunnableThread, st)
  else
    match searchPasses isYield 2 st numPrioritySlots with
    | .chosen t st => (some t, st)
    | .nothing st => (none, { st with nextRunnableThread := none })

end CldcVm.Scheduler
