import CldcVm.Bytecodes.Data

/-!
# The queue of a timer

`TaskQueue` in `java/util/Timer.java` (lines 577–772): a binary heap of tasks in an array, ordered
on `nextExecutionTime`, with a count of the tasks that follow the user clock.

Task objects are numbers, and their fields are in `tasks`. An operation gives `none` when it throws
an exception: a `null` task or a position outside of the array is read, or there is no memory.
-/

namespace CldcVm.TimerQueue

/-- The fields of `TimerTask` that the queue uses. -/
structure Task where
  nextExecutionTime : ℤ
  isUserClock : Bool

/-- `TaskQueue`. -/
structure TaskQueue where
  tasks : ℕ → Task
  queue : List (Option ℕ)
  size : ℕ
  userClockTaskCount : ℤ

/-- A new queue. -/
def TaskQueue.new (tasks : ℕ → Task) : TaskQueue := ⟨tasks, List.replicate 4 none, 0, 0⟩

/-- The task at a position, where there should be one. -/
def TaskQueue.get (q : TaskQueue) (k : ℕ) : Option ℕ := q.queue[k]?.join

/-- `queue[k].nextExecutionTime`. -/
def TaskQueue.time (q : TaskQueue) (k : ℕ) : Option ℤ :=
  (q.get k).map fun task => (q.tasks task).nextExecutionTime

/-- `queue[k] = task`. -/
def TaskQueue.set (q : TaskQueue) (k : ℕ) (task : Option ℕ) : Option TaskQueue :=
  if k < q.queue.length then some { q with queue := q.queue.set k task } else none

/-- The fields of a task are written. -/
def TaskQueue.setTask (q : TaskQueue) (task : ℕ) (fields : Task) : TaskQueue :=
  { q with tasks := Function.update q.tasks task fields }

/-- `TimerTask tmp = queue[j];  queue[j] = queue[k]; queue[k] = tmp;` -/
def TaskQueue.swap (q : TaskQueue) (j k : ℕ) : Option TaskQueue := do
  let tmp ← q.queue[j]?
  let task ← q.queue[k]?
  let q ← q.set j task
  q.set k tmp

/-- The loop of `fixUp`, which does not finish without fuel. -/
def TaskQueue.fixUpLoop : (fuel : ℕ) → (q : TaskQueue) → (k : ℕ) → Option TaskQueue
  | 0, _, _ => none
  | fuel + 1, q, k =>
    if k > 1 then do
      let parent ← q.time (k / 2)
      let own ← q.time k
      if parent ≤ own then some q
      else do
        let q ← q.swap (k / 2) k
        fixUpLoop fuel q (k / 2)
    else some q

/-- `fixUp`. -/
def TaskQueue.fixUp (q : TaskQueue) (k : ℕ) : Option TaskQueue := q.fixUpLoop (k + 1) k

/-- The smallest kid of `k`, of which the first one is at `j`. -/
def TaskQueue.smallestKid (q : TaskQueue) (j : ℕ) : Option ℕ :=
  if j < q.size then do
    let left ← q.time j
    let right ← q.time (j + 1)
    some (if left > right then j + 1 else j)
  else some j

/-- The loop of `fixDown`, which does not finish without fuel. -/
def TaskQueue.fixDownLoop : (fuel : ℕ) → (q : TaskQueue) → (k : ℕ) → Option TaskQueue
  | 0, _, _ => none
  | fuel + 1, q, k =>
    if 2 * k ≤ q.size then do
      let j ← q.smallestKid (2 * k)
      let own ← q.time k
      let kid ← q.time j
      if own ≤ kid then some q
      else do
        let q ← q.swap k j
        fixDownLoop fuel q j
    else some q

/-- `fixDown`. -/
def TaskQueue.fixDown (q : TaskQueue) (k : ℕ) : Option TaskQueue := q.fixDownLoop (q.size + 1) k

/-- The start of `add`: `++size`, and a longer array when the memory grants it. -/
def TaskQueue.grow (q : TaskQueue) (granted : Bool) : Option TaskQueue :=
  let q := { q with size := q.size + 1 }
  if q.size = q.queue.length then
    if granted then
      some { q with
        queue := q.queue.take q.size ++ List.replicate (2 * q.queue.length - q.size) none }
    else none
  else some q

/-- `userClockTaskAdded`, of a task of the user clock. -/
def TaskQueue.userClockTaskAdded (q : TaskQueue) (isUserClock : Bool) : TaskQueue :=
  if isUserClock then { q with userClockTaskCount := q.userClockTaskCount + 1 } else q

/-- `userClockTaskRemoved`, of a task of the user clock. -/
def TaskQueue.userClockTaskRemoved (q : TaskQueue) (isUserClock : Bool) : TaskQueue :=
  if isUserClock then { q with userClockTaskCount := q.userClockTaskCount - 1 } else q

/-- `add`. -/
def TaskQueue.add (q : TaskQueue) (granted : Bool) (task : ℕ) : Option TaskQueue := do
  let q ← q.grow granted
  let q ← q.set q.size (some task)
  let q ← q.fixUp q.size
  some (q.userClockTaskAdded (q.tasks task).isUserClock)

/-- `removeMin`. -/
def TaskQueue.removeMin (q : TaskQueue) : Option TaskQueue := do
  let task ← q.queue[1]?
  let last ← q.queue[q.size]?
  let q ← q.set 1 last
  let q ← q.set q.size none
  let q ← { q with size := q.size - 1 }.fixDown 1
  let task ← task
  some (q.userClockTaskRemoved (q.tasks task).isUserClock)

/-- `rescheduleMin`. -/
def TaskQueue.rescheduleMin (q : TaskQueue) (newTime : ℤ) : Option TaskQueue := do
  let task ← q.get 1
  let q ← (q.setTask task { q.tasks task with nextExecutionTime := newTime }).fixDown 1
  if (q.tasks task).isUserClock then
    some ((q.setTask task { q.tasks task with isUserClock := false }).userClockTaskRemoved true)
  else some q

/-- The loop of `clear` at the positions from `i` on. -/
def TaskQueue.clearFrom : (count : ℕ) → (i : ℕ) → (q : TaskQueue) → Option TaskQueue
  | 0, _, q => some q
  | count + 1, i, q => do
    let q ← q.set i none
    clearFrom count (i + 1) q

/-- `clear`. -/
def TaskQueue.clear (q : TaskQueue) : Option TaskQueue := do
  let q ← q.clearFrom q.size 1
  some { q with
    size := 0
    userClockTaskCount := 0 }

/-- `task.nextExecutionTime -= userClockSkew` for the task at position `i`, if it follows the user
clock, before the heap is fixed there. -/
def TaskQueue.shift (q : TaskQueue) (userClockSkew : ℤ) (i : ℕ)
    (fix : TaskQueue → ℕ → Option TaskQueue) : Option TaskQueue :=
  match q.queue[i]? with
  | none => none
  | some none => some q
  | some (some task) =>
    let fields := q.tasks task
    if fields.isUserClock then
      fix (q.setTask task { fields with
        nextExecutionTime := jlong (fields.nextExecutionTime - userClockSkew) }) i
    else some q

/-- The loop of `checkUserClockChange` for a negative skew, at the positions from `i` on. -/
def TaskQueue.shiftUp (userClockSkew : ℤ) : (count : ℕ) → (i : ℕ) → TaskQueue → Option TaskQueue
  | 0, _, q => some q
  | count + 1, i, q => do
    let q ← q.shift userClockSkew i TaskQueue.fixUp
    shiftUp userClockSkew count (i + 1) q

/-- The loop of `checkUserClockChange` for a positive skew, at the positions from `i` down. -/
def TaskQueue.shiftDown (userClockSkew : ℤ) : (i : ℕ) → TaskQueue → Option TaskQueue
  | 0, q => some q
  | i + 1, q => do
    let q ← q.shift userClockSkew (i + 1) TaskQueue.fixDown
    shiftDown userClockSkew i q

/-- `checkUserClockChange`, when `Timer.userClockSkew()` is `userClockSkew`. -/
def TaskQueue.checkUserClockChange (q : TaskQueue) (userClockSkew : ℤ) : Option TaskQueue :=
  if ¬ q.userClockTaskCount > 0 then some q
  else if userClockSkew = 0 then some q
  else if userClockSkew < 0 then q.shiftUp userClockSkew q.size 1
  else q.shiftDown userClockSkew q.size

/-- The operations. `Timer.sched` writes the fields of a task before it adds the task. -/
inductive Op
  | add (task : ℕ) (fields : Task) (granted : Bool)
  | removeMin
  | rescheduleMin (newTime : ℤ)
  | clear
  | checkUserClockChange (userClockSkew : ℤ)

/-- An operation is done. -/
def TaskQueue.execute (q : TaskQueue) : Op → Option TaskQueue
  | .add task fields granted => (q.setTask task fields).add granted task
  | .removeMin => q.removeMin
  | .rescheduleMin newTime => q.rescheduleMin newTime
  | .clear => q.clear
  | .checkUserClockChange userClockSkew => q.checkUserClockChange userClockSkew

end CldcVm.TimerQueue
