import Mathlib.Data.Fintype.BigOperators
import Mathlib.Algebra.Order.BigOperators.Group.Finset

/-!
# Memory accounting of tasks

Model of the accounting of `ObjectHeap.{hpp,cpp}` with `ENABLE_ISOLATES` and
`ENABLE_COMPILER`: the boundary objects that separate the allocations of the tasks, the
estimate of each task, the deficit of reserved memory and the memory that is available to the
current task. Addresses and sizes are byte counts in one heap, and a reserve is a `jint` that
is not negative (`Isolate.setMemoryQuota`), so that the differences of the source are exact.

A collection is described by the layout of the heap that it leaves, before the epilogue of
`internal_collect` counts the memory of the tasks again.
-/

namespace CldcVm.Memory

/-- `sizeof(BoundaryDesc)`. -/
def boundarySize : ℕ := 8

/-- `BoundaryDesc`: the objects above it belong to its owner, up to the next one. -/
structure Boundary (n : ℕ) where
  address : ℕ
  owner : Fin n
deriving DecidableEq

/-- `TaskMemoryInfo`. -/
structure TaskMemoryInfo where
  reserve : ℕ
  limit : ℕ
  usage : ℕ
  estimate : ℕ
deriving DecidableEq

namespace TaskMemoryInfo

/-- `reset` (lines 279–287): the limit is `max_jint`. -/
def reset : TaskMemoryInfo := ⟨0, 2 ^ 31 - 1, 0, 0⟩

/-- `unused` (lines 289–291). -/
def unused (info : TaskMemoryInfo) : ℤ := info.reserve - info.estimate

end TaskMemoryInfo

/-- The areas of the heap. -/
structure Layout (n : ℕ) where
  heapStart : ℕ
  oldGenerationEnd : ℕ
  youngGenerationStart : ℕ
  inlineAllocationTop : ℕ
  realInlineAllocationEnd : ℕ
  compilerAreaStart : ℕ
  compilerAreaFree : ℕ
  /-- The boundary objects, from the highest address down. -/
  boundaryList : List (Boundary n)

/-- The part of `ObjectHeap` that the accounting reads and writes, for `n` tasks. -/
structure ObjectHeap (n : ℕ) extends Layout n where
  currentTaskId : Fin n
  previousTaskId : Fin n
  taskInfo : Fin n → TaskMemoryInfo
  reservedMemoryDeficit : ℤ
  currentDeficit : ℤ
  taskAllocationStart : ℕ
  /-- `none` is the trap that `on_task_switch` sets. -/
  inlineAllocationEnd : Option ℕ

/-- What a collection leaves, before the memory of the tasks is counted. -/
structure Collection (n : ℕ) where
  layout : Layout n
  previousTaskId : Fin n
  isFullCollect : Bool
  reuseYoungGeneration : Bool
  /-- `old_generation_end`: the end of the old generation before the survivors moved there. -/
  oldGenerationEnd : ℕ
  /-- The heap that the binary images of each task use. -/
  imagesUsed : Fin n → ℕ

namespace ObjectHeap

variable {n : ℕ}

/-- The heap as `create` leaves it (lines 1775–1787), empty from `heapStart` on. -/
def create (system : Fin n) (heapStart compilerAreaStart compilerAreaFree : ℕ) :
    ObjectHeap n where
  heapStart := heapStart
  oldGenerationEnd := heapStart
  youngGenerationStart := heapStart
  inlineAllocationTop := heapStart
  realInlineAllocationEnd := compilerAreaStart
  compilerAreaStart := compilerAreaStart
  compilerAreaFree := compilerAreaFree
  boundaryList := []
  currentTaskId := system
  previousTaskId := system
  taskInfo := fun _ => .reset
  reservedMemoryDeficit := 0
  currentDeficit := 0
  taskAllocationStart := heapStart
  inlineAllocationEnd := some compilerAreaStart

variable (heap : ObjectHeap n)

/-- A write to one entry of `_task_info`. -/
def setInfo (task : Fin n) (info : TaskMemoryInfo) : ObjectHeap n :=
  { heap with taskInfo := Function.update heap.taskInfo task info }

/-- `free_memory`. -/
def freeMemory : ℤ :=
  ((heap.youngGenerationStart : ℤ) - heap.oldGenerationEnd) +
    (heap.compilerAreaStart - heap.inlineAllocationTop)

/-- `available_for_current_task` (`ObjectHeap.hpp`, lines 491–515). -/
def availableForCurrentTask : ℤ :=
  let info := heap.taskInfo heap.currentTaskId
  let available := heap.freeMemory + heap.compilerAreaFree - heap.reservedMemoryDeficit
  let available := if info.unused > 0 then available + info.unused else available
  let unused : ℤ := info.limit - info.estimate
  if unused < available then unused else available

/-- `current_task_allocation_end` (lines 414–430). -/
def currentTaskAllocationEnd : ℤ :=
  let available := heap.availableForCurrentTask / 4 * 4
  let allocationEnd := heap.inlineAllocationTop + available
  if heap.realInlineAllocationEnd < allocationEnd then heap.realInlineAllocationEnd
  else allocationEnd

/-! ## Counting -/

/-- The bytes that a task has allocated are added to its estimate. -/
def addEstimate (info : Fin n → TaskMemoryInfo) (task : Fin n) (size : ℕ) :
    Fin n → TaskMemoryInfo :=
  Function.update info task { info task with estimate := (info task).estimate + size }

/-- A boundary object is not needed where the memory below it has the same owner as the one
above it, or where another one stands directly below it. -/
def isRedundant (previousId : Fin n) (p : Boundary n) (rest : List (Boundary n)) : Bool :=
  previousId = p.owner || rest.head?.any fun next => next.address + boundarySize = p.address

/-- The first loop of `accumulate_memory_usage` (lines 338–349), which removes the redundant
boundary objects from `upb` on: what it keeps, the owner below, and what is left. -/
def optimizeFrom (upb : ℕ) (previousId : Fin n) :
    List (Boundary n) → List (Boundary n) × Fin n × List (Boundary n)
  | [] => ([], previousId, [])
  | p :: rest =>
    if p.address ≥ upb then
      if isRedundant previousId p rest then optimizeFrom upb previousId rest
      else
        let (kept, id, rest) := optimizeFrom upb p.owner rest
        (p :: kept, id, rest)
    else ([], previousId, p :: rest)

/-- The second loop (lines 351–364) and what follows it (line 366): every task is charged the
distance from each of its boundary objects to the next one, down to `lwb`. -/
def chargeDownTo (lwb : ℕ) (upb : ℕ) (previousId : Fin n) (info : Fin n → TaskMemoryInfo) :
    List (Boundary n) → List (Boundary n) × (Fin n → TaskMemoryInfo)
  | [] => ([], addEstimate info previousId (upb - lwb))
  | p :: rest =>
    if p.address > lwb then
      let info := addEstimate info previousId (upb - (p.address + boundarySize))
      if isRedundant previousId p rest then chargeDownTo lwb p.address previousId info rest
      else
        let (kept, info) := chargeDownTo lwb p.address p.owner info rest
        (p :: kept, info)
    else (p :: rest, addEstimate info previousId (upb - lwb))

/-- The sum that `accumulate_memory_usage` makes (lines 369–376). -/
def sumUnused (info : Fin n → TaskMemoryInfo) : ℤ :=
  (List.finRange n).foldl
    (fun s task => if (info task).unused > 0 then s + (info task).unused else s) 0

/-- `accumulate_memory_usage` (lines 328–378). -/
def accumulateMemoryUsage (lwb upb : ℕ) : ObjectHeap n :=
  let (kept, previousId, rest) := optimizeFrom upb heap.previousTaskId heap.boundaryList
  let (charged, info) := chargeDownTo lwb upb previousId heap.taskInfo rest
  { heap with
    boundaryList := kept ++ charged
    taskInfo := info
    reservedMemoryDeficit := sumUnused info }

/-- `accumulate_current_task_memory_usage` (lines 380–412). -/
def accumulateCurrentTask : ObjectHeap n :=
  let info := heap.taskInfo heap.currentTaskId
  let deficit := heap.reservedMemoryDeficit
  let deficit := if info.unused > 0 then deficit - info.unused else deficit
  let info :=
    { info with
      estimate := info.estimate + (heap.inlineAllocationTop - heap.taskAllocationStart) }
  let deficit := if info.unused > 0 then deficit + info.unused else deficit
  { heap.setInfo heap.currentTaskId info with
    taskAllocationStart := heap.inlineAllocationTop
    reservedMemoryDeficit := deficit }

/-- `on_task_switch` (lines 432–445). -/
def onTaskSwitch (task : Fin n) : ObjectHeap n :=
  let heap := heap.accumulateCurrentTask
  let heap := { heap with currentTaskId := task }
  { heap with
    inlineAllocationEnd :=
      if heap.previousTaskId ≠ task then none else some heap.currentTaskAllocationEnd.toNat }

/-- `reset_task_memory_usage` (lines 501–511), also the accounting of `on_task_termination`. -/
def resetTaskMemoryUsage (task : Fin n) : ObjectHeap n :=
  let info := heap.taskInfo task
  let deficit :=
    if info.unused > 0 then heap.reservedMemoryDeficit - info.unused
    else heap.reservedMemoryDeficit
  { heap.setInfo task .reset with
    reservedMemoryDeficit := deficit
    currentDeficit := deficit }

/-- `set_task_memory_reserve_limit` (`ObjectHeap.hpp`, lines 824–830). -/
def setTaskMemoryReserveLimit (task : Fin n) (reserve limit : ℕ) : ObjectHeap n :=
  { heap.setInfo task { heap.taskInfo task with limit := limit, reserve := reserve } with
    reservedMemoryDeficit := heap.reservedMemoryDeficit + reserve }

/-- The accounting of `detect_out_of_memory_tasks` (lines 547–585). -/
def detectOutOfMemoryTasks (allocSize : ℕ) : ObjectHeap n :=
  let unused := (heap.taskInfo heap.currentTaskId).unused
  let deficit :=
    if unused > 0 then
      if unused - allocSize > 0 then heap.reservedMemoryDeficit - unused + (unused - allocSize)
      else heap.reservedMemoryDeficit - unused
    else heap.reservedMemoryDeficit
  { heap with currentDeficit := deficit }

/-! ## Allocations and collections -/

/-- The fast path of `allocate` (lines 1449–1536). Where it does not fit the object, the
collection that follows is a step of its own. -/
def allocate (size : ℕ) : ObjectHeap n :=
  let isFirst := heap.currentTaskId ≠ heap.previousTaskId
  let size := if isFirst then size + boundarySize else size
  let inlineEnd := heap.inlineAllocationEnd.getD heap.currentTaskAllocationEnd.toNat
  let heap := { heap with inlineAllocationEnd := some inlineEnd }
  let newTop := heap.inlineAllocationTop + size
  if newTop ≤ inlineEnd then
    if isFirst then
      { heap with
        inlineAllocationTop := newTop
        previousTaskId := heap.currentTaskId
        boundaryList := ⟨heap.inlineAllocationTop, heap.currentTaskId⟩ :: heap.boundaryList }
    else { heap with inlineAllocationTop := newTop }
  else heap

/-- The estimates that the epilogue of `internal_collect` starts with (lines 3899–3927). -/
def initialEstimate (collection : Collection n) (task : Fin n) (info : TaskMemoryInfo) :
    TaskMemoryInfo :=
  if collection.isFullCollect then { info with estimate := collection.imagesUsed task }
  else { info with estimate := info.usage }

/-- The accounting of `internal_collect` (lines 3896–3946), with its words as offsets of four
bytes. -/
def internalCollect (collection : Collection n) : ObjectHeap n :=
  let heap := { heap with
    toLayout := collection.layout
    previousTaskId := collection.previousTaskId
    taskInfo := fun task => initialEstimate collection task (heap.taskInfo task) }
  let heap :=
    if collection.isFullCollect then
      heap.accumulateMemoryUsage (heap.heapStart + 4) heap.inlineAllocationTop
    else heap.accumulateMemoryUsage collection.oldGenerationEnd heap.oldGenerationEnd
  let heap := { heap with
    taskInfo := fun task => { heap.taskInfo task with usage := (heap.taskInfo task).estimate } }
  let heap :=
    if collection.reuseYoungGeneration then
      heap.accumulateMemoryUsage heap.youngGenerationStart heap.inlineAllocationTop
    else heap
  { heap with taskAllocationStart := heap.inlineAllocationTop }

/-- `collect` (lines 3408–3550): the current task is charged, and then the heap is collected
some number of times. -/
def collect (allocSize : ℕ) : List (Collection n) → ObjectHeap n
  | [] => heap.accumulateCurrentTask
  | collection :: collections =>
    collections.foldl
      (fun heap collection => (heap.internalCollect collection).detectOutOfMemoryTasks allocSize)
      ((heap.accumulateCurrentTask.internalCollect collection).detectOutOfMemoryTasks allocSize)

/-- The simulated allocation of a reserve, in the name of the task (lines 522–540). -/
def simulateReserve (task : Fin n) (reserve : ℕ) (collections : List (Collection n)) :
    ObjectHeap n :=
  let currentTaskId := heap.currentTaskId
  let heap := { heap with currentTaskId := task }
  let heap := heap.collect reserve collections
  { heap with
    currentTaskId := currentTaskId
    currentDeficit := heap.reservedMemoryDeficit }

/-- The choice of `set_task_memory_quota` (lines 515–521). -/
def needsCollection (reserve zeroWeightSpace : ℕ) : Prop :=
  let avail := heap.freeMemory - heap.reservedMemoryDeficit - reserve
  avail < 0 ∧ zeroWeightSpace + avail < 0

instance (reserve zeroWeightSpace : ℕ) : Decidable (heap.needsCollection reserve zeroWeightSpace) :=
  inferInstanceAs (Decidable (_ ∧ _))

/-- `set_task_memory_quota` (lines 513–545). `threw` is whether the collections could not free
the reserve. -/
def setTaskMemoryQuota (task : Fin n) (reserve limit zeroWeightSpace : ℕ)
    (collections : List (Collection n)) (threw : Bool) : ObjectHeap n :=
  if heap.needsCollection reserve zeroWeightSpace then
    let heap := heap.simulateReserve task reserve collections
    if threw then heap else heap.setTaskMemoryReserveLimit task reserve limit
  else heap.setTaskMemoryReserveLimit task reserve limit

end ObjectHeap

/-! ## Runs -/

/-- What can happen to the memory of the tasks. -/
inductive Op (n : ℕ)
  | allocate (size : ℕ)
  | accumulate
  | collect (allocSize : ℕ) (collections : List (Collection n))
  | switchTask (task : Fin n)
  | resetTask (task : Fin n)
  | setReserveLimit (task : Fin n) (reserve limit : ℕ)
  | setQuota (task : Fin n) (reserve limit zeroWeightSpace : ℕ)
      (collections : List (Collection n)) (threw : Bool)

namespace ObjectHeap

variable {n : ℕ}

/-- One step. -/
def step (heap : ObjectHeap n) : Op n → ObjectHeap n
  | .allocate size => heap.allocate size
  | .accumulate => heap.accumulateCurrentTask
  | .collect allocSize collections => heap.collect allocSize collections
  | .switchTask task => heap.onTaskSwitch task
  | .resetTask task => heap.resetTaskMemoryUsage task
  | .setReserveLimit task reserve limit => heap.setTaskMemoryReserveLimit task reserve limit
  | .setQuota task reserve limit zeroWeightSpace collections threw =>
    heap.setTaskMemoryQuota task reserve limit zeroWeightSpace collections threw

/-- The steps of a run. -/
def run (heap : ObjectHeap n) (ops : List (Op n)) : ObjectHeap n := ops.foldl step heap

end ObjectHeap

end CldcVm.Memory
