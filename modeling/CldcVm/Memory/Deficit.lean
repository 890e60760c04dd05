import CldcVm.Memory.TaskMemory
import Mathlib.Algebra.BigOperators.Fin

/-!
# The deficit of reserved memory

`total` is what the deficit is meant to be: the sum, over the tasks, of the part of the reserve
that the estimated usage leaves. `surplus` is what the deficit has over it.

Results:

* `accounted_iff`: the deficit is right after every step of a run exactly when every reserve is
  set for a task that has no part of an old reserve left, and that uses no memory or reserves
  none.
-/

namespace CldcVm.Memory

open Finset

/-- The part of the reserve that is not used. -/
def TaskMemoryInfo.excess (info : TaskMemoryInfo) : ℤ := max 0 ((info.reserve : ℤ) - info.estimate)

@[simp] theorem TaskMemoryInfo.excess_reset : TaskMemoryInfo.reset.excess = 0 := rfl

theorem ite_unused_sub (info : TaskMemoryInfo) (x : ℤ) :
    (if info.unused > 0 then x - info.unused else x) = x - info.excess := by
  unfold TaskMemoryInfo.excess TaskMemoryInfo.unused
  split <;> omega

theorem ite_unused_add (info : TaskMemoryInfo) (x : ℤ) :
    (if info.unused > 0 then x + info.unused else x) = x + info.excess := by
  unfold TaskMemoryInfo.excess TaskMemoryInfo.unused
  split <;> omega

variable {n : ℕ}

/-- The sum over all tasks. -/
def totalExcess (info : Fin n → TaskMemoryInfo) : ℤ := ∑ task, (info task).excess

theorem totalExcess_update (info : Fin n → TaskMemoryInfo) (task : Fin n) (new : TaskMemoryInfo) :
    totalExcess (Function.update info task new) =
      totalExcess info - (info task).excess + new.excess := by
  have hrest : ∑ t ∈ univ.erase task, (Function.update info task new t).excess =
      ∑ t ∈ univ.erase task, (info t).excess := by
    apply sum_congr rfl
    intro t ht
    rw [Function.update_of_ne (ne_of_mem_erase ht)]
  unfold totalExcess
  rw [← add_sum_erase _ _ (mem_univ task), hrest, Function.update_self,
    ← add_sum_erase univ (fun t => (info t).excess) (mem_univ task)]
  omega

theorem sumUnused_eq (info : Fin n → TaskMemoryInfo) :
    ObjectHeap.sumUnused info = totalExcess info := by
  have hfold : ∀ (tasks : List (Fin n)) (s : ℤ),
      tasks.foldl (fun s task => if (info task).unused > 0 then s + (info task).unused else s) s =
        s + (tasks.map fun task => (info task).excess).sum := by
    intro tasks
    induction tasks with
    | nil => simp
    | cons task tasks ih =>
      intro s
      rw [List.foldl_cons, ih, ite_unused_add, List.map_cons, List.sum_cons, add_assoc]
  rw [ObjectHeap.sumUnused, hfold, zero_add, totalExcess, Fin.sum_univ_def]

namespace ObjectHeap

variable (heap : ObjectHeap n)

/-- What the deficit has over the sum. -/
def surplus : ℤ := heap.reservedMemoryDeficit - totalExcess heap.taskInfo

/-! ## Steps -/

@[simp] theorem surplus_create (system : Fin n) (heapStart compilerAreaStart free : ℕ) :
    (create system heapStart compilerAreaStart free).surplus = 0 := by
  simp [surplus, create, totalExcess]

@[simp] theorem surplus_allocate (size : ℕ) : (heap.allocate size).surplus = heap.surplus := by
  unfold allocate
  simp only
  split_ifs <;> rfl

@[simp] theorem surplus_accumulateCurrentTask :
    heap.accumulateCurrentTask.surplus = heap.surplus := by
  unfold accumulateCurrentTask surplus setInfo
  simp only
  rw [totalExcess_update, ite_unused_sub, ite_unused_add]
  omega

@[simp] theorem surplus_onTaskSwitch (task : Fin n) :
    (heap.onTaskSwitch task).surplus = heap.surplus :=
  heap.surplus_accumulateCurrentTask

@[simp] theorem surplus_resetTaskMemoryUsage (task : Fin n) :
    (heap.resetTaskMemoryUsage task).surplus = heap.surplus := by
  unfold resetTaskMemoryUsage surplus setInfo
  simp only
  rw [totalExcess_update, ite_unused_sub, TaskMemoryInfo.excess_reset]
  omega

@[simp] theorem surplus_accumulateMemoryUsage (lwb upb : ℕ) :
    (heap.accumulateMemoryUsage lwb upb).surplus = 0 := by
  unfold accumulateMemoryUsage surplus
  simp only
  rw [sumUnused_eq, sub_self]

theorem surplus_setUsage (usage : Fin n → ℕ) :
    { heap with taskInfo := fun task => { heap.taskInfo task with usage := usage task } }.surplus =
      heap.surplus := rfl

@[simp] theorem surplus_internalCollect (collection : Collection n) :
    (heap.internalCollect collection).surplus = 0 := by
  unfold internalCollect
  simp only
  split_ifs
  · exact surplus_accumulateMemoryUsage _ _ _
  · exact surplus_accumulateMemoryUsage _ _ _
  · exact (surplus_setUsage _ _).trans (surplus_accumulateMemoryUsage _ _ _)
  · exact (surplus_setUsage _ _).trans (surplus_accumulateMemoryUsage _ _ _)

@[simp] theorem surplus_detectOutOfMemoryTasks (allocSize : ℕ) :
    (heap.detectOutOfMemoryTasks allocSize).surplus = heap.surplus := rfl

theorem surplus_collect (allocSize : ℕ) (collections : List (Collection n)) :
    (heap.collect allocSize collections).surplus =
      if collections = [] then heap.surplus else 0 := by
  cases collections with
  | nil => simp [collect]
  | cons collection collections =>
    rw [if_neg (by simp), collect]
    have hzero : ((heap.accumulateCurrentTask.internalCollect collection).detectOutOfMemoryTasks
        allocSize).surplus = 0 := by simp
    generalize (heap.accumulateCurrentTask.internalCollect collection).detectOutOfMemoryTasks
      allocSize = first at hzero
    induction collections generalizing first with
    | nil => exact hzero
    | cons next rest ih => exact ih _ (by simp)

/-- What `set_task_memory_reserve_limit` adds too much. -/
def overcount (task : Fin n) (reserve : ℕ) : ℤ :=
  reserve + (heap.taskInfo task).excess - max 0 ((reserve : ℤ) - (heap.taskInfo task).estimate)

theorem surplus_setTaskMemoryReserveLimit (task : Fin n) (reserve limit : ℕ) :
    (heap.setTaskMemoryReserveLimit task reserve limit).surplus =
      heap.surplus + heap.overcount task reserve := by
  unfold setTaskMemoryReserveLimit surplus setInfo overcount
  simp only
  rw [totalExcess_update]
  simp only [TaskMemoryInfo.excess]
  omega

/-- When a reserve is set right: nothing is left of an old one, and the task uses no memory or
reserves none. -/
def ReserveOk (task : Fin n) (reserve : ℕ) : Prop :=
  (heap.taskInfo task).reserve ≤ (heap.taskInfo task).estimate ∧
    (reserve = 0 ∨ (heap.taskInfo task).estimate = 0)

theorem overcount_eq_zero_iff (task : Fin n) (reserve : ℕ) :
    heap.overcount task reserve = 0 ↔ heap.ReserveOk task reserve := by
  unfold overcount ReserveOk TaskMemoryInfo.excess
  omega

/-- The state in which a step sets a reserve, with the task and the reserve. -/
def setsReserve : Op n → Option (ObjectHeap n × Fin n × ℕ)
  | .setReserveLimit task reserve _ => some (heap, task, reserve)
  | .setQuota task reserve _ zeroWeightSpace collections threw =>
    if heap.needsCollection reserve zeroWeightSpace then
      if threw then none else some (heap.simulateReserve task reserve collections, task, reserve)
    else some (heap, task, reserve)
  | _ => none

/-- A step is right unless it sets a reserve for a task that has memory or a reserve. -/
def StepOk (op : Op n) : Prop :=
  ∀ before task reserve, heap.setsReserve op = some (before, task, reserve) →
    before.ReserveOk task reserve

theorem surplus_simulateReserve (task : Fin n) (reserve : ℕ) (collections : List (Collection n)) :
    (heap.simulateReserve task reserve collections).surplus = heap.surplus ∨
      (heap.simulateReserve task reserve collections).surplus = 0 := by
  have h := surplus_collect { heap with currentTaskId := task } reserve collections
  split_ifs at h
  · exact .inl h
  · exact .inr h

/-- **Step lemma**: a step that sets no reserve. -/
theorem surplus_step {op : Op n} (h : heap.setsReserve op = none) :
    (heap.step op).surplus = heap.surplus ∨ (heap.step op).surplus = 0 := by
  cases op with
  | allocate size => exact .inl (heap.surplus_allocate size)
  | accumulate => exact .inl heap.surplus_accumulateCurrentTask
  | collect allocSize collections =>
    rw [step, surplus_collect]
    split_ifs
    · exact .inl rfl
    · exact .inr rfl
  | switchTask task => exact .inl (heap.surplus_onTaskSwitch task)
  | resetTask task => exact .inl (heap.surplus_resetTaskMemoryUsage task)
  | setReserveLimit task reserve limit => exact absurd h (by simp [setsReserve])
  | setQuota task reserve limit zeroWeightSpace collections threw =>
    rw [setsReserve] at h
    split_ifs at h with hneeds hthrew
    rw [step, setTaskMemoryQuota, if_pos hneeds]
    simp only [hthrew, if_true]
    exact heap.surplus_simulateReserve task reserve collections

/-- **Step lemma**: a step that sets a reserve. -/
theorem surplus_step_of_sets {op : Op n} {before : ObjectHeap n} {task : Fin n} {reserve : ℕ}
    (h : heap.setsReserve op = some (before, task, reserve)) :
    (heap.step op).surplus = before.surplus + before.overcount task reserve ∧
      (before.surplus = heap.surplus ∨ before.surplus = 0) := by
  cases op with
  | setReserveLimit t r limit =>
    obtain ⟨rfl, rfl, rfl⟩ : heap = before ∧ t = task ∧ r = reserve := by
      simpa [setsReserve] using h
    exact ⟨heap.surplus_setTaskMemoryReserveLimit _ _ limit, .inl rfl⟩
  | setQuota task reserve limit zeroWeightSpace collections threw =>
    rw [setsReserve] at h
    rw [step, setTaskMemoryQuota]
    split_ifs at h with hneeds hthrew
    · obtain ⟨rfl, rfl, rfl⟩ : heap.simulateReserve task reserve collections = before ∧
          _ = _ ∧ _ = _ := by simpa using h
      rw [if_pos hneeds]
      simp only [hthrew]
      exact ⟨surplus_setTaskMemoryReserveLimit _ _ _ limit,
        heap.surplus_simulateReserve _ _ collections⟩
    · obtain ⟨rfl, rfl, rfl⟩ : heap = before ∧ _ = _ ∧ _ = _ := by simpa using h
      rw [if_neg hneeds]
      exact ⟨heap.surplus_setTaskMemoryReserveLimit _ _ limit, .inl rfl⟩
  | allocate | accumulate | collect | switchTask | resetTask =>
    exact absurd h (by simp [setsReserve])

/-- From a state in which the deficit is right, exactly the steps that are right keep it so. -/
theorem surplus_step_eq_zero_iff (h : heap.surplus = 0) (op : Op n) :
    (heap.step op).surplus = 0 ↔ heap.StepOk op := by
  unfold StepOk
  cases hsets : heap.setsReserve op with
  | none =>
    have := heap.surplus_step hsets
    simp only [reduceCtorEq, false_implies, implies_true, iff_true]
    omega
  | some sets =>
    obtain ⟨before, task, reserve⟩ := sets
    obtain ⟨hstep, hbefore⟩ := heap.surplus_step_of_sets hsets
    have hzero : (heap.step op).surplus = 0 ↔ before.overcount task reserve = 0 := by omega
    rw [hzero, overcount_eq_zero_iff]
    constructor
    · rintro hok _ _ _ heq
      obtain ⟨rfl, rfl, rfl⟩ : before = _ ∧ task = _ ∧ reserve = _ := by simpa using heq
      exact hok
    · intro hok
      exact hok before task reserve rfl

/-! ## The available memory -/

/-- What the reserves of the other tasks leave. -/
def leftByOthers : ℤ :=
  heap.freeMemory + heap.compilerAreaFree -
    ∑ task ∈ univ.erase heap.currentTaskId, (heap.taskInfo task).excess

theorem availableForCurrentTask_le :
    heap.availableForCurrentTask ≤ heap.leftByOthers - heap.surplus := by
  have htotal := add_sum_erase univ (fun task => (heap.taskInfo task).excess)
    (mem_univ heap.currentTaskId)
  unfold availableForCurrentTask leftByOthers surplus totalExcess
  simp only [ite_unused_add]
  split_ifs <;> omega

/-! ## Runs -/

/-- The accounting is right: the deficit is the sum, and the available memory is at most what
the other reserves leave. -/
def Accounted : Prop :=
  heap.reservedMemoryDeficit = ∑ task, max 0 (((heap.taskInfo task).reserve : ℤ) -
    (heap.taskInfo task).estimate) ∧
  heap.availableForCurrentTask ≤ heap.leftByOthers

theorem accounted_iff_surplus : heap.Accounted ↔ heap.surplus = 0 := by
  have hle := heap.availableForCurrentTask_le
  constructor
  · rintro ⟨hdeficit, -⟩
    rw [surplus, hdeficit]
    exact sub_self _
  · intro h
    refine ⟨?_, by omega⟩
    exact sub_eq_zero.mp h

/-- Every step of a run is right in the state in which it is made. -/
def RunOk (heap : ObjectHeap n) : List (Op n) → Prop
  | [] => True
  | op :: ops => heap.StepOk op ∧ RunOk (heap.step op) ops

/-- **Run lemma**: from a state in which the deficit is right, it stays so as long as the steps
are right. -/
theorem forall_surplus_run_iff (h : heap.surplus = 0) (ops : List (Op n)) :
    (∀ k, (heap.run (ops.take k)).surplus = 0) ↔ heap.RunOk ops := by
  induction ops generalizing heap with
  | nil => simpa [run, RunOk] using h
  | cons op ops ih =>
    have hstep := heap.surplus_step_eq_zero_iff h op
    rw [RunOk, ← hstep]
    constructor
    · intro hall
      have hfirst : (heap.step op).surplus = 0 := hall 1
      refine ⟨hfirst, (ih _ hfirst).mp ?_⟩
      intro k
      exact hall (k + 1)
    · rintro ⟨hfirst, hrun⟩ k
      cases k with
      | zero => exact h
      | succ k => exact (ih _ hfirst).mpr hrun k

end ObjectHeap

end CldcVm.Memory
