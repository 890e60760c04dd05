import CldcVm.Scheduler.NextRunnable
import Mathlib.Tactic.IntervalCases

/-!
# The next thread to run is the right one

Results:

* `getNextRunnableThread_spec`: nothing is found only where nothing is runnable, and a thread that
  is found is at the head of its queue and has none above it.
-/

namespace CldcVm.Scheduler

open Function (update update_of_ne update_self)

/-! ## What is asked for -/

/-- What holds between calls: a bit is set for the queues that are not empty, the tasks have their
place in the table, and the system task has no threads. -/
structure Consistent (st : State) : Prop where
  valid : ∀ tid task, st.tasks tid = some task → ∀ p, task.priorityQueueValid.getLsbD p = true ↔
    1 ≤ p ∧ p ≤ numPrioritySlots ∧ task.priorityQueue p ≠ []
  last : ∀ tid task, st.tasks tid = some task → task.lastPriorityQueue ≤ numPrioritySlots
  table : ∀ tid task, st.tasks tid = some task → tid < st.maxTasks
  system : ∀ task, st.tasks 0 = some task → ∀ p, task.priorityQueue p = []

/-- All threads in the queues of the task are suspended. -/
def AllSuspended (st : State) (task : Task) : Prop :=
  ∀ p, 1 ≤ p → p ≤ numPrioritySlots → ∀ t ∈ task.priorityQueue p, st.suspended t = true

/-- All threads in the queue are suspended, or its quota is used up. -/
def QueueDone (st : State) (tid : ℕ) (task : Task) (p : ℕ) : Prop :=
  (∀ t ∈ task.priorityQueue p, st.suspended t = true) ∨ st.threadExecuteCounts tid p > p * 2

/-- The thread is at the head of its queue, which has been rotated, and no other queue has changed;
no queue of the task with a higher priority has a thread to run. -/
def RunsNext (st : State) (t : Thread) (st' : State) : Prop :=
  ∃ tid task priority, st.tasks tid = some task ∧ 1 ≤ priority ∧ priority ≤ numPrioritySlots ∧
    t ∈ task.priorityQueue priority ∧ st.suspended t = false ∧
    (∃ task' rest, st'.tasks tid = some task' ∧ task'.priorityQueue priority = t :: rest ∧
      (t :: rest).IsRotated (task.priorityQueue priority) ∧
      ∀ p, p ≠ priority → task'.priorityQueue p = task.priorityQueue p) ∧
    (∀ tid', tid' ≠ tid →
      (st'.tasks tid').map Task.priorityQueue = (st.tasks tid').map Task.priorityQueue) ∧
    ∀ p, priority < p → p ≤ numPrioritySlots → QueueDone st tid task p

/-- What the search promises: nothing only if no task has a thread to run. -/
def Searched (st : State) (r : Option Thread × State) : Prop :=
  match r.1 with
  | none => ∀ tid task, st.tasks tid = some task → AllSuspended st task
  | some t => RunsNext st t r.2

/-! ## One queue -/

variable {st : State} {tid : ℕ} {task : Task} {isYield : Bool} {t : Thread} {q : List Thread}

/-- **Spec lemma**: the threads that are passed are suspended, and the queue is rotated. -/
theorem firstRunnable_spec (suspended : Thread → Bool) (passed l : List Thread) :
    match firstRunnable suspended passed l with
    | none => ∀ t ∈ l, suspended t = true
    | some q => ∃ t rest, q = t :: rest ∧ t ∈ l ∧ suspended t = false ∧
        q.IsRotated (passed ++ l) := by
  induction l generalizing passed with
  | nil => simp [firstRunnable]
  | cons t rest ih =>
    rw [firstRunnable]
    by_cases ht : suspended t = true
    · rw [if_pos ht]
      have hrest := ih (passed ++ [t])
      cases h : firstRunnable suspended (passed ++ [t]) rest with
      | none =>
        rw [h] at hrest
        simpa [ht] using hrest
      | some q =>
        rw [h] at hrest
        obtain ⟨u, rest', hq, hu, hsusp, hrot⟩ := hrest
        refine ⟨u, rest', hq, List.mem_cons_of_mem _ hu, hsusp, ?_⟩
        rwa [List.append_assoc, List.singleton_append] at hrot
    · rw [if_neg ht]
      refine ⟨t, rest ++ passed, rfl, List.mem_cons_self, by simpa using ht, ?_⟩
      exact ⟨(t :: rest).length, by rw [List.cons_append, ← List.cons_append,
        List.rotate_append_length_eq]⟩

theorem startQueue_isRotated (isYield : Bool) (queue : List Thread) :
    (startQueue isYield queue).IsRotated queue := by
  rw [startQueue]
  split
  · exact List.IsRotated.forall queue 1
  · exact List.IsRotated.refl queue

theorem firstRunnable_startQueue (st : State) (isYield : Bool) (queue : List Thread) :
    match firstRunnable st.suspended [] (startQueue isYield queue) with
    | none => ∀ t ∈ queue, st.suspended t = true
    | some q => ∃ t rest, q = t :: rest ∧ t ∈ queue ∧ st.suspended t = false ∧
        q.IsRotated queue := by
  have hspec := firstRunnable_spec st.suspended [] (startQueue isYield queue)
  have hrot := startQueue_isRotated isYield queue
  cases h : firstRunnable st.suspended [] (startQueue isYield queue) with
  | none =>
    rw [h] at hspec
    exact fun t ht => hspec t (hrot.mem_iff.2 ht)
  | some q =>
    rw [h] at hspec
    obtain ⟨t, rest, hq, ht, hsusp, hq'⟩ := hspec
    exact ⟨t, rest, hq, hrot.mem_iff.1 ht, hsusp, hq'.trans hrot⟩

/-! ## One task -/

/-- What the loop over the priorities finds, from `start` down. -/
def FoundSpec (st : State) (tid : ℕ) (task : Task) (start : ℕ) (exceeded : Bool) : Found → Prop
  | .thread p t q => 1 ≤ p ∧ p ≤ start ∧ t ∈ task.priorityQueue p ∧ st.suspended t = false ∧
      (∃ rest, q = t :: rest) ∧ q.IsRotated (task.priorityQueue p) ∧
      ∀ p', p < p' → p' ≤ start → QueueDone st tid task p'
  | .none e => (e = true → exceeded = true ∨ ∃ p, st.threadExecuteCounts tid p > p * 2) ∧
      (e = false → ∀ p, 1 ≤ p → p ≤ start → ∀ t ∈ task.priorityQueue p, st.suspended t = true)

theorem FoundSpec.succ {start : ℕ} {e e' : Bool} {r : Found}
    (h : FoundSpec st tid task start e' r) (hdone : QueueDone st tid task (start + 1))
    (he : e' = true → e = true ∨ ∃ p, st.threadExecuteCounts tid p > p * 2)
    (hnone : e' = false → ∀ t ∈ task.priorityQueue (start + 1), st.suspended t = true)
    (hkeep : e' = true → r ≠ .none false) : FoundSpec st tid task (start + 1) e r := by
  cases r with
  | thread p t q =>
    obtain ⟨h1, hle, ht, hsusp, hq, hrot, hhigher⟩ := h
    refine ⟨h1, by omega, ht, hsusp, hq, hrot, fun p' hp hp' => ?_⟩
    obtain rfl | hlt : p' = start + 1 ∨ p' ≤ start := by omega
    · exact hdone
    · exact hhigher p' hp hlt
  | none e'' =>
    obtain ⟨hexceeded, hall⟩ := h
    refine ⟨fun h => (hexceeded h).elim he .inr, fun h p hp hp' => ?_⟩
    obtain rfl | hlt : p = start + 1 ∨ p ≤ start := by omega
    · refine hnone ?_
      by_contra hne
      exact hkeep (by simpa using hne) (by rw [h])
    · exact hall h p hp hlt

theorem searchPriorities_true (st : State) (tid : ℕ) (task : Task) (isYield : Bool) (start : ℕ) :
    searchPriorities st tid task isYield start true ≠ .none false := by
  induction start with
  | zero => simp [searchPriorities]
  | succ start ih =>
    rw [searchPriorities]
    split
    · exact ih
    · exact ih
    · split
      · exact ih
      · simp

/-- **Run lemma**: the loop over the priorities. -/
theorem searchPriorities_spec (st : State) (tid : ℕ) (task : Task) (isYield : Bool) (start : ℕ)
    (exceeded : Bool) :
    FoundSpec st tid task start exceeded (searchPriorities st tid task isYield start exceeded) := by
  induction start generalizing exceeded with
  | zero => exact ⟨fun h => .inl h, fun _ p hp hp' => by omega⟩
  | succ start ih =>
    have hqueue := firstRunnable_startQueue st isYield (task.priorityQueue (start + 1))
    rw [searchPriorities]
    cases h : firstRunnable st.suspended []
      (startQueue isYield (task.priorityQueue (start + 1))) with
    | none =>
      rw [h] at hqueue
      refine (ih exceeded).succ (.inl hqueue) .inl (fun _ => hqueue) ?_
      rintro rfl
      exact searchPriorities_true st tid task isYield start
    | some q =>
      rw [h] at hqueue
      obtain ⟨t, rest, rfl, ht, hsusp, hrot⟩ := hqueue
      simp only
      by_cases hcount : st.threadExecuteCounts tid (start + 1) > (start + 1) * 2
      · rw [if_pos hcount]
        exact (ih true).succ (.inr hcount) (fun _ => .inr ⟨_, hcount⟩) (fun h => by simp at h)
          fun _ => searchPriorities_true st tid task isYield start
      · rw [if_neg hcount]
        exact ⟨by omega, le_rfl, ht, hsusp, ⟨rest, rfl⟩, hrot, fun p' hp hp' => by omega⟩

variable {start : ℕ}

theorem FoundSpec.of_reset {p : ℕ}
    (h : FoundSpec (st.resetThreadCounts tid) tid task start false (.thread p t q)) :
    FoundSpec st tid task start false (.thread p t q) := by
  obtain ⟨h1, hle, ht, hsusp, hq, hrot, hhigher⟩ := h
  refine ⟨h1, hle, ht, hsusp, hq, hrot, fun p' hp hp' => ?_⟩
  refine .inl ((hhigher p' hp hp').resolve_right ?_)
  simp [State.resetThreadCounts]

/-- What the two attempts find, from `start` down. -/
def TaskSpec (st : State) (tid : ℕ) (task : Task) (start : ℕ) : Outcome → Prop
  | .chosen t st' => ∃ p q, FoundSpec st tid task start false (.thread p t q) ∧
      st'.tasks = (st.choose tid task p t q).tasks
  | .nothing st' => (st' = st ∨ st' = st.resetThreadCounts tid) ∧
      ∀ p, 1 ≤ p → p ≤ start → ∀ t ∈ task.priorityQueue p, st.suspended t = true

/-- **Spec lemma**: the second attempt is made with no quota used up. -/
theorem searchTask_spec (hempty : task.priorityQueueValid = 0 →
    ∀ p, 1 ≤ p → p ≤ start → task.priorityQueue p = []) :
    TaskSpec st tid task start (searchTask tid task isYield start 2 st) := by
  rw [searchTask]
  by_cases hvalid : task.priorityQueueValid = 0
  · rw [if_pos hvalid]
    refine ⟨.inl rfl, fun p h1 hle t ht => ?_⟩
    simp [hempty hvalid p h1 hle] at ht
  rw [if_neg hvalid]
  have hfirst := searchPriorities_spec st tid task isYield start false
  match h : searchPriorities st tid task isYield start false with
  | .thread p t q =>
    rw [h] at hfirst
    exact ⟨p, q, hfirst, rfl⟩
  | .none false =>
    rw [h] at hfirst
    exact ⟨.inl rfl, hfirst.2 rfl⟩
  | .none true =>
    simp only
    rw [searchTask, if_neg hvalid]
    have hsecond :=
      searchPriorities_spec (st.resetThreadCounts tid) tid task isYield start false
    match h' : searchPriorities (st.resetThreadCounts tid) tid task isYield start false with
    | .thread p t q =>
      rw [h'] at hsecond
      exact ⟨p, q, hsecond.of_reset, rfl⟩
    | .none false =>
      rw [h'] at hsecond
      exact ⟨.inr rfl, hsecond.2 rfl⟩
    | .none true =>
      rw [h'] at hsecond
      have hused := hsecond.1 rfl
      simp [State.resetThreadCounts] at hused

/-! ## The change of the state -/

/-- The queues after a thread has been chosen. -/
theorem choose_tasks (st : State) (tid p : ℕ) (htask : st.tasks tid = some task) (tid' : ℕ) :
    ((st.choose tid task p t q).tasks tid').map Task.priorityQueue =
      if tid' = tid then some (update task.priorityQueue p q)
      else (st.tasks tid').map Task.priorityQueue := by
  have hlast : ∀ tid', (update st.tasks (st.taskId t)
      ((st.tasks (st.taskId t)).map fun task => { task with lastPriorityQueue := p }) tid').map
        Task.priorityQueue = (st.tasks tid').map Task.priorityQueue := by
    intro tid'
    by_cases h : tid' = st.taskId t
    · subst h
      rw [update_self, Option.map_map]
      rfl
    · rw [update_of_ne h]
  by_cases h : tid' = tid
  · subst h
    have hqueue := hlast tid'
    rw [htask] at hqueue
    obtain ⟨task', htask', hsame⟩ := Option.map_eq_some_iff.1 hqueue
    simp only [State.choose, update_self]
    rw [htask', if_pos trivial, ← hsame]
    rfl
  · simp only [State.choose]
    rw [update_of_ne h, hlast, if_neg h]

theorem runsNext_of_found {st' : State} {p : ℕ} (htask : st.tasks tid = some task)
    (hfound : FoundSpec st tid task start false (.thread p t q)) (hle : start ≤ numPrioritySlots)
    (hempty : ∀ p, start < p → p ≤ numPrioritySlots → task.priorityQueue p = [])
    (hst' : st'.tasks = (st.choose tid task p t q).tasks) : RunsNext st t st' := by
  obtain ⟨h1, hpstart, ht, hsusp, ⟨rest, rfl⟩, hrot, hhigher⟩ := hfound
  have hqueues : ∀ tid', (st'.tasks tid').map Task.priorityQueue =
      if tid' = tid then some (update task.priorityQueue p (t :: rest))
      else (st.tasks tid').map Task.priorityQueue := by
    intro tid'
    rw [hst']
    exact choose_tasks st tid p htask tid'
  refine ⟨tid, task, p, htask, h1, hpstart.trans hle, ht, hsusp, ?_, ?_, ?_⟩
  · have hthis := hqueues tid
    rw [if_pos rfl] at hthis
    obtain ⟨task', htask', hqueue⟩ := Option.map_eq_some_iff.1 hthis
    refine ⟨task', rest, htask', ?_, hrot, fun p' hp' => ?_⟩
    · rw [hqueue, update_self]
    · rw [hqueue, update_of_ne hp']
  · intro tid' hne
    rw [hqueues, if_neg hne]
  · intro p' hp hp'
    by_cases hlt : p' ≤ start
    · exact hhigher p' hp hlt
    · refine .inl fun u hu => ?_
      simp [hempty p' (by omega) hp'] at hu

/-! ## The starting priority -/

/-- **Spec lemma**: the mask keeps the bits above the last priority. -/
theorem noHigherPriorityThreads_bits {valid : BitVec 32} {last : ℕ} (hlast : last < 31)
    (h : noHigherPriorityThreads valid last = true) (p : ℕ) (hp : last < p) :
    valid.getLsbD p = false := by
  simp only [noHigherPriorityThreads, decide_eq_true_eq] at h
  have hbit := congrArg (fun v => v.getLsbD p) h.2
  simp only [BitVec.getLsbD_and, BitVec.getLsbD_not] at hbit
  have hmask : ((1#32 <<< (last + 1)) - 1).toNat = 2 ^ (last + 1) - 1 := by
    have hpow : 2 ^ (last + 1) < 2 ^ 32 := Nat.pow_lt_pow_right (by omega) (by omega)
    have hpos : 0 < 2 ^ (last + 1) := Nat.two_pow_pos _
    have hshift : (1#32 <<< (last + 1)).toNat = 2 ^ (last + 1) := by
      have hone : (1#32).toNat = 1 := rfl
      rw [BitVec.toNat_shiftLeft, Nat.shiftLeft_eq, hone, one_mul, Nat.mod_eq_of_lt hpow]
    rw [BitVec.toNat_sub_of_le]
    · rw [hshift]
      rfl
    · rw [BitVec.le_def, hshift]
      exact hpos
  have hclear : ((1#32 <<< (last + 1)) - 1).getLsbD p = false := by
    rw [BitVec.getLsbD, hmask, Nat.testBit_two_pow_sub_one, decide_eq_false_iff_not]
    omega
  rw [hclear] at hbit
  by_cases hlt : p < 32
  · simpa [hlt] using hbit
  · exact BitVec.getLsbD_of_ge valid p (by omega)

theorem Consistent.queues_above (hst : Consistent st) (htask : st.tasks tid = some task)
    (h : noHigherPriorityThreads task.priorityQueueValid task.lastPriorityQueue = true) (p : ℕ)
    (hp : task.lastPriorityQueue < p) (hle : p ≤ numPrioritySlots) : task.priorityQueue p = [] := by
  have hlast := hst.last tid task htask
  have hbit := noHigherPriorityThreads_bits (by rw [numPrioritySlots] at hlast; omega) h p hp
  by_contra hne
  rw [(hst.valid tid task htask p).2 ⟨by omega, hle, hne⟩] at hbit
  exact absurd hbit (by simp)

theorem Consistent.queues_of_zero (hst : Consistent st) (htask : st.tasks tid = some task)
    (h : task.priorityQueueValid = 0) (p : ℕ) (h1 : 1 ≤ p) (hle : p ≤ numPrioritySlots) :
    task.priorityQueue p = [] := by
  by_contra hne
  have hbit := (hst.valid tid task htask p).2 ⟨h1, hle, hne⟩
  simp [h] at hbit

/-- The starting priority of one task, in which all threads are suspended, is below a queue of
another one that does not have its own. -/
def CarriesOver (st : State) : Prop :=
  ∃ tid task tid' task' p, st.tasks tid = some task ∧ st.tasks tid' = some task' ∧
    noHigherPriorityThreads task.priorityQueueValid task.lastPriorityQueue = true ∧
    AllSuspended st task ∧
    noHigherPriorityThreads task'.priorityQueueValid task'.lastPriorityQueue = false ∧
    task.lastPriorityQueue < p ∧ p ≤ numPrioritySlots ∧ task'.priorityQueue p ≠ []

/-- What the starting priority is, before a task is looked at. -/
def StartOk (st : State) (start : ℕ) : Prop :=
  start = numPrioritySlots ∨ ∃ tid task, st.tasks tid = some task ∧
    noHigherPriorityThreads task.priorityQueueValid task.lastPriorityQueue = true ∧
    AllSuspended st task ∧ start = task.lastPriorityQueue

theorem startPriority_spec (hst : Consistent st) (hcarries : ¬CarriesOver st)
    (hstart : StartOk st start) (htask : st.tasks tid = some task) :
    task.startPriority start ≤ numPrioritySlots ∧ ∀ p, task.startPriority start < p →
      p ≤ numPrioritySlots → task.priorityQueue p = [] := by
  rw [Task.startPriority]
  by_cases h : noHigherPriorityThreads task.priorityQueueValid task.lastPriorityQueue = true
  · rw [if_pos h]
    exact ⟨hst.last tid task htask, hst.queues_above htask h⟩
  · rw [if_neg h]
    obtain rfl | ⟨tid₀, task₀, htask₀, hno, hall, rfl⟩ := hstart
    · exact ⟨le_rfl, fun p hp hle => by omega⟩
    · refine ⟨hst.last tid₀ task₀ htask₀, fun p hp hle => ?_⟩
      by_contra hne
      exact hcarries ⟨tid₀, task₀, tid, task, p, htask₀, htask, hno, hall, by simpa using h, hp,
        hle, hne⟩

theorem StartOk.next {start : ℕ} (hstart : StartOk st start) (htask : st.tasks tid = some task)
    (hall : AllSuspended st task) : StartOk st (task.startPriority start) := by
  rw [Task.startPriority]
  by_cases h : noHigherPriorityThreads task.priorityQueueValid task.lastPriorityQueue = true
  · rw [if_pos h]
    exact .inr ⟨tid, task, htask, h, hall, rfl⟩
  · rwa [if_neg h]

/-! ## All tasks -/

/-- A state that a search has reached: only counts differ, and those of the threads only for tasks
in which all threads are suspended. -/
structure Later (st₀ st : State) : Prop where
  same : ∃ c d, st = { st₀ with
    threadExecuteCounts := c
    taskExecuteCounts := d }
  counts : ∀ tid, st.threadExecuteCounts tid = st₀.threadExecuteCounts tid ∨
    ∀ task, st₀.tasks tid = some task → AllSuspended st₀ task

theorem Later.refl (st : State) : Later st st := ⟨⟨_, _, rfl⟩, fun _ => .inl rfl⟩

variable {st₀ : State}

theorem Later.tasks_eq (h : Later st₀ st) : st.tasks = st₀.tasks := by
  obtain ⟨⟨c, d, rfl⟩, -⟩ := h
  rfl

theorem Later.suspended_eq (h : Later st₀ st) : st.suspended = st₀.suspended := by
  obtain ⟨⟨c, d, rfl⟩, -⟩ := h
  rfl

theorem Later.visited_eq (h : Later st₀ st) : st.visited = st₀.visited := by
  obtain ⟨⟨c, d, rfl⟩, -⟩ := h
  rfl

theorem Later.resetTaskCounts (h : Later st₀ st) : Later st₀ st.resetTaskCounts := by
  obtain ⟨⟨c, d, rfl⟩, hcounts⟩ := h
  exact ⟨⟨c, fun _ => 0, rfl⟩, hcounts⟩

theorem Later.resetThreadCounts (h : Later st₀ st)
    (hall : ∀ task, st₀.tasks tid = some task → AllSuspended st₀ task) :
    Later st₀ (st.resetThreadCounts tid) := by
  obtain ⟨⟨c, d, rfl⟩, hcounts⟩ := h
  refine ⟨⟨_, d, rfl⟩, fun tid' => ?_⟩
  by_cases htid : tid' = tid
  · subst htid
    exact .inr hall
  · refine (hcounts tid').imp_left fun hsame => ?_
    rw [← hsame]
    simp [State.resetThreadCounts, htid]

theorem Later.found (h : Later st₀ st) (htask : st₀.tasks tid = some task) {p : ℕ}
    (hle : start ≤ numPrioritySlots) (hfound : FoundSpec st tid task start false (.thread p t q)) :
    FoundSpec st₀ tid task start false (.thread p t q) := by
  obtain ⟨h1, hpstart, ht, hsusp, hq, hrot, hhigher⟩ := hfound
  rw [h.suspended_eq] at hsusp
  obtain hsame | hall := h.counts tid
  · refine ⟨h1, hpstart, ht, hsusp, hq, hrot, fun p' hp hp' => ?_⟩
    have hdone := hhigher p' hp hp'
    rwa [QueueDone, h.suspended_eq, hsame] at hdone
  · exact absurd (hall task htask p h1 (hpstart.trans hle) t ht) (by simp [hsusp])

/-- What a pass over the tasks finds. -/
def PassSpec (st₀ : State) (tids : List ℕ) (st : State) (exceeded : Bool) : PassOutcome → Prop
  | .chosen t st' => RunsNext st₀ t st'
  | .nothing st' start' exceeded' => Later st₀ st' ∧ StartOk st₀ start' ∧
      st'.taskExecuteCounts = st.taskExecuteCounts ∧
      (exceeded' = true → exceeded = true ∨ ∃ k, st.taskExecuteCounts k ≠ 0) ∧
      (exceeded' = false → exceeded = false ∧ ∀ tid ∈ tids, ∀ task, st₀.tasks tid = some task →
        AllSuspended st₀ task)

theorem PassSpec.cons {tids : List ℕ} {st₁ : State} {exceeded : Bool} {r : PassOutcome}
    (h : PassSpec st₀ tids st₁ exceeded r) (hcounts : st₁.taskExecuteCounts = st.taskExecuteCounts)
    (hall : ∀ task, st₀.tasks tid = some task → AllSuspended st₀ task) :
    PassSpec st₀ (tid :: tids) st exceeded r := by
  match r with
  | .chosen t st' => exact h
  | .nothing st' start' exceeded' =>
    obtain ⟨hlater, hstart, hsame, hexceeded, hnone⟩ := h
    rw [hcounts] at hsame hexceeded
    refine ⟨hlater, hstart, hsame, hexceeded, fun hfalse => ⟨(hnone hfalse).1, fun u hu => ?_⟩⟩
    obtain rfl | hmem := List.mem_cons.1 hu
    · exact hall
    · exact (hnone hfalse).2 u hmem

/-- **Run lemma**: a pass over the tasks. -/
theorem searchTasks_spec (hst : Consistent st₀) (hcarries : ¬CarriesOver st₀) (isYield : Bool)
    (tids : List ℕ) {st : State} (hlater : Later st₀ st) (hstart : StartOk st₀ start)
    (exceeded : Bool) :
    PassSpec st₀ tids st exceeded (searchTasks isYield tids st start exceeded) := by
  induction tids generalizing st start exceeded with
  | nil => exact ⟨hlater, hstart, rfl, .inl, fun h => ⟨h, fun tid htid => by simp at htid⟩⟩
  | cons tid tids ih =>
    rw [searchTasks]
    by_cases htid : tid = 0
    · rw [if_pos htid]
      subst htid
      refine (ih hlater hstart exceeded).cons rfl fun task htask p _ _ t ht => ?_
      simp [hst.system task htask p] at ht
    rw [if_neg htid, hlater.tasks_eq]
    match htask : st₀.tasks tid with
    | none => exact (ih hlater hstart exceeded).cons rfl fun task h => by simp [htask] at h
    | some task =>
      simp only
      by_cases hquota : st.taskQuotaExceeded task = true
      · rw [if_pos hquota]
        have hrest := ih hlater hstart true
        match h : searchTasks isYield tids st start true with
        | .chosen t st' =>
          rw [h] at hrest
          exact hrest
        | .nothing st' start' exceeded' =>
          rw [h] at hrest
          obtain ⟨hlater', hstart', hsame, -, hnone⟩ := hrest
          refine ⟨hlater', hstart', hsame, fun _ => .inr ⟨task.priority, ?_⟩, fun hfalse => ?_⟩
          · simp only [State.taskQuotaExceeded, decide_eq_true_eq] at hquota
            omega
          · exact absurd (hnone hfalse).1 (by simp)
      rw [if_neg hquota]
      obtain ⟨hle, habove⟩ := startPriority_spec hst hcarries hstart htask
      have hfound : TaskSpec st tid task (task.startPriority start)
          (searchTask tid task isYield (task.startPriority start) 2 st) :=
        searchTask_spec fun h p h1 hp => hst.queues_of_zero htask h p h1 (hp.trans hle)
      match h : searchTask tid task isYield (task.startPriority start) 2 st with
      | .chosen t st' =>
        rw [h] at hfound
        obtain ⟨p, q, hfound, htasks⟩ := hfound
        refine runsNext_of_found htask (hlater.found htask hle hfound) hle habove ?_
        rw [htasks]
        obtain ⟨⟨c, d, rfl⟩, -⟩ := hlater
        rfl
      | .nothing st' =>
        rw [h] at hfound
        obtain ⟨hst', hsusp⟩ := hfound
        have hall : AllSuspended st₀ task := by
          intro p h1 hp t ht
          by_cases hps : p ≤ task.startPriority start
          · rw [← hlater.suspended_eq]
            exact hsusp p h1 hps t ht
          · simp [habove p (by omega) hp] at ht
        have hall' : ∀ task', st₀.tasks tid = some task' → AllSuspended st₀ task' := by
          intro task' htask'
          rw [htask] at htask'
          obtain rfl := Option.some.inj htask'
          exact hall
        have hlater' : Later st₀ st' := by
          obtain rfl | rfl := hst'
          · exact hlater
          · exact hlater.resetThreadCounts hall'
        refine (ih hlater' (hstart.next htask hall) exceeded).cons ?_ hall'
        obtain rfl | rfl := hst' <;> rfl

theorem mem_visited (hst : Consistent st) (htask : st.tasks tid = some task) :
    tid ∈ st.visited := by
  have hlt := hst.table tid task htask
  obtain ⟨k, hk⟩ : ∃ k, k = st.currentTask.getD firstTask + 1 := ⟨_, rfl⟩
  rw [State.visited, ← hk, List.mem_map]
  have hmod := Nat.mod_lt k (by omega : 0 < st.maxTasks)
  by_cases hle : k % st.maxTasks ≤ tid
  · refine ⟨tid - k % st.maxTasks, List.mem_range.2 (by omega), ?_⟩
    rw [← Nat.mod_add_mod, Nat.add_sub_cancel' hle, Nat.mod_eq_of_lt hlt]
  · refine ⟨tid + st.maxTasks - k % st.maxTasks, List.mem_range.2 (by omega), ?_⟩
    rw [← Nat.mod_add_mod, Nat.add_sub_cancel' (by omega), Nat.add_mod_right, Nat.mod_eq_of_lt hlt]

/-- **Main lemma**: the second pass is made with no quota used up. -/
theorem searchPasses_spec (hst : Consistent st) (hcarries : ¬CarriesOver st) (isYield : Bool) :
    match searchPasses isYield 2 st numPrioritySlots with
    | .chosen t st' => RunsNext st t st'
    | .nothing _ => ∀ tid task, st.tasks tid = some task → AllSuspended st task := by
  have hfirst := searchTasks_spec hst hcarries isYield st.visited (Later.refl st)
    (.inl rfl : StartOk st numPrioritySlots) false
  rw [searchPasses]
  match h : searchTasks isYield st.visited st numPrioritySlots false with
  | .chosen t st' =>
    rw [h] at hfirst
    exact hfirst
  | .nothing st' start' false =>
    rw [h] at hfirst
    obtain ⟨-, -, -, -, hnone⟩ := hfirst
    exact fun tid task htask => (hnone rfl).2 tid (mem_visited hst htask) task htask
  | .nothing st' start' true =>
    rw [h] at hfirst
    obtain ⟨hlater, hstart, -, -, -⟩ := hfirst
    have hreset := hlater.resetTaskCounts
    have hsecond := searchTasks_spec hst hcarries isYield st.visited hreset hstart false
    simp only
    rw [searchPasses, hreset.visited_eq]
    match h' : searchTasks isYield st.visited st'.resetTaskCounts start' false with
    | .chosen t st'' =>
      rw [h'] at hsecond
      exact hsecond
    | .nothing st'' start'' false =>
      rw [h'] at hsecond
      obtain ⟨-, -, -, -, hnone⟩ := hsecond
      exact fun tid task htask => (hnone rfl).2 tid (mem_visited hst htask) task htask
    | .nothing st'' start'' true =>
      rw [h'] at hsecond
      obtain ⟨-, -, -, hexceeded, -⟩ := hsecond
      obtain hfalse | ⟨k, hk⟩ := hexceeded rfl
      · simp at hfalse
      · exact absurd rfl hk

/-- **Main theorem**: a thread that is remembered is returned as it is, unless there is a thread to
yield from; else the search finds the right thread, as long as the starting priority of one task
hides no queue of another one. -/
theorem getNextRunnableThread_spec (hst : Consistent st) :
    (∀ t, isYield = false → st.nextRunnableThread = some t →
      getNextRunnableThread isYield st = (some t, st)) ∧
    (isYield = true ∨ st.nextRunnableThread = none → ¬CarriesOver st →
      Searched st (getNextRunnableThread isYield st)) := by
  constructor
  · intro t hyield hnext
    rw [getNextRunnableThread, if_pos ⟨hyield, by rw [hnext]; rfl⟩, hnext]
  · intro hsearch hcarries
    rw [getNextRunnableThread, if_neg ?_]
    · have hpasses := searchPasses_spec hst hcarries isYield
      match h : searchPasses isYield 2 st numPrioritySlots with
      | .chosen t st' =>
        rw [h] at hpasses
        exact hpasses
      | .nothing st' =>
        rw [h] at hpasses
        exact hpasses
    · rintro ⟨hyield, hnext⟩
      obtain hyes | hnone := hsearch
      · simp [hyield] at hyes
      · simp [hnone] at hnext

/-! ## A thread that is remembered -/

/-- A task with a thread of priority 5, which has been chosen before, and one of priority 10, which
has been started since. -/
def startedSince : State where
  maxTasks := 4
  numTasks := 2
  currentTask := some 1
  tasks := fun tid => if tid = 1 then some
    { priority := 2
      priorityQueueValid := 0x420#32
      lastPriorityQueue := 5
      priorityQueue := fun p => if p = 5 then [1] else if p = 10 then [2] else [] } else none
  quota := fun _ => 0
  taskFairScheduling := true
  taskExecuteCounts := fun _ => 0
  threadExecuteCounts := fun _ _ => 0
  debuggerActive := false
  debuggerSuspended := fun _ => false
  taskId := fun _ => 1
  nextRunnableThread := some 1

theorem startedSince_tasks (h : startedSince.tasks tid = some task) : tid = 1 ∧
    task = { priority := 2
             priorityQueueValid := 0x420#32
             lastPriorityQueue := 5
             priorityQueue := fun p => if p = 5 then [1] else if p = 10 then [2] else [] } := by
  rw [startedSince] at h
  simp only at h
  split at h
  · rename_i htid
    exact ⟨htid, (Option.some.inj h).symm⟩
  · simp at h

theorem startedSince_consistent : Consistent startedSince where
  valid := by
    intro tid task h p
    obtain ⟨-, rfl⟩ := startedSince_tasks h
    by_cases hp : p < 32
    · interval_cases p <;> decide
    · rw [BitVec.getLsbD_of_ge _ p (by omega), numPrioritySlots]
      simp only [Bool.false_eq_true, false_iff]
      omega
  last := by
    intro tid task h
    obtain ⟨-, rfl⟩ := startedSince_tasks h
    decide
  table := by
    intro tid task h
    obtain ⟨rfl, -⟩ := startedSince_tasks h
    decide
  system := by
    intro task h
    exact absurd (startedSince_tasks h).1 (by decide)

/-- The thread that has been remembered is returned without a search, and the search finds the one
with the higher priority. -/
theorem getNextRunnableThread_startedSince :
    getNextRunnableThread false startedSince = (some 1, startedSince) ∧
      Searched startedSince (getNextRunnableThread true startedSince) := by
  refine ⟨(getNextRunnableThread_spec startedSince_consistent).1 1 rfl rfl,
    (getNextRunnableThread_spec startedSince_consistent).2 (Or.inl rfl) ?_⟩
  rintro ⟨tid, task, tid', task', p, htask, -, hno, -⟩
  obtain ⟨-, rfl⟩ := startedSince_tasks htask
  exact absurd hno (by decide)

/-- A thread with a higher priority waits while one that is remembered is returned. -/
theorem remembered_not_highest :
    ¬∀ isYield st, Consistent st → Searched st (getNextRunnableThread isYield st) := by
  intro h
  have hruns : RunsNext startedSince 1 startedSince :=
    h false startedSince startedSince_consistent
  obtain ⟨tid, task, p, htask, -, hle, hmem, -, -, -, hhigher⟩ := hruns
  obtain ⟨-, rfl⟩ := startedSince_tasks htask
  have hp : p = 5 := by
    by_contra hne
    simp only [if_neg hne] at hmem
    split at hmem <;> simp at hmem
  obtain hsusp | hcount := hhigher 10 (by omega) le_rfl
  · exact absurd (hsusp 2 (by decide)) (by decide)
  · exact absurd hcount (by simp [startedSince])

end CldcVm.Scheduler
