import CldcVm.Util.TaskQueueHeap

/-!
# The agenda of a timer

What the queue of a timer is for: a set of tasks, each of them once, of which one with the smallest
time is taken.

Results:

* `Represents`: a queue and the tasks that are in it.
* `add_represents`, `removeMin_represents`, `rescheduleMin_represents`, `clear_represents`: the
  operations but for the change of the user clock.
-/

namespace CldcVm.TimerQueue

open CldcVm.BinaryHeap
open Function (update update_eq_self_iff update_idem update_of_ne update_self)

/-- The fields of the tasks, and the tasks that are queued. -/
structure Agenda where
  tasks : ℕ → Task
  queued : Finset ℕ

/-- No queued task has a smaller time. -/
def Agenda.IsMin (A : Agenda) (task : ℕ) : Prop :=
  task ∈ A.queued ∧ ∀ x ∈ A.queued,
    (A.tasks task).nextExecutionTime ≤ (A.tasks x).nextExecutionTime

/-- A time moves against the skew if it is a time of the user clock. -/
def Task.shifted (skew : ℤ) (task : Task) : Task :=
  if task.isUserClock then { task with nextExecutionTime := task.nextExecutionTime - skew }
  else task

/-- The times of some tasks move. -/
def shiftedOn (tasks : ℕ → Task) (skew : ℤ) (s : Finset ℕ) (task : ℕ) : Task :=
  if task ∈ s then (tasks task).shifted skew else tasks task

/-- What an operation does to an agenda. -/
inductive Agenda.Step (A : Agenda) : Op → Agenda → Prop
  | add {task fields granted} :
    Step A (.add task fields granted)
      ⟨Function.update A.tasks task fields, insert task A.queued⟩
  | removeMin {task} (h : A.IsMin task) : Step A .removeMin ⟨A.tasks, A.queued.erase task⟩
  | rescheduleMin {task newTime} (h : A.IsMin task) :
    Step A (.rescheduleMin newTime)
      ⟨Function.update A.tasks task ⟨newTime, false⟩, A.queued⟩
  | clear : Step A .clear ⟨A.tasks, ∅⟩
  | checkUserClockChange {skew} :
    Step A (.checkUserClockChange skew) ⟨shiftedOn A.tasks skew A.queued, A.queued⟩

/-- The number of queued tasks of the user clock. -/
def Agenda.userCount (A : Agenda) : ℤ := (A.queued.filter fun t => (A.tasks t).isUserClock).card

/-- A queue represents an agenda: a heap that has each queued task at one position, and the count of
the tasks of the user clock. -/
structure Represents (q : TaskQueue) (A : Agenda) : Prop where
  tasks : q.tasks = A.tasks
  heap : Heaped q A.queued
  count : q.userClockTaskCount = A.userCount

variable {q q' : TaskQueue} {A : Agenda} {a : ℕ → ℕ} {s : Set ℕ}

theorem represents_new (tasks : ℕ → Task) : Represents (.new tasks) ⟨tasks, ∅⟩ := by
  refine ⟨rfl, ⟨id, ⟨?_, fun i hi his => ?_⟩, ?_, fun i hi his => ?_⟩, rfl⟩
  · simp [TaskQueue.new]
  · change i ≤ 0 at his
    omega
  · change Set.BijOn id (Set.Icc 1 0) _
    simp
  · change i ≤ 0 at his
    omega

/-! ## Adding -/

variable {granted : Bool}

/-- **Spec lemma** of the start of `add`. -/
theorem grow_spec (h : Arranged q a) (hgranted : q.size + 1 = q.queue.length → granted = true) :
    ∃ queue, q.grow granted = some { q with
        queue := queue
        size := q.size + 1 } ∧ q.size + 1 < queue.length ∧
      ∀ i, 1 ≤ i → i ≤ q.size → queue[i]? = some (some (a i)) := by
  have hroom := h.room
  rw [TaskQueue.grow]
  by_cases hfull : q.size + 1 = q.queue.length
  · refine ⟨q.queue.take (q.size + 1) ++ List.replicate (2 * q.queue.length - (q.size + 1)) none,
      ?_, ?_, fun i hi his => ?_⟩
    · simp [hfull, hgranted hfull]
    · simp
      omega
    · rw [List.getElem?_append_left (by simp; omega), List.getElem?_take, if_pos (by omega)]
      exact h.holds i hi his
  · exact ⟨q.queue, by simp [hfull], by omega, h.holds⟩

theorem userClockTaskAdded_eq (q : TaskQueue) (isUserClock : Bool) :
    q.userClockTaskAdded isUserClock = { q with
      userClockTaskCount := q.userClockTaskCount + if isUserClock then 1 else 0 } := by
  cases isUserClock <;> simp [TaskQueue.userClockTaskAdded]

theorem userClockTaskRemoved_eq (q : TaskQueue) (isUserClock : Bool) :
    q.userClockTaskRemoved isUserClock = { q with
      userClockTaskCount := q.userClockTaskCount - if isUserClock then 1 else 0 } := by
  cases isUserClock <;> simp [TaskQueue.userClockTaskRemoved]

variable {task : ℕ}

/-- **Spec lemma** of `add`. -/
theorem add_spec (h : Heaped q s) (htask : task ∉ s)
    (hgranted : q.size + 1 = q.queue.length → granted = true) :
    ∃ queue, q.add granted task = some { q with
        queue := queue
        size := q.size + 1
        userClockTaskCount :=
          q.userClockTaskCount + if (q.tasks task).isUserClock then 1 else 0 } ∧
      Heaped { q with
        queue := queue
        size := q.size + 1 } (insert task s) := by
  obtain ⟨a, harranged, hbij, hheap⟩ := h
  obtain ⟨queue, hgrow, hroom, hholds⟩ := grow_spec harranged hgranted
  set grown : TaskQueue := { q with
    queue := queue.set (q.size + 1) (some task)
    size := q.size + 1 } with hgrown
  have hfirst : ∀ i, 1 ≤ i → i ≤ q.size → update a (q.size + 1) task i = a i :=
    fun i _ his => update_of_ne (by omega) ..
  have harranged' : Arranged grown (update a (q.size + 1) task) := by
    refine ⟨by simpa [grown] using hroom, fun i hi his => ?_⟩
    change i ≤ q.size + 1 at his
    change (queue.set (q.size + 1) (some task))[i]? = _
    rw [List.getElem?_set]
    by_cases hlast : q.size + 1 = i
    · rw [if_pos hlast, if_pos hroom, ← hlast, update_self]
    · rw [if_neg hlast, hfirst i hi (by omega)]
      exact hholds i hi (by omega)
  have horder : UpOrder (grown.key (update a (q.size + 1) task)) (q.size + 1)
      (q.size + 1) := by
    refine hheap.push fun i hi his => ?_
    rw [TaskQueue.key, TaskQueue.key, hfirst i hi his]
  obtain ⟨queue', hfix, hheaped⟩ :=
    fixUp_spec harranged' (bijOn_push hbij htask) (Nat.le_add_left 1 _) le_rfl horder
  refine ⟨queue', ?_, hheaped⟩
  have hset : ({ q with
      queue := queue
      size := q.size + 1 } : TaskQueue).set (q.size + 1) (some task) = some grown :=
    set_eq _ hroom
  rw [TaskQueue.add, hgrow]
  show (({ q with
      queue := queue
      size := q.size + 1 } : TaskQueue).set (q.size + 1) (some task)).bind _ = _
  rw [hset]
  show (grown.fixUp (q.size + 1)).bind _ = _
  rw [hfix]
  exact congrArg some (userClockTaskAdded_eq ..)

/-- `add` of a task with its fields. -/
theorem add_represents {fields : Task} (h : Represents q A)
    (htask : task ∉ A.queued) (hgranted : q.size + 1 = q.queue.length → granted = true) :
    ∃ q', q.execute (.add task fields granted) = some q' ∧
      Represents q' ⟨update A.tasks task fields, insert task A.queued⟩ := by
  have hother : ∀ x ∈ A.queued, update q.tasks task fields x = q.tasks x :=
    fun x hx => update_of_ne (ne_of_mem_of_not_mem hx htask) ..
  have hheap : Heaped (q.setTask task fields) A.queued := by
    obtain ⟨a, harranged, hbij, hheap⟩ := h.heap
    refine ⟨a, ⟨harranged.room, harranged.holds⟩, hbij, fun i hi his => ?_⟩
    have hkey : ∀ i, 1 ≤ i → i ≤ q.size → (q.setTask task fields).key a i = q.key a i := by
      intro i hi his
      exact congrArg Task.nextExecutionTime (hother _ (hbij.mapsTo ⟨hi, his⟩))
    rw [hkey i (by omega) his, hkey (i / 2) (by omega) (by change i ≤ q.size at his; omega)]
    exact hheap i hi his
  obtain ⟨queue, hadd, hheaped⟩ := add_spec hheap htask hgranted
  refine ⟨_, hadd, ?_, ?_, ?_⟩
  · exact congrArg (update · task fields) h.tasks
  · rw [Finset.coe_insert]
    exact hheaped.congr rfl rfl rfl
  · change q.userClockTaskCount + (if (update q.tasks task fields task).isUserClock then 1
      else 0) = _
    have hcount : (A.queued.filter fun t => (update A.tasks task fields t).isUserClock) =
        A.queued.filter fun t => (A.tasks t).isUserClock := by
      refine Finset.filter_congr fun x hx => ?_
      rw [← h.tasks, hother x hx]
    rw [update_self, h.count, Agenda.userCount, Agenda.userCount]
    simp only [Finset.filter_insert, update_self, hcount]
    cases fields.isUserClock with
    | false => simp
    | true =>
      have hnot : task ∉ A.queued.filter fun t => (A.tasks t).isUserClock :=
        fun hin => htask (Finset.mem_of_mem_filter _ hin)
      simp [Finset.card_insert_of_notMem hnot]

/-! ## The head -/

theorem Represents.isMin (h : Represents q A)
    (hbij : Set.BijOn a (Set.Icc 1 q.size) A.queued) (hheap : IsHeap (q.key a) q.size)
    (hsize : 1 ≤ q.size) : A.IsMin (a 1) := by
  refine ⟨hbij.mapsTo ⟨le_rfl, hsize⟩, fun x hx => ?_⟩
  obtain ⟨i, hi, rfl⟩ := hbij.surjOn hx
  rw [← h.tasks]
  exact hheap.root_le i hi.1 hi.2

/-- **Spec lemma**: the last task takes the place of the head. -/
theorem takeHead_spec {n : ℕ} (hn : q.size = n + 1) (harranged : Arranged q a)
    (hbij : Set.BijOn a (Set.Icc 1 q.size) s) (hheap : IsHeap (q.key a) q.size) :
    ∃ queue, q.queue.length = queue.length ∧
      ((q.set 1 (some (a q.size))).bind fun q => q.set q.size none) =
        some { q with queue := queue } ∧
      ∃ queue', ({ q with
          queue := queue
          size := n } : TaskQueue).fixDown 1 = some { q with
            queue := queue'
            size := n } ∧
        Heaped { q with
          queue := queue'
          size := n } (s \ {a 1}) := by
  have hroom := harranged.room
  have hfirst : 1 ∈ Set.Icc 1 (n + 1) := ⟨le_rfl, by omega⟩
  have hlast : n + 1 ∈ Set.Icc 1 (n + 1) := ⟨by omega, le_rfl⟩
  rw [hn] at hbij hheap
  refine ⟨(q.queue.set 1 (some (a q.size))).set q.size none, by simp, ?_, ?_⟩
  · rw [set_eq _ (by omega)]
    exact set_eq _ (by rw [List.length_set]; exact hroom)
  · set taken : TaskQueue := { q with
      queue := (q.queue.set 1 (some (a q.size))).set q.size none
      size := n } with htaken
    have harranged' : Arranged taken (exchange a 1 (n + 1)) := by
      refine ⟨by simp [taken]; omega, fun i hi his => ?_⟩
      change i ≤ n at his
      change ((q.queue.set 1 (some (a q.size))).set q.size none)[i]? = _
      rw [List.getElem?_set, if_neg (by omega), List.getElem?_set]
      by_cases h1 : 1 = i
      · rw [if_pos h1, if_pos (by omega), ← h1, exchange_left, hn]
      · rw [if_neg h1, exchange_other _ (Ne.symm h1) (by omega)]
        exact harranged.holds i hi (by omega)
    have hbij' : Set.BijOn (exchange a 1 (n + 1)) (Set.Icc 1 n) (s \ {a 1}) := by
      have hpop := bijOn_pop (bijOn_exchange hbij hfirst hlast)
      rwa [exchange_right] at hpop
    have horder : DownOrder (taken.key (exchange a 1 (n + 1))) n 1 := by
      refine hheap.replaceRoot (Nat.le_succ n) fun i hi his => ?_
      rw [TaskQueue.key, TaskQueue.key, exchange_other _ (by omega) (by omega)]
    exact fixDown_spec harranged' hbij' le_rfl horder

theorem card_erase_user (htask : task ∈ A.queued) :
    (((A.queued.filter fun t => (A.tasks t).isUserClock).erase task).card : ℤ) =
      A.userCount - if (A.tasks task).isUserClock then 1 else 0 := by
  rw [Agenda.userCount]
  by_cases huser : (A.tasks task).isUserClock = true
  · have hin : task ∈ A.queued.filter fun t => (A.tasks t).isUserClock :=
      Finset.mem_filter.mpr ⟨htask, huser⟩
    have hpos := Finset.card_pos.mpr ⟨_, hin⟩
    rw [if_pos huser, Finset.card_erase_of_mem hin]
    omega
  · have hnot : task ∉ A.queued.filter fun t => (A.tasks t).isUserClock :=
      fun hin => huser (Finset.mem_filter.mp hin).2
    rw [if_neg huser, Finset.erase_eq_of_notMem hnot]
    omega

/-- `removeMin`. -/
theorem removeMin_represents (h : Represents q A) (hsize : 1 ≤ q.size) :
    ∃ q' task, q.execute .removeMin = some q' ∧ A.IsMin task ∧
      Represents q' ⟨A.tasks, A.queued.erase task⟩ := by
  obtain ⟨a, harranged, hbij, hheap⟩ := h.heap
  have hmin := h.isMin hbij hheap hsize
  obtain ⟨n, hn⟩ : ∃ n, q.size = n + 1 := ⟨q.size - 1, by omega⟩
  obtain ⟨queue, hlength, htake, queue', hfix, hheaped⟩ := takeHead_spec hn harranged hbij hheap
  refine ⟨({ q with
    queue := queue'
    size := n } : TaskQueue).userClockTaskRemoved (q.tasks (a 1)).isUserClock, a 1, ?_, hmin, ?_⟩
  · show q.removeMin = _
    obtain ⟨q₁, hq₁, hq₂⟩ := Option.bind_eq_some_iff.mp htake
    rw [TaskQueue.removeMin, harranged.holds 1 le_rfl hsize, harranged.holds q.size hsize le_rfl]
    show (q.set 1 (some (a q.size))).bind _ = _
    rw [hq₁]
    show (q₁.set q₁.size none).bind _ = _
    rw [hq₂]
    show (({ q with
      queue := queue
      size := q.size - 1 } : TaskQueue).fixDown 1).bind _ = _
    rw [show q.size - 1 = n by omega, hfix]
    rfl
  · rw [userClockTaskRemoved_eq]
    refine ⟨h.tasks, ?_, ?_⟩
    · rw [Finset.coe_erase]
      exact hheaped.congr rfl rfl rfl
    · change q.userClockTaskCount - (if (q.tasks (a 1)).isUserClock then 1 else 0) = _
      rw [h.count, h.tasks, ← card_erase_user hmin.1, Agenda.userCount]
      simp only [Finset.filter_erase]

/-- `rescheduleMin`. -/
theorem rescheduleMin_represents (h : Represents q A) (hsize : 1 ≤ q.size) (newTime : ℤ) :
    ∃ q' task, q.execute (.rescheduleMin newTime) = some q' ∧ A.IsMin task ∧
      Represents q' ⟨update A.tasks task ⟨newTime, false⟩, A.queued⟩ := by
  obtain ⟨a, harranged, hbij, hheap⟩ := h.heap
  have hmin := h.isMin hbij hheap hsize
  set moved := q.setTask (a 1) { q.tasks (a 1) with nextExecutionTime := newTime } with hmoved
  have horder : DownOrder (moved.key a) q.size 1 := by
    refine hheap.replaceRoot le_rfl fun i hi his => ?_
    have hne : a i ≠ a 1 := fun heq =>
      absurd (hbij.injOn ⟨by omega, his⟩ ⟨le_rfl, hsize⟩ heq) (by omega)
    exact congrArg Task.nextExecutionTime (update_of_ne hne ..)
  have harranged' : Arranged moved a := ⟨harranged.room, harranged.holds⟩
  obtain ⟨queue, hfix, a', harr', hbij', hheap'⟩ := fixDown_spec harranged' hbij le_rfl horder
  have hself : moved.tasks (a 1) = ⟨newTime, (q.tasks (a 1)).isUserClock⟩ :=
    update_self ..
  have hmovedTasks : update moved.tasks (a 1) ⟨newTime, false⟩ =
      update A.tasks (a 1) ⟨newTime, false⟩ := by
    rw [hmoved, ← h.tasks]
    exact update_idem ..
  refine ⟨{ moved with
    tasks := update moved.tasks (a 1) ⟨newTime, false⟩
    queue := queue
    userClockTaskCount :=
      q.userClockTaskCount - if (q.tasks (a 1)).isUserClock then 1 else 0 }, a 1, ?_, hmin,
    hmovedTasks, ?_, ?_⟩
  · show q.rescheduleMin newTime = _
    rw [TaskQueue.rescheduleMin, harranged.get le_rfl hsize]
    show (moved.fixDown 1).bind _ = _
    rw [hfix]
    show (if (moved.tasks (a 1)).isUserClock then _ else _) = _
    rw [hself]
    by_cases huser : (q.tasks (a 1)).isUserClock = true
    · rw [if_pos huser, if_pos huser, userClockTaskRemoved_eq]
      exact congrArg some rfl
    · have hsame : update moved.tasks (a 1) ⟨newTime, false⟩ = moved.tasks := by
        rw [update_eq_self_iff, hself]
        simpa using huser
      rw [if_neg huser, if_neg huser, hsame, sub_zero]
      rfl
  · have hkey : ∀ x, (update moved.tasks (a 1) ⟨newTime, false⟩ x).nextExecutionTime =
        (moved.tasks x).nextExecutionTime := by
      intro x
      by_cases hx : x = a 1
      · rw [hx, update_self, hself]
      · rw [update_of_ne hx]
    refine ⟨a', ⟨harr'.room, harr'.holds⟩, hbij', fun i hi his => ?_⟩
    rw [TaskQueue.key, TaskQueue.key, hkey, hkey]
    exact hheap' i hi his
  · change q.userClockTaskCount - (if (q.tasks (a 1)).isUserClock then 1 else 0) = _
    rw [h.count, h.tasks, ← card_erase_user hmin.1, Agenda.userCount, ← Finset.filter_ne',
      Finset.filter_filter]
    refine congrArg (fun s : Finset ℕ => (s.card : ℤ)) (Finset.filter_congr fun x _ => ?_)
    by_cases hx : x = a 1
    · simp [hx]
    · simp [hx]

/-! ## Clearing -/

theorem clearFrom_spec (count i : ℕ) (q : TaskQueue) (h : i + count ≤ q.queue.length) :
    ∃ queue, q.clearFrom count i = some { q with queue := queue } ∧
      queue.length = q.queue.length := by
  induction count generalizing i q with
  | zero => exact ⟨q.queue, rfl, rfl⟩
  | succ count ih =>
    obtain ⟨queue, hclear, hlength⟩ :=
      ih (i + 1) { q with queue := q.queue.set i none } (by simp; omega)
    refine ⟨queue, ?_, by rw [hlength, List.length_set]⟩
    rw [TaskQueue.clearFrom, set_eq _ (by omega)]
    exact hclear

/-- `clear`. -/
theorem clear_represents (h : Represents q A) :
    ∃ q', q.execute .clear = some q' ∧ Represents q' ⟨A.tasks, ∅⟩ := by
  obtain ⟨a, harranged, -, -⟩ := h.heap
  have hroom := harranged.room
  obtain ⟨queue, hclear, hlength⟩ := clearFrom_spec q.size 1 q (by omega)
  refine ⟨{ q with
    queue := queue
    size := 0
    userClockTaskCount := 0 }, ?_, h.tasks, ⟨a, ⟨?_, fun i hi his => ?_⟩, ?_, fun i hi his => ?_⟩,
    rfl⟩
  · show q.clear = _
    rw [TaskQueue.clear, hclear]
    rfl
  · change 0 < queue.length
    omega
  · change i ≤ 0 at his
    omega
  · change Set.BijOn a (Set.Icc 1 0) _
    simp
  · change i ≤ 0 at his
    omega

end CldcVm.TimerQueue
