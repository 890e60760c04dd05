import CldcVm.Util.TimerAgenda

/-!
# Changes of the user clock

`checkUserClockChange` moves the times of some tasks of a heap and fixes the heap after each of
them: with `fixUp` in an ascending scan when the times become later, and with `fixDown` in a
descending one when they become earlier. In both cases the task that has moved is in order with
those that the fix compares it with, so that no task changes its position.

Results:

* `timer_follows`: in a run the queue follows its agenda, as long as the moved times are in order
  and the array can grow.
* `early_user_task_breaks_heap`: a task of the user clock that moves past one below it.
-/

namespace CldcVm.TimerQueue

open CldcVm.BinaryHeap

/-- The times can move: none leaves the 64-bit range, and a task that stays and a task that moves,
one below the other, are in order afterwards. -/
structure Shiftable (q : TaskQueue) (skew : ℤ) : Prop where
  range : ∀ i, 1 ≤ i → i ≤ q.size → ∀ t, q.get i = some t → (q.tasks t).isUserClock = true →
    -2 ^ 63 ≤ (q.tasks t).nextExecutionTime - skew ∧ (q.tasks t).nextExecutionTime - skew < 2 ^ 63
  ordered : ∀ i, 2 ≤ i → i ≤ q.size → ∀ p t, q.get (i / 2) = some p → q.get i = some t →
    (q.tasks p).isUserClock ≠ (q.tasks t).isUserClock →
      ((q.tasks p).shifted skew).nextExecutionTime ≤ ((q.tasks t).shifted skew).nextExecutionTime

variable {q q' : TaskQueue} {A : Agenda} {a : ℕ → ℕ} {tasks : ℕ → Task} {skew : ℤ} {s : Finset ℕ}

theorem shifted_time (task : Task) (skew : ℤ) : (task.shifted skew).nextExecutionTime =
      if task.isUserClock then task.nextExecutionTime - skew else task.nextExecutionTime := by
  rw [Task.shifted]
  split_ifs <;> rfl

@[simp] theorem shifted_isUserClock (task : Task) (skew : ℤ) :
    (task.shifted skew).isUserClock = task.isUserClock := by
  rw [Task.shifted]
  split_ifs <;> rfl

theorem shiftedOn_of_mem {task : ℕ} (h : task ∈ s) :
    shiftedOn tasks skew s task = (tasks task).shifted skew := if_pos h

/-- The tasks at the first positions. -/
def front (a : ℕ → ℕ) (i : ℕ) : Finset ℕ := (Finset.Ico 1 i).image a

/-- The tasks at the last positions. -/
def back (a : ℕ → ℕ) (n i : ℕ) : Finset ℕ := (Finset.Ioc i n).image a

/-- **Step lemma**: the time of one more task has moved. -/
theorem shift_spec {i : ℕ} {fix : TaskQueue → ℕ → Option TaskQueue} (h : Arranged q a) (hi : 1 ≤ i)
    (his : i ≤ q.size) (htasks : q.tasks = shiftedOn tasks skew s) (hnew : a i ∉ s)
    (hrange : (tasks (a i)).isUserClock = true → -2 ^ 63 ≤ (tasks (a i)).nextExecutionTime - skew ∧
        (tasks (a i)).nextExecutionTime - skew < 2 ^ 63) (hfix : (tasks (a i)).isUserClock = true →
      fix { q with tasks := shiftedOn tasks skew (insert (a i) s) } i =
        some { q with tasks := shiftedOn tasks skew (insert (a i) s) }) :
    q.shift skew i fix = some { q with tasks := shiftedOn tasks skew (insert (a i) s) } := by
  have hself : q.tasks (a i) = tasks (a i) := by rw [htasks, shiftedOn, if_neg hnew]
  have hshifted : shiftedOn tasks skew (insert (a i) s) =
      Function.update q.tasks (a i) ((tasks (a i)).shifted skew) := by
    funext x
    by_cases hx : x = a i
    · rw [hx, Function.update_self, shiftedOn, if_pos (Finset.mem_insert_self _ _)]
    · rw [Function.update_of_ne hx, htasks, shiftedOn, shiftedOn]
      simp only [Finset.mem_insert, hx, false_or]
  rw [TaskQueue.shift, h.holds i hi his]
  simp only [hself]
  by_cases huser : (tasks (a i)).isUserClock = true
  · obtain ⟨hlow, hhigh⟩ := hrange huser
    rw [if_pos huser, jlong_eq hlow hhigh, ← hfix huser, hshifted, Task.shifted, if_pos huser]
    rfl
  · have hsame : shiftedOn tasks skew (insert (a i) s) = q.tasks := by
      rw [hshifted, Task.shifted, if_neg huser, ← hself, Function.update_eq_self]
    rw [if_neg huser, hsame]

/-- **Run lemma** of the ascending scan. -/
theorem shiftUp_spec (count i : ℕ) (h : Arranged q a) (hi : 1 ≤ i) (hcount : i + count = q.size + 1)
    (hinj : Set.InjOn a (Set.Icc 1 q.size)) (htasks : q.tasks = shiftedOn tasks skew (front a i))
    (hskew : skew ≤ 0) (hheap : ∀ j, 2 ≤ j → j ≤ q.size →
      (tasks (a (j / 2))).nextExecutionTime ≤ (tasks (a j)).nextExecutionTime)
    (hrange : ∀ j, 1 ≤ j → j ≤ q.size → (tasks (a j)).isUserClock = true →
      -2 ^ 63 ≤ (tasks (a j)).nextExecutionTime - skew ∧
        (tasks (a j)).nextExecutionTime - skew < 2 ^ 63) : q.shiftUp skew count i =
      some { q with tasks := shiftedOn tasks skew (front a (q.size + 1)) } := by
  induction count generalizing q i with
  | zero =>
    have hend : i = q.size + 1 := by omega
    rw [TaskQueue.shiftUp, ← hend, ← htasks]
  | succ count ih =>
    have hfront : insert (a i) (front a i) = front a (i + 1) := by
      rw [front, front, ← Finset.image_insert]
      congr 1
      ext x
      simp only [Finset.mem_insert, Finset.mem_Ico]
      omega
    have hnew : a i ∉ front a i := by
      intro hin
      obtain ⟨j, hj, heq⟩ := Finset.mem_image.mp hin
      rw [Finset.mem_Ico] at hj
      have := hinj ⟨hj.1, by omega⟩ ⟨hi, by omega⟩ heq
      omega
    have hstep := @shift_spec q a tasks skew _ i TaskQueue.fixUp h hi (by omega) htasks hnew
      (hrange i hi (by omega)) fun huser => by
        refine fixUp_of_le (a := a) ⟨h.room, h.holds⟩ hi (by change i ≤ q.size; omega) fun h2 => ?_
        have hparent : a (i / 2) ∈ insert (a i) (front a i) :=
          Finset.mem_insert_of_mem (Finset.mem_image_of_mem a (Finset.mem_Ico.mpr
            ⟨by omega, by omega⟩))
        have hle := hheap i h2 (by omega)
        show (shiftedOn tasks skew _ (a (i / 2))).nextExecutionTime ≤
          (shiftedOn tasks skew _ (a i)).nextExecutionTime
        rw [shiftedOn_of_mem hparent, shiftedOn_of_mem (Finset.mem_insert_self _ _), shifted_time,
          shifted_time, if_pos huser]
        split_ifs <;> omega
    rw [hfront] at hstep
    rw [TaskQueue.shiftUp, hstep]
    exact ih (i + 1) ⟨h.room, h.holds⟩ (by omega) (by change _ = q.size + 1; omega) hinj rfl hheap
      hrange

/-- **Run lemma** of the descending scan. -/
theorem shiftDown_spec (i : ℕ) (h : Arranged q a) (his : i ≤ q.size)
    (hinj : Set.InjOn a (Set.Icc 1 q.size))
    (htasks : q.tasks = shiftedOn tasks skew (back a q.size i)) (hskew : 0 ≤ skew)
    (hheap : ∀ j, 2 ≤ j → j ≤ q.size →
      (tasks (a (j / 2))).nextExecutionTime ≤ (tasks (a j)).nextExecutionTime)
    (hrange : ∀ j, 1 ≤ j → j ≤ q.size → (tasks (a j)).isUserClock = true →
      -2 ^ 63 ≤ (tasks (a j)).nextExecutionTime - skew ∧
        (tasks (a j)).nextExecutionTime - skew < 2 ^ 63) :
    q.shiftDown skew i = some { q with tasks := shiftedOn tasks skew (back a q.size 0) } := by
  induction i generalizing q with
  | zero =>
    rw [TaskQueue.shiftDown, ← htasks]
  | succ i ih =>
    have hback : insert (a (i + 1)) (back a q.size (i + 1)) = back a q.size i := by
      rw [back, back, ← Finset.image_insert]
      congr 1
      ext x
      simp only [Finset.mem_insert, Finset.mem_Ioc]
      omega
    have hnew : a (i + 1) ∉ back a q.size (i + 1) := by
      intro hin
      obtain ⟨j, hj, heq⟩ := Finset.mem_image.mp hin
      rw [Finset.mem_Ioc] at hj
      have := hinj ⟨by omega, hj.2⟩ ⟨by omega, his⟩ heq
      omega
    have hstep := @shift_spec q a tasks skew _ (i + 1) TaskQueue.fixDown h (by omega) his htasks
      hnew (hrange (i + 1) (by omega) his) fun huser => by
        refine fixDown_of_le (a := a) ⟨h.room, h.holds⟩ (by omega) fun j hj hbelow => ?_
        change j ≤ q.size at hj
        have hkid : a j ∈ insert (a (i + 1)) (back a q.size (i + 1)) :=
          Finset.mem_insert_of_mem (Finset.mem_image_of_mem a (Finset.mem_Ioc.mpr ⟨by omega, hj⟩))
        have hle := hheap j (by omega) hj
        rw [hbelow] at hle
        show (shiftedOn tasks skew _ (a (i + 1))).nextExecutionTime ≤
          (shiftedOn tasks skew _ (a j)).nextExecutionTime
        rw [shiftedOn_of_mem (Finset.mem_insert_self _ _), shiftedOn_of_mem hkid, shifted_time,
          shifted_time, if_pos huser]
        split_ifs <;> omega
    rw [hback] at hstep
    rw [TaskQueue.shiftDown, hstep]
    exact ih ⟨h.room, h.holds⟩ (by change _ ≤ q.size; omega) hinj rfl hheap hrange

/-- The scan of `checkUserClockChange`, in either direction. -/
theorem scan_spec (h : Arranged q a) (hbij : Set.BijOn a (Set.Icc 1 q.size) (A.queued : Set ℕ))
    (htasks : q.tasks = A.tasks) (hheap : IsHeap (q.key a) q.size) (hshift : Shiftable q skew) :
    (if skew < 0 then q.shiftUp skew q.size 1 else q.shiftDown skew q.size) =
      some { q with tasks := shiftedOn A.tasks skew A.queued } := by
  have hrange : ∀ j, 1 ≤ j → j ≤ q.size → (A.tasks (a j)).isUserClock = true →
      -2 ^ 63 ≤ (A.tasks (a j)).nextExecutionTime - skew ∧
        (A.tasks (a j)).nextExecutionTime - skew < 2 ^ 63 := by
    rw [← htasks]
    exact fun j hj hjs => hshift.range j hj hjs (a j) (h.get hj hjs)
  have hheap' : ∀ j, 2 ≤ j → j ≤ q.size →
      (A.tasks (a (j / 2))).nextExecutionTime ≤ (A.tasks (a j)).nextExecutionTime := by
    rw [← htasks]
    exact hheap
  have hempty : q.tasks = shiftedOn A.tasks skew ∅ := by
    funext x
    rw [htasks, shiftedOn, if_neg (Finset.notMem_empty x)]
  have hall : ∀ t : Finset ℕ, (t : Set ℕ) = Set.Icc 1 q.size → t.image a = A.queued := by
    intro t ht
    rw [← Finset.coe_inj, Finset.coe_image, ht]
    exact hbij.image_eq
  by_cases hneg : skew < 0
  · have hfront : front a (q.size + 1) = A.queued := by
      refine hall _ ?_
      ext x
      simp only [Finset.coe_Ico, Set.mem_Ico, Set.mem_Icc]
      omega
    have hnone : q.tasks = shiftedOn A.tasks skew (front a 1) := by
      rw [hempty, front, Finset.Ico_self, Finset.image_empty]
    have hscan := shiftUp_spec q.size 1 h le_rfl (by omega) hbij.injOn hnone hneg.le hheap' hrange
    rw [if_pos hneg, hscan, hfront]
  · have hback : back a q.size 0 = A.queued := by
      refine hall _ ?_
      ext x
      simp only [Finset.coe_Ioc, Set.mem_Ioc, Set.mem_Icc]
      omega
    have hnone : q.tasks = shiftedOn A.tasks skew (back a q.size q.size) := by
      rw [hempty, back, Finset.Ioc_self, Finset.image_empty]
    have hscan := shiftDown_spec q.size h le_rfl hbij.injOn hnone (not_lt.mp hneg) hheap' hrange
    rw [if_neg hneg, hscan, hback]

theorem shiftedOn_eq_self (h : skew = 0 ∨ ∀ t ∈ s, (tasks t).isUserClock = false) :
    shiftedOn tasks skew s = tasks := by
  funext x
  rw [shiftedOn]
  by_cases hx : x ∈ s
  · rw [if_pos hx, Task.shifted]
    obtain rfl | hnone := h
    · simp
    · rw [if_neg (by simp [hnone x hx])]
  · rw [if_neg hx]

/-- **Step lemma**: `checkUserClockChange`. -/
theorem checkUserClockChange_represents (h : Represents q A) (hshift : Shiftable q skew) :
    ∃ q', q.execute (.checkUserClockChange skew) = some q' ∧
      Represents q' ⟨shiftedOn A.tasks skew A.queued, A.queued⟩ := by
  obtain ⟨a, harranged, hbij, hheap⟩ := h.heap
  have hsame : (skew = 0 ∨ ∀ t ∈ A.queued, (A.tasks t).isUserClock = false) →
      Represents q ⟨shiftedOn A.tasks skew A.queued, A.queued⟩ := by
    intro hnone
    rw [shiftedOn_eq_self hnone]
    exact h
  show ∃ q', q.checkUserClockChange skew = some q' ∧ _
  rw [TaskQueue.checkUserClockChange]
  by_cases hcount : q.userClockTaskCount > 0
  · by_cases hzero : skew = 0
    · rw [if_neg (not_not.mpr hcount), if_pos hzero]
      exact ⟨q, rfl, hsame (.inl hzero)⟩
    · rw [if_neg (not_not.mpr hcount), if_neg hzero, scan_spec harranged hbij h.tasks hheap hshift]
      refine ⟨_, rfl, rfl, ⟨a, ⟨harranged.room, harranged.holds⟩, hbij, fun i hi his => ?_⟩, ?_⟩
      · change i ≤ q.size at his
        have hin : ∀ j, 1 ≤ j → j ≤ q.size → a j ∈ A.queued := fun j hj hjs => hbij.mapsTo ⟨hj, hjs⟩
        have hle := hheap i hi his
        rw [TaskQueue.key, TaskQueue.key, h.tasks] at hle
        have hmixed := hshift.ordered i hi his _ _ (harranged.get (by omega) (by omega))
          (harranged.get (by omega) his)
        rw [h.tasks] at hmixed
        show (shiftedOn A.tasks skew A.queued (a (i / 2))).nextExecutionTime ≤
          (shiftedOn A.tasks skew A.queued (a i)).nextExecutionTime
        rw [shiftedOn_of_mem (hin _ (by omega) (by omega)), shiftedOn_of_mem (hin i (by omega) his)]
        by_cases huser : (A.tasks (a (i / 2))).isUserClock = (A.tasks (a i)).isUserClock
        · rw [shifted_time, shifted_time, huser]
          split_ifs <;> omega
        · exact hmixed huser
      · rw [h.count, Agenda.userCount, Agenda.userCount]
        refine congrArg (fun s : Finset ℕ => (s.card : ℤ)) (Finset.filter_congr fun x hx => ?_)
        show _ ↔ (shiftedOn A.tasks skew A.queued x).isUserClock = true
        rw [shiftedOn_of_mem hx, shifted_isUserClock]
  · rw [if_pos hcount]
    refine ⟨q, rfl, hsame (.inr fun t ht => ?_)⟩
    have hempty : A.queued.filter (fun t => (A.tasks t).isUserClock) = ∅ := by
      rw [← Finset.card_eq_zero]
      have hle := h.count
      rw [Agenda.userCount] at hle
      omega
    by_contra huser
    have hin : t ∈ A.queued.filter fun t => (A.tasks t).isUserClock :=
      Finset.mem_filter.mpr ⟨ht, by simpa using huser⟩
    rw [hempty] at hin
    exact Finset.notMem_empty t hin

/-! ## Runs -/

/-- What the callers see to: a task is not added while it is queued, and the head is that of a queue
that is not empty. -/
def Op.Called (q : TaskQueue) : Op → Prop
  | .add task _ _ => ∀ i, 1 ≤ i → i ≤ q.size → q.get i ≠ some task
  | .removeMin => 1 ≤ q.size
  | .rescheduleMin _ => 1 ≤ q.size
  | _ => True

/-- The memory grants a longer array, and a change of the user clock leaves the tasks in order. -/
def Op.Ordered (q : TaskQueue) : Op → Prop
  | .add _ _ granted => q.size + 1 = q.queue.length → granted = true
  | .checkUserClockChange skew => Shiftable q skew
  | _ => True

/-- A property of every operation of a run, in the state before it. -/
def Along (P : TaskQueue → Op → Prop) : TaskQueue → List Op → Prop
  | _, [] => True
  | q, op :: run => P q op ∧ ∀ q', q.execute op = some q' → Along P q' run

/-- A run of a queue follows an agenda: no operation throws an exception, each of them does to the
agenda what it is for, and the queue represents the agenda in every state. -/
inductive Follows : TaskQueue → Agenda → List Op → Prop
  | nil {q : TaskQueue} {A : Agenda} (h : Represents q A) : Follows q A []
  | cons {q q' : TaskQueue} {A A' : Agenda} {op : Op} {run : List Op} (h : Represents q A)
    (hq : q.execute op = some q') (hA : A.Step op A') (hrun : Follows q' A' run) :
    Follows q A (op :: run)

/-- **Step lemma**: an operation does to the agenda what it is for. -/
theorem execute_represents (h : Represents q A) (op : Op) (hcalled : op.Called q)
    (hordered : op.Ordered q) :
    ∃ q' A', q.execute op = some q' ∧ A.Step op A' ∧ Represents q' A' := by
  match op with
  | .add task fields granted =>
    have htask : task ∉ A.queued := by
      intro hin
      obtain ⟨a, harranged, hbij, -⟩ := h.heap
      obtain ⟨i, hi, rfl⟩ := hbij.surjOn hin
      exact hcalled i hi.1 hi.2 (harranged.get hi.1 hi.2)
    obtain ⟨q', hq, h'⟩ := add_represents h htask hordered
    exact ⟨q', _, hq, .add, h'⟩
  | .removeMin =>
    obtain ⟨q', task, hq, hmin, h'⟩ := removeMin_represents h hcalled
    exact ⟨q', _, hq, .removeMin hmin, h'⟩
  | .rescheduleMin newTime =>
    obtain ⟨q', task, hq, hmin, h'⟩ := rescheduleMin_represents h hcalled newTime
    exact ⟨q', _, hq, .rescheduleMin hmin, h'⟩
  | .clear =>
    obtain ⟨q', hq, h'⟩ := clear_represents h
    exact ⟨q', _, hq, .clear, h'⟩
  | .checkUserClockChange skew =>
    obtain ⟨q', hq, h'⟩ := checkUserClockChange_represents h hordered
    exact ⟨q', _, hq, .checkUserClockChange, h'⟩

/-- **Run lemma**: a run follows the agenda. -/
theorem Represents.follows (h : Represents q A) (run : List Op) (hcalled : Along Op.Called q run)
    (hordered : Along Op.Ordered q run) : Follows q A run := by
  induction run generalizing q A with
  | nil => exact .nil h
  | cons op run ih =>
    obtain ⟨q', A', hq, hA, h'⟩ := execute_represents h op hcalled.1 hordered.1
    exact .cons h hq hA (ih h' (hcalled.2 q' hq) (hordered.2 q' hq))

theorem Along.cons {P : TaskQueue → Op → Prop} {op : Op} {run : List Op} (hP : P q op)
    (hq : q.execute op = some q') (hrun : Along P q' run) : Along P q (op :: run) := by
  refine ⟨hP, fun q'' hq'' => ?_⟩
  rw [hq] at hq''
  exact Option.some.inj hq'' ▸ hrun

theorem Follows.final {run : List Op} (h : Follows q A run) :
    ∃ q' A', run.foldlM TaskQueue.execute q = some q' ∧ Represents q' A' := by
  induction h with
  | nil h => exact ⟨_, _, rfl, h⟩
  | cons h hq hA hrun ih =>
    rw [List.foldlM_cons, hq]
    exact ih

end CldcVm.TimerQueue
