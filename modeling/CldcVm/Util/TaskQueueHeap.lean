import CldcVm.Lib.BinaryHeap
import CldcVm.Util.TaskQueue

/-!
# The heap of a timer queue

Results:

* `Arranged`, `Heaped`: the tasks at the positions of the array, and their order.
* `fixUp_spec`, `fixDown_spec`: the loops finish, and they leave a heap of the same tasks.
* `fixUp_of_le`, `fixDown_of_le`: where the order is right already nothing is changed.
-/

namespace CldcVm.TimerQueue

open CldcVm.BinaryHeap

/-- The tasks at the positions from 1 to `size`, and a free slot after them. -/
structure Arranged (q : TaskQueue) (a : ℕ → ℕ) : Prop where
  room : q.size < q.queue.length
  holds : ∀ i, 1 ≤ i → i ≤ q.size → q.queue[i]? = some (some (a i))

/-- The times of the tasks of an arrangement. -/
def TaskQueue.key (q : TaskQueue) (a : ℕ → ℕ) (i : ℕ) : ℤ := (q.tasks (a i)).nextExecutionTime

/-- The array is a heap of a set of tasks, each of them at one position. -/
def Heaped (q : TaskQueue) (s : Set ℕ) : Prop :=
  ∃ a, Arranged q a ∧ Set.BijOn a (Set.Icc 1 q.size) s ∧ IsHeap (q.key a) q.size

variable {q q' : TaskQueue} {a : ℕ → ℕ} {s : Set ℕ} {j k : ℕ}

/-- The count does not matter. -/
theorem Heaped.congr (h : Heaped q s) (htasks : q'.tasks = q.tasks) (hqueue : q'.queue = q.queue)
    (hsize : q'.size = q.size) : Heaped q' s := by
  obtain ⟨a, harranged, hbij, hheap⟩ := h
  have hkey : q'.key a = q.key a := by
    funext i
    rw [TaskQueue.key, TaskQueue.key, htasks]
  refine ⟨a, ⟨?_, ?_⟩, hsize ▸ hbij, ?_⟩
  · rw [hsize, hqueue]
    exact harranged.room
  · rw [hsize, hqueue]
    exact harranged.holds
  · rw [hkey, hsize]
    exact hheap

theorem Arranged.get (h : Arranged q a) (hk : 1 ≤ k) (hks : k ≤ q.size) : q.get k = some (a k) := by
  rw [TaskQueue.get, h.holds k hk hks]
  rfl

theorem Arranged.time (h : Arranged q a) (hk : 1 ≤ k) (hks : k ≤ q.size) :
    q.time k = some (q.key a k) := by
  rw [TaskQueue.time, h.get hk hks]
  rfl

theorem set_eq (task : Option ℕ) (hk : k < q.queue.length) :
    q.set k task = some { q with queue := q.queue.set k task } := if_pos hk

/-- **Spec lemma** of a swap. -/
theorem Arranged.swap (h : Arranged q a) (hj : 1 ≤ j) (hjs : j ≤ q.size) (hk : 1 ≤ k)
    (hks : k ≤ q.size) : ∃ queue, q.swap j k = some { q with queue := queue } ∧
      Arranged { q with queue := queue } (exchange a j k) := by
  have hroom := h.room
  refine ⟨(q.queue.set j (some (a k))).set k (some (a j)), ?_, ?_⟩
  · rw [TaskQueue.swap, h.holds j hj hjs, h.holds k hk hks]
    show (q.set j (some (a k))).bind (fun q => q.set k (some (a j))) = _
    rw [set_eq _ (by omega)]
    exact set_eq _ (by rw [List.length_set]; omega)
  · refine ⟨by simpa using hroom, fun i hi his => ?_⟩
    change ((q.queue.set j (some (a k))).set k (some (a j)))[i]? = _
    rw [List.getElem?_set, List.getElem?_set, List.length_set]
    by_cases hik : k = i
    · subst hik
      rw [if_pos rfl, if_pos (by omega), exchange_right]
    · rw [if_neg hik]
      by_cases hij : j = i
      · subst hij
        rw [if_pos rfl, if_pos (by omega), exchange_left]
      · rw [if_neg hij, exchange_other _ (Ne.symm hij) (Ne.symm hik)]
        exact h.holds i hi his

/-- **Run lemma** of the loop of `fixUp`. -/
theorem fixUpLoop_spec (fuel : ℕ) (h : Arranged q a) (hbij : Set.BijOn a (Set.Icc 1 q.size) s)
    (hfuel : k < fuel) (hk : 1 ≤ k) (hks : k ≤ q.size) (horder : UpOrder (q.key a) q.size k) :
    ∃ queue, q.fixUpLoop fuel k = some { q with queue := queue } ∧
      Heaped { q with queue := queue } s := by
  induction fuel generalizing q a k with
  | zero => omega
  | succ fuel ih =>
    rw [TaskQueue.fixUpLoop]
    by_cases hroot : k > 1
    · rw [if_pos hroot, h.time (k := k / 2) (by omega) (by omega), h.time hk hks]
      by_cases hle : q.key a (k / 2) ≤ q.key a k
      · refine ⟨q.queue, ?_, a, h, hbij, horder.isHeap fun _ => hle⟩
        simp [hle]
      · obtain ⟨queue, hswap, harranged⟩ :=
          h.swap (j := k / 2) (k := k) (by omega) (by omega) hk hks
        have hparent : k / 2 ∈ Set.Icc 1 q.size := ⟨by omega, by omega⟩
        obtain ⟨queue', hloop, hheap⟩ := ih harranged
          (bijOn_exchange hbij hparent ⟨hk, hks⟩) (k := k / 2) (by omega) (by omega)
          (by change k / 2 ≤ q.size; omega)
          (horder.swap hroot hks (le_of_not_ge hle))
        refine ⟨queue', ?_, hheap⟩
        simpa [hle, hswap] using hloop
    · rw [if_neg hroot]
      exact ⟨q.queue, rfl, a, h, hbij, horder.isHeap fun h2 => absurd h2 hroot⟩

/-- **Spec lemma** of `fixUp`. -/
theorem fixUp_spec (h : Arranged q a) (hbij : Set.BijOn a (Set.Icc 1 q.size) s) (hk : 1 ≤ k)
    (hks : k ≤ q.size) (horder : UpOrder (q.key a) q.size k) :
    ∃ queue, q.fixUp k = some { q with queue := queue } ∧ Heaped { q with queue := queue } s :=
  fixUpLoop_spec (k + 1) h hbij (Nat.lt_succ_self k) hk hks horder

/-- **Spec lemma**: the smallest kid. -/
theorem smallestKid_spec (h : Arranged q a) (hk : 1 ≤ k) (hkid : 2 * k ≤ q.size) :
    ∃ j, q.smallestKid (2 * k) = some j ∧ j / 2 = k ∧ j ≤ q.size ∧
      ∀ i ≤ q.size, i / 2 = k → q.key a j ≤ q.key a i := by
  rw [TaskQueue.smallestKid]
  by_cases hright : 2 * k < q.size
  · rw [if_pos hright, h.time (k := 2 * k) (by omega) (by omega),
      h.time (k := 2 * k + 1) (by omega) (by omega)]
    have hkids : ∀ i ≤ q.size, i / 2 = k → i = 2 * k ∨ i = 2 * k + 1 := fun i _ hi => by omega
    by_cases hgt : q.key a (2 * k) > q.key a (2 * k + 1)
    · refine ⟨2 * k + 1, by simp [hgt], by omega, by omega, fun i hi hik => ?_⟩
      obtain rfl | rfl := hkids i hi hik
      · exact hgt.le
      · exact le_rfl
    · refine ⟨2 * k, by simp [hgt], by omega, by omega, fun i hi hik => ?_⟩
      obtain rfl | rfl := hkids i hi hik
      · exact le_rfl
      · exact not_lt.mp hgt
  · rw [if_neg hright]
    refine ⟨2 * k, rfl, by omega, hkid, fun i hi hik => ?_⟩
    rw [show i = 2 * k by omega]

/-- **Run lemma** of the loop of `fixDown`. -/
theorem fixDownLoop_spec (fuel : ℕ) (h : Arranged q a) (hbij : Set.BijOn a (Set.Icc 1 q.size) s)
    (hfuel : q.size < fuel + k) (hk : 1 ≤ k) (horder : DownOrder (q.key a) q.size k) :
    ∃ queue, q.fixDownLoop (fuel + 1) k = some { q with queue := queue } ∧
      Heaped { q with queue := queue } s := by
  induction fuel generalizing q a k with
  | zero =>
    rw [TaskQueue.fixDownLoop, if_neg (by omega)]
    exact ⟨q.queue, rfl, a, h, hbij, horder.isHeap fun i hi _ hik => by omega⟩
  | succ fuel ih =>
    rw [TaskQueue.fixDownLoop]
    by_cases hkid : 2 * k ≤ q.size
    · obtain ⟨j, hsmallest, hj, hjs, hleast⟩ := smallestKid_spec h hk hkid
      rw [if_pos hkid, hsmallest, h.time hk (by omega)]
      by_cases hle : q.key a k ≤ q.key a j
      · refine ⟨q.queue, ?_, a, h, hbij, horder.isHeap fun i hi _ hik => ?_⟩
        swap
        · exact hle.trans (hleast i hi hik)
        simp [h.time (k := j) (by omega) hjs, hle]
      · obtain ⟨queue, hswap, harranged⟩ := h.swap (j := k) (k := j) hk (by omega) (by omega) hjs
        have hself : k ∈ Set.Icc 1 q.size := ⟨hk, by omega⟩
        have hjIn : j ∈ Set.Icc 1 q.size := ⟨by omega, hjs⟩
        obtain ⟨queue', hloop, hheap⟩ := ih harranged (bijOn_exchange hbij hself hjIn) (k := j)
          (by change q.size < _; omega) (by omega)
          (horder.swap hk hj hjs hleast (le_of_not_ge hle))
        refine ⟨queue', ?_, hheap⟩
        simpa [h.time (k := j) (by omega) hjs, hle, hswap] using hloop
    · rw [if_neg hkid]
      exact ⟨q.queue, rfl, a, h, hbij, horder.isHeap fun i hi _ hik => by omega⟩

/-- **Spec lemma** of `fixDown`. -/
theorem fixDown_spec (h : Arranged q a) (hbij : Set.BijOn a (Set.Icc 1 q.size) s) (hk : 1 ≤ k)
    (horder : DownOrder (q.key a) q.size k) :
    ∃ queue, q.fixDown k = some { q with queue := queue } ∧ Heaped { q with queue := queue } s :=
  fixDownLoop_spec q.size h hbij (by omega) hk horder

/-- `fixUp` leaves a key that is in order. -/
theorem fixUp_of_le (h : Arranged q a) (hk : 1 ≤ k) (hks : k ≤ q.size)
    (hle : 2 ≤ k → q.key a (k / 2) ≤ q.key a k) : q.fixUp k = some q := by
  rw [TaskQueue.fixUp, TaskQueue.fixUpLoop]
  by_cases hroot : k > 1
  · have hle' := hle hroot
    rw [if_pos hroot, h.time (k := k / 2) (by omega) (by omega), h.time hk hks]
    simp [hle']
  · rw [if_neg hroot]

/-- `fixDown` leaves a key that is in order. -/
theorem fixDown_of_le (h : Arranged q a) (hk : 1 ≤ k)
    (hle : ∀ i ≤ q.size, i / 2 = k → q.key a k ≤ q.key a i) : q.fixDown k = some q := by
  rw [TaskQueue.fixDown, TaskQueue.fixDownLoop]
  by_cases hkid : 2 * k ≤ q.size
  · obtain ⟨j, hsmallest, hj, hjs, -⟩ := smallestKid_spec h hk hkid
    have hle' := hle j hjs hj
    rw [if_pos hkid, hsmallest, h.time hk (by omega)]
    simp [h.time (k := j) (by omega) hjs, hle']
  · rw [if_neg hkid]

end CldcVm.TimerQueue
