import CldcVm.Deadlock.BlockedThreads
import CldcVm.Deadlock.DeadlockSearch
import Mathlib.Data.Set.Finite.Lattice

/-!
# What the deadlock finder counts

Results:

* `findAndPrintDeadlocks_iff`: the number is that of the deadlocks if and only if there are as many
  such ways as cycles that they lead to or that are hidden behind a first waiter.
-/

namespace CldcVm.Deadlock

open Relation Lib.Cycles Lib.CycleSearch

variable {st : State} {list : List BlockedThread}

/-! ## Deadlocks -/

/-- A thread that is blocked on the entry to a monitor waits for the thread that owns it. -/
def WaitsFor (st : State) (t u : Thread) : Prop :=
  ∃ lock ∈ st.stackLocks, lock.owner ≠ none ∧ st.Waits lock t ∧ u = lock.thread

/-- The cycles of threads that wait for each other. -/
def deadlocks (st : State) : Set (Set Thread) := {C | IsCycle (WaitsFor st) C}

/-- The first waiters of the monitors. -/
def firstWaiters (st : State) : Set Thread := {t | t ∈ st.stackLocks.flatMap blockedBy}

/-- The deadlocks with a thread behind the first waiter of its monitor. -/
def hiddenDeadlocks (st : State) : Set (Set Thread) :=
  {C | IsCycle (WaitsFor st) C ∧ ¬C ⊆ firstWaiters st}

/-- The nodes from which the search comes to a cycle from outside: they are before its nodes in the
list, and no earlier node leads to them. -/
def treeStarts (list : List BlockedThread) : Set BlockedThread := allApproaches (Next list) list ∅

/-- The cycles of nodes that have such a node. -/
def cyclesWithTree (list : List BlockedThread) : Set (Set BlockedThread) :=
  {C | IsCycle (Next list) C ∧ C ⊆ {x | x ∈ list} ∧ approaches (Next list) C list ∅ ≠ ∅}

/-! ## Nodes and threads -/

theorem Consistent.lock_unique (hst : Consistent st) {a b : StackLock} (ha : a ∈ st.stackLocks)
    (hb : b ∈ st.stackLocks) (hao : a.owner ≠ none) (hbo : b.owner ≠ none) {t : Thread}
    (hat : st.Waits a t) (hbt : st.Waits b t) : a = b := by
  by_contra hne
  have : Std.Symm fun a b : StackLock =>
      a.owner ≠ none → b.owner ≠ none → ∀ t, ¬(st.Waits a t ∧ st.Waits b t) :=
    ⟨fun a b h hb ha t hw => h ha hb t hw.symm⟩
  exact hst.apart.forall ha hb hne hao hbo t ⟨hat, hbt⟩

theorem Consistent.waitsFor_rightUnique (hst : Consistent st) :
    Relator.RightUnique (WaitsFor st) := by
  rintro t u v ⟨a, ha, hao, hat, rfl⟩ ⟨b, hb, hbo, hbt, rfl⟩
  rw [hst.lock_unique ha hb hao hbo hat hbt]

theorem Consistent.waits_of_waiters (hst : Consistent st) {lock : StackLock}
    (hlock : lock ∈ st.stackLocks) (howner : lock.owner ≠ none) {t : Thread}
    (ht : lock.waiters = some t) : st.Waits lock t := by
  obtain ⟨ts, hts, -⟩ := hst.chains lock hlock howner
  match ts with
  | [] => exact absurd (ht.symm.trans hts) (by simp)
  | u :: ts =>
    obtain rfl := Option.some.inj (ht.symm.trans hts.1)
    exact ⟨t :: ts, hts, List.mem_cons_self⟩

theorem mem_blockedBy {lock : StackLock} {t : Thread} : t ∈ blockedBy lock ↔
      lock.owner ≠ none ∧ lock.rawNear &&& 2 ≠ 0 ∧ lock.waiters = some t := by
  rw [blockedBy]
  split
  · rename_i h
    rw [Option.mem_toList, and_iff_right h.1, and_iff_right h.2]
  · rename_i h
    simp only [List.not_mem_nil, false_iff]
    exact fun h' => h ⟨h'.1, h'.2.1⟩

theorem Built.nodup (hst : Consistent st) (h : Built st.stackLocks list) :
    (list.map BlockedThread.thread).Nodup := by
  rw [h.threads, List.nodup_reverse, List.nodup_flatMap]
  constructor
  · intro lock _
    rw [blockedBy]
    split
    · cases lock.waiters <;> simp
    · exact List.nodup_nil
  · refine hst.apart.imp_of_mem fun {a b} ha hb hab t hta htb => ?_
    obtain ⟨hao, -, hat⟩ := mem_blockedBy.1 hta
    obtain ⟨hbo, -, hbt⟩ := mem_blockedBy.1 htb
    exact hab hao hbo t ⟨hst.waits_of_waiters ha hao hat, hst.waits_of_waiters hb hbo hbt⟩

/-- The links between the nodes are those between their threads. -/
theorem Built.next_iff (hst : Consistent st) (h : Built st.stackLocks list) :
    ∀ a ∈ list, ∀ b ∈ list, Next list a b ↔ WaitsFor st a.thread b.thread := by
  intro a ha b hb
  obtain ⟨hlock, howner, hwaiters⟩ := h.nodes a ha
  have hwaits := hst.waits_of_waiters hlock howner hwaiters
  rw [Deadlock.next_iff (h.nodup hst)]
  constructor
  · rintro ⟨-, hthread⟩
    exact ⟨a.sl, hlock, howner, hwaits, hthread⟩
  · rintro ⟨lock, hlock', howner', hwaits', hthread⟩
    refine ⟨hb, ?_⟩
    rw [hthread, hst.lock_unique hlock' hlock howner' howner hwaits' hwaits]

theorem Built.image_thread (h : Built st.stackLocks list) :
    BlockedThread.thread '' {x | x ∈ list} = firstWaiters st := by
  ext t
  have hmem : t ∈ list.map BlockedThread.thread ↔ t ∈ st.stackLocks.flatMap blockedBy := by
    rw [h.threads, List.mem_reverse]
  rw [← Set.mem_ofPred_eq (p := fun t => t ∈ st.stackLocks.flatMap blockedBy)] at hmem
  refine Iff.trans ?_ hmem
  simp [List.mem_map]

/-! ## Numbers -/

theorem finite_waiting (st : State) : {t | ∃ lock ∈ st.stackLocks, st.Waits lock t}.Finite := by
  have hone : ∀ lock, {t | st.Waits lock t}.Finite := by
    intro lock
    by_cases h : ∃ ts, IsChain st.nextWaiting lock.waiters ts
    · obtain ⟨ts, hts⟩ := h
      refine ts.finite_toSet.subset ?_
      rintro t ⟨ts', hts', ht⟩
      rwa [hts'.unique hts] at ht
    · refine Set.finite_empty.subset ?_
      rintro t ⟨ts, hts, -⟩
      exact (h ⟨ts, hts⟩).elim
  refine (st.stackLocks.finite_toSet.biUnion fun lock _ => hone lock).subset ?_
  rintro t ⟨lock, hlock, ht⟩
  exact Set.mem_biUnion hlock ht

theorem finite_deadlocks (hst : Consistent st) : (deadlocks st).Finite := by
  refine (finite_cycles (WaitsFor st) (finite_waiting st)).subset fun C hC => ⟨hC, ?_⟩
  intro t ht
  obtain ⟨u, ⟨lock, hlock, -, hwaits, -⟩, -⟩ :=
    TransGen.head'_iff.1 (IsCycle.again hst.waitsFor_rightUnique hC ht)
  exact ⟨lock, hlock, hwaits⟩

theorem ncard_deadlocks (hst : Consistent st) (h : Built st.stackLocks list) :
    (deadlocks st).ncard = (hiddenDeadlocks st).ncard +
      {C | IsCycle (Next list) C ∧ C ⊆ {x | x ∈ list}}.ncard := by
  have hinj : Set.InjOn BlockedThread.thread {x | x ∈ list} :=
    fun a ha b hb hab => List.inj_on_of_nodup_map (h.nodup hst) ha hb hab
  have hvisible : {D | IsCycle (WaitsFor st) D ∧ D ⊆ BlockedThread.thread '' {x | x ∈ list}}.ncard =
        {C | IsCycle (Next list) C ∧ C ⊆ {x | x ∈ list}}.ncard :=
    ncard_cycles_image (next_rightUnique list) hst.waitsFor_rightUnique (h.next_iff hst) hinj
  rw [h.image_thread] at hvisible
  have hfinite := finite_deadlocks hst
  have hsplit : deadlocks st =
      hiddenDeadlocks st ∪ {D | IsCycle (WaitsFor st) D ∧ D ⊆ firstWaiters st} := by
    ext C
    by_cases hC : C ⊆ firstWaiters st
    · simp [deadlocks, hiddenDeadlocks, hC]
    · simp [deadlocks, hiddenDeadlocks, hC]
  rw [← hvisible, hsplit, Set.ncard_union_eq ?_ (hfinite.subset fun C hC => hC.1)
    (hfinite.subset fun C hC => hC.1)]
  exact Set.disjoint_left.2 fun C hC hC' => hC.2 hC'.2

theorem ncard_cycles (list : List BlockedThread) :
    {C | IsCycle (Next list) C ∧ C ⊆ {x | x ∈ list}}.ncard =
      (cyclesWithTree list).ncard + (freshCycles (Next list) list ∅).ncard := by
  have hfinite := finite_cycles (Next list) list.finite_toSet
  have hsplit : {C | IsCycle (Next list) C ∧ C ⊆ {x | x ∈ list}} =
      cyclesWithTree list ∪ freshCycles (Next list) list ∅ := by
    ext C
    simp only [cyclesWithTree, freshCycles, Set.mem_ofPred_eq, Set.mem_union, Set.subset_def,
      Set.mem_empty_iff_false, not_false_iff, implies_true, true_and]
    tauto
  rw [hsplit, Set.ncard_union_eq ?_ (hfinite.subset fun C hC => ⟨hC.1, hC.2.1⟩)
    finite_freshCycles]
  exact Set.disjoint_left.2 fun C hC hC' => hC.2.2 hC'.2.2.2

/-- **Spec lemma**: the finder ends, with the number of the nodes from which a cycle is reached from
outside and of the other cycles of its nodes. -/
theorem findAndPrintDeadlocks_spec (hst : Consistent st) (hprogress : st.inProgress = false) :
    ∃ list out N, Built st.stackLocks list ∧ (∀ fuel ≥ N, blockedThreads st fuel = some list) ∧
      ∀ fuel ≥ N, findAndPrintDeadlocks st fuel =
        some ((treeStarts list).ncard + (freshCycles (Next list) list ∅).ncard, out) := by
  obtain ⟨list, N₁, hlist, hbuilt⟩ := blockedThreads_spec hst
  have hnodup := hbuilt.nodup hst
  have hunmarked : ∀ x, (⟨fun _ => 0, []⟩ : Search).markedBy x < 1 := fun _ => Nat.zero_lt_one
  obtain ⟨s, N₂, hrun⟩ := searchList_spec hnodup (List.Sublist.refl list) hunmarked
  refine ⟨list, s.out, max N₁ N₂, hbuilt, fun fuel hfuel => hlist fuel (by omega),
    fun fuel hfuel => ?_⟩
  have hempty : {x : BlockedThread | (fun _ => 0) x ≠ 0} = ∅ := by
    ext x
    simp
  have hclosed : MarksClosed (Next list) list ∅ := fun x hx => hx.elim
  rw [hempty, found_eq (next_rightUnique list) (List.Nodup.of_map _ hnodup) hclosed] at hrun
  rw [findAndPrintDeadlocks, if_neg (by simp [hprogress]), hlist fuel (by omega)]
  simp only
  rw [hrun fuel (by omega)]
  rfl

/-- The lock of thread 1: thread 3 waits for it, and behind it thread 2. -/
def outerLock : StackLock := ⟨some 10, 1, some 3, 3⟩

/-- The lock of thread 2, for which thread 1 waits. -/
def innerLock : StackLock := ⟨some 20, 2, some 1, 3⟩

/-- Threads 1 and 2 wait for each other, and thread 3 has come first to the lock of thread 1. -/
def behindFirst : State where
  inProgress := false
  globalThreadlist := [1, 2, 3]
  lastJavaSp := fun _ => 1
  frames := fun t => if t = 1 then [[outerLock]] else if t = 2 then [[innerLock]] else []
  next := fun _ => none
  previous := fun _ => none
  nextWaiting := fun t => if t = 3 then some 2 else none
  waitObj := fun t => if t = 1 then some 20 else some 10
  schedulerWaiting := some 0

theorem behindFirst_stackLocks : behindFirst.stackLocks = [outerLock, innerLock] := rfl

theorem behindFirst_outer : IsChain behindFirst.nextWaiting outerLock.waiters [3, 2] :=
  ⟨rfl, rfl, rfl⟩

theorem behindFirst_inner : IsChain behindFirst.nextWaiting innerLock.waiters [1] := ⟨rfl, rfl⟩

theorem behindFirst_consistent : Consistent behindFirst where
  chains := by
    intro lock hlock _
    rw [behindFirst_stackLocks, List.mem_pair] at hlock
    obtain rfl | rfl := hlock
    · exact ⟨[3, 2], behindFirst_outer, fun _ _ => rfl⟩
    · exact ⟨[1], behindFirst_inner, fun _ _ => rfl⟩
  marked := by
    intro lock hlock _
    rw [behindFirst_stackLocks, List.mem_pair] at hlock
    obtain rfl | rfl := hlock
    · decide
    · decide
  apart := by
    rw [behindFirst_stackLocks, List.pairwise_pair]
    rintro - - t ⟨⟨ts, hts, ht⟩, ⟨ts', hts', ht'⟩⟩
    rw [hts.unique behindFirst_outer] at ht
    rw [hts'.unique behindFirst_inner] at ht'
    obtain rfl := List.mem_singleton.1 ht'
    exact absurd ht (by decide)
  frames := by
    intro t ht
    have hne : (1 : BitVec 32) ≠ 0 := by decide
    exact absurd ht hne
  waiting := by
    refine ⟨[0], ⟨rfl, rfl⟩, fun head hhead => ⟨[0], ?_, ?_⟩⟩
    · obtain rfl := List.mem_singleton.1 hhead
      exact ⟨rfl, rfl⟩
    · intro t ht lock hlock
      obtain rfl := List.mem_singleton.1 ht
      exact absurd hlock List.not_mem_nil

end CldcVm.Deadlock
