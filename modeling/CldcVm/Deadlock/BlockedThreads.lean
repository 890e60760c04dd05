import CldcVm.Deadlock.DeadlockFinder

/-!
# The nodes of the deadlock finder

Results:

* `blockedThreads_spec`: the list has a node for the first waiter of each monitor.
-/

namespace CldcVm.Deadlock

/-! ## Chains -/

/-- The threads from the start on, along the links. -/
def IsChain (link : Thread → Option Thread) : Option Thread → List Thread → Prop
  | start, [] => start = none
  | start, t :: ts => start = some t ∧ IsChain link (link t) ts

variable {link link' : Thread → Option Thread} {start : Option Thread} {t : Thread}
  {ts ts' : List Thread} {st : State} {lock : StackLock}

theorem IsChain.unique (h : IsChain link start ts) (h' : IsChain link start ts') : ts = ts' := by
  induction ts generalizing start ts' with
  | nil =>
    match ts' with
    | [] => rfl
    | t :: ts' =>
      have hnone : start = none := h
      rw [hnone] at h'
      exact absurd h'.1 (by simp)
  | cons t ts ih =>
    match ts' with
    | [] =>
      have hnone : start = none := h'
      rw [hnone] at h
      exact absurd h.1 (by simp)
    | u :: ts' =>
      obtain rfl := Option.some.inj (h.1.symm.trans h'.1)
      rw [ih h.2 h'.2]

/-- The thread is in the chain of the waiters of the lock. -/
def State.Waits (st : State) (lock : StackLock) (t : Thread) : Prop :=
  ∃ ts, IsChain st.nextWaiting lock.waiters ts ∧ t ∈ ts

/-! ## The list -/

/-- The stack locks of all threads. -/
def State.stackLocks (st : State) : List StackLock :=
  st.globalThreadlist.flatMap fun t => (st.frames t).flatten

/-- The waiter of the lock for which there is a node. -/
def blockedBy (lock : StackLock) : List Thread :=
  if lock.owner ≠ none ∧ lock.rawNear &&& 2 ≠ 0 then lock.waiters.toList else []

/-- What holds of the links when the finder is called. A lock with an owner has the mark of waiters
if there are any; they are linked by `next_waiting`, and no thread waits for two locks. A thread
that does not execute has no frames, and one that waits on a condition owns no lock that others
wait for. -/
structure Consistent (st : State) : Prop where
  chains : ∀ lock ∈ st.stackLocks, lock.owner ≠ none →
    ∃ ts, IsChain st.nextWaiting lock.waiters ts ∧ ∀ t ∈ ts, st.next t = none
  marked : ∀ lock ∈ st.stackLocks, lock.owner ≠ none →
    (lock.rawNear &&& 2 ≠ 0 ↔ lock.waiters ≠ none)
  apart : st.stackLocks.Pairwise fun a b =>
    a.owner ≠ none → b.owner ≠ none → ∀ t, ¬(st.Waits a t ∧ st.Waits b t)
  frames : ∀ t, st.lastJavaSp t = 0 → st.frames t = []
  waiting : ∃ heads, IsChain st.nextWaiting st.schedulerWaiting heads ∧ ∀ head ∈ heads, ∃ ts,
    IsChain st.next (some head) ts ∧ ∀ t ∈ ts, ∀ lock ∈ (st.frames t).flatten, blockedBy lock = []

/-- The nodes of the locks that have been looked at. -/
structure Built (locks : List StackLock) (list : List BlockedThread) : Prop where
  threads : list.map BlockedThread.thread = (locks.flatMap blockedBy).reverse
  nodes : ∀ bt ∈ list, bt.sl ∈ locks ∧ bt.sl.owner ≠ none ∧ bt.sl.waiters = some bt.thread

variable {locks locks' : List StackLock} {list : List BlockedThread}

theorem Built.append_nil (h : Built locks list) (hnone : ∀ lock ∈ locks', blockedBy lock = []) :
    Built (locks ++ locks') list where
  threads := by
    rw [List.flatMap_append, h.threads, List.flatMap_eq_nil_iff.2 hnone, List.append_nil]
  nodes bt hbt := ⟨List.mem_append_left _ (h.nodes bt hbt).1, (h.nodes bt hbt).2⟩

/-- **Step lemma**: the first waiter of a lock. -/
theorem Built.new (h : Built locks list) (howner : lock.owner ≠ none)
    (hnear : lock.rawNear &&& 2 ≠ 0) (hwaiters : lock.waiters = some t) :
    Built (locks ++ [lock]) (newBlockedThread t lock list) where
  threads := by
    have hlock : blockedBy lock = [t] := by rw [blockedBy, if_pos ⟨howner, hnear⟩, hwaiters]; rfl
    simp [newBlockedThread, h.threads, hlock]
  nodes bt hbt := by
    obtain rfl | hbt := List.mem_cons.1 hbt
    · exact ⟨by simp, howner, hwaiters⟩
    · exact ⟨List.mem_append_left _ (h.nodes bt hbt).1, (h.nodes bt hbt).2⟩

/-- A lock as a frame leaves it. -/
def LockOk (st : State) (lock : StackLock) : Prop :=
  lock.owner ≠ none → (lock.rawNear &&& 2 ≠ 0 → ∃ t, lock.waiters = some t ∧ st.next t = none)

/-- **Run lemma**: the locks of a frame. -/
theorem processFrame_spec (hlocks : ∀ lock ∈ locks', LockOk st lock) (h : Built locks list) :
    ∃ list', (∀ fuel ≥ 1, processFrame st fuel locks' list = some list') ∧
      Built (locks ++ locks') list' ∧
      ((∀ lock ∈ locks', blockedBy lock = []) → list' = list) := by
  induction locks' generalizing locks list with
  | nil =>
    refine ⟨list, fun fuel _ => rfl, ?_, fun _ => rfl⟩
    rwa [List.append_nil]
  | cons lock rest ih =>
    have hrest : ∀ lock ∈ rest, LockOk st lock :=
      fun l hl => hlocks l (List.mem_cons_of_mem lock hl)
    have hassoc : locks ++ lock :: rest = locks ++ [lock] ++ rest := by simp
    rw [hassoc]
    by_cases hblocked : lock.owner ≠ none ∧ lock.rawNear &&& 2 ≠ 0
    · obtain ⟨howner, hnear⟩ := hblocked
      obtain ⟨t, hwaiters, hnext⟩ := hlocks lock List.mem_cons_self howner hnear
      obtain ⟨list', hrun, hbuilt, -⟩ := ih hrest (h.new howner hnear hwaiters)
      refine ⟨list', fun fuel hfuel => ?_, hbuilt, fun hall => ?_⟩
      swap
      · have hlock := hall lock List.mem_cons_self
        rw [blockedBy, if_pos ⟨howner, hnear⟩, hwaiters] at hlock
        simp at hlock
      have hone : processWaiters st lock fuel lock.waiters list =
          some (newBlockedThread t lock list) := by
        obtain ⟨n, rfl⟩ : ∃ n, fuel = n + 1 := ⟨fuel - 1, by omega⟩
        rw [hwaiters, processWaiters, hnext]
        cases n <;> rfl
      rw [processFrame, if_neg howner, if_neg hnear, hone]
      exact hrun fuel hfuel
    · have hnone : blockedBy lock = [] := if_neg hblocked
      have hbuilt₁ : Built (locks ++ [lock]) list := h.append_nil (by simpa using hnone)
      obtain ⟨list', hrun, hbuilt, hsame⟩ := ih hrest hbuilt₁
      refine ⟨list', fun fuel hfuel => ?_, hbuilt,
        fun hall => hsame fun l hl => hall l (List.mem_cons_of_mem lock hl)⟩
      rw [processFrame]
      by_cases howner : lock.owner = none
      · rw [if_pos howner]
        exact hrun fuel hfuel
      · have hnear : lock.rawNear &&& 2 = 0 := by
          by_contra hne
          exact hblocked ⟨howner, hne⟩
        rw [if_neg howner, if_pos hnear]
        exact hrun fuel hfuel

theorem processFrames_spec {frames : List (List StackLock)}
    (hlocks : ∀ lock ∈ frames.flatten, LockOk st lock) (h : Built locks list) :
    ∃ list', (∀ fuel ≥ 1, processFrames st fuel frames list = some list') ∧
      Built (locks ++ frames.flatten) list' ∧
      ((∀ lock ∈ frames.flatten, blockedBy lock = []) → list' = list) := by
  induction frames generalizing locks list with
  | nil =>
    refine ⟨list, fun fuel _ => rfl, ?_, fun _ => rfl⟩
    rwa [List.flatten_nil, List.append_nil]
  | cons frame frames ih =>
    rw [List.flatten_cons] at hlocks ⊢
    obtain ⟨list₁, hrun₁, h₁, hsame₁⟩ :=
      processFrame_spec (fun lock hl => hlocks lock (List.mem_append_left _ hl)) h
    obtain ⟨list₂, hrun₂, h₂, hsame₂⟩ :=
      ih (fun lock hl => hlocks lock (List.mem_append_right _ hl)) h₁
    refine ⟨list₂, fun fuel hfuel => ?_, by rwa [← List.append_assoc], fun hall => ?_⟩
    · rw [processFrames, hrun₁ fuel hfuel]
      exact hrun₂ fuel hfuel
    · rw [hsame₂ fun lock hl => hall lock (List.mem_append_right _ hl),
        hsame₁ fun lock hl => hall lock (List.mem_append_left _ hl)]

theorem isWaitingFor_spec (hchain : IsChain st.next start ts) :
    ∀ fuel ≥ ts.length, ∃ b, isWaitingFor st t fuel start = some b ∧ (b = true → t ∈ ts) := by
  induction ts generalizing start with
  | nil =>
    have hnone : start = none := hchain
    subst hnone
    intro fuel _
    refine ⟨false, ?_, by simp⟩
    cases fuel <;> rfl
  | cons u ts ih =>
    obtain ⟨rfl, hrest⟩ := hchain
    intro fuel hfuel
    obtain ⟨n, rfl⟩ : ∃ n, fuel = n + 1 := ⟨fuel - 1, by simp at hfuel; omega⟩
    rw [isWaitingFor]
    by_cases hut : u = t
    · rw [if_pos hut]
      exact ⟨true, rfl, fun _ => by simp [hut]⟩
    · rw [if_neg hut]
      obtain ⟨b, hb, hmem⟩ := ih hrest n (by simpa using hfuel)
      exact ⟨b, hb, fun h => List.mem_cons_of_mem u (hmem h)⟩

/-- **Run lemma**: the search among the threads that wait ends, and it finds no thread with a lock
that others wait for. -/
theorem isWaiting_spec {P : Thread → Prop} {heads : List Thread}
    (hheads : IsChain st.nextWaiting start heads)
    (hwaiting : ∀ head ∈ heads, ∃ ts, IsChain st.next (some head) ts ∧ ∀ t ∈ ts, P t) :
    ∃ N, ∀ innerFuel ≥ N, ∀ fuel ≥ heads.length, ∀ t,
      ∃ b, isWaiting st t innerFuel fuel start = some b ∧ (b = true → P t) := by
  induction heads generalizing start with
  | nil =>
    have hnone : start = none := hheads
    subst hnone
    refine ⟨0, fun innerFuel _ fuel _ t => ⟨false, ?_, by simp⟩⟩
    cases fuel <;> rfl
  | cons head heads ih =>
    obtain ⟨rfl, hrest⟩ := hheads
    obtain ⟨ts, hts, hP⟩ := hwaiting head List.mem_cons_self
    obtain ⟨N, hN⟩ := ih hrest fun h hh => hwaiting h (List.mem_cons_of_mem head hh)
    refine ⟨max N ts.length, fun innerFuel hinner fuel hfuel t => ?_⟩
    obtain ⟨n, rfl⟩ : ∃ n, fuel = n + 1 := ⟨fuel - 1, by simp at hfuel; omega⟩
    obtain ⟨b, hb, hmem⟩ := isWaitingFor_spec (t := t) hts innerFuel (by omega)
    rw [isWaiting, hb]
    match b with
    | true => exact ⟨true, rfl, fun _ => hP t (hmem rfl)⟩
    | false => exact hN innerFuel (by omega) n (by simpa using hfuel) t

theorem Consistent.lockOk (hst : Consistent st) (hlock : lock ∈ st.stackLocks) :
    LockOk st lock := by
  intro howner hnear
  obtain ⟨ts, hts, hnext⟩ := hst.chains lock hlock howner
  have hwaiters := (hst.marked lock hlock howner).1 hnear
  match ts with
  | [] => exact absurd hts hwaiters
  | t :: ts => exact ⟨t, hts.1, hnext t List.mem_cons_self⟩

/-- **Spec lemma**: one thread. -/
theorem processThread_spec (hst : Consistent st) (ht : t ∈ st.globalThreadlist)
    (h : Built locks list) :
    ∃ list' N, (∀ fuel ≥ N, processThread st fuel t list = some list') ∧
      Built (locks ++ (st.frames t).flatten) list' := by
  have hlocks : ∀ lock ∈ (st.frames t).flatten, LockOk st lock :=
    fun lock hl => hst.lockOk (List.mem_flatMap.2 ⟨t, ht, hl⟩)
  obtain ⟨heads, hheads, hwaiting⟩ := hst.waiting
  obtain ⟨N, hN⟩ := isWaiting_spec hheads hwaiting
  obtain ⟨list', hrun, hbuilt, hsame⟩ := processFrames_spec hlocks h
  refine ⟨list', max (max N heads.length) 1, fun fuel hfuel => ?_, hbuilt⟩
  rw [processThread]
  by_cases hsp : st.lastJavaSp t = 0
  · rw [if_pos hsp, hsame]
    simp [hst.frames t hsp]
  · obtain ⟨b, hb, hnone⟩ := hN fuel (by omega) fuel (by omega) t
    rw [if_neg hsp, hb]
    match b with
    | true => rw [hsame (hnone rfl)]
    | false => exact hrun fuel (by omega)

/-- **Run lemma**: the loop over the threads. -/
theorem processThreads_spec (hst : Consistent st) {threads : List Thread}
    (hthreads : ∀ t ∈ threads, t ∈ st.globalThreadlist) (h : Built locks list) :
    ∃ list' N, (∀ fuel ≥ N, processThreads st fuel threads list = some list') ∧
      Built (locks ++ threads.flatMap fun t => (st.frames t).flatten) list' := by
  induction threads generalizing locks list with
  | nil =>
    refine ⟨list, 0, fun fuel _ => rfl, ?_⟩
    rwa [List.flatMap_nil, List.append_nil]
  | cons t threads ih =>
    obtain ⟨list₁, N₁, hrun₁, h₁⟩ := processThread_spec hst (hthreads t List.mem_cons_self) h
    obtain ⟨list₂, N₂, hrun₂, h₂⟩ :=
      ih (fun u hu => hthreads u (List.mem_cons_of_mem t hu)) h₁
    refine ⟨list₂, max N₁ N₂, fun fuel hfuel => ?_, ?_⟩
    · rw [processThreads, hrun₁ fuel (by omega)]
      exact hrun₂ fuel (by omega)
    · rwa [List.flatMap_cons, ← List.append_assoc]

/-- **Main theorem**: the list has a node for the first waiter of each lock. -/
theorem blockedThreads_spec (hst : Consistent st) :
    ∃ list N, (∀ fuel ≥ N, blockedThreads st fuel = some list) ∧ Built st.stackLocks list := by
  have hempty : Built [] [] := ⟨rfl, fun bt hbt => absurd hbt (by simp)⟩
  exact processThreads_spec hst (fun t ht => ht) hempty

end CldcVm.Deadlock
