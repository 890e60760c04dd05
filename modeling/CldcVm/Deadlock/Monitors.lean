import CldcVm.Deadlock.BlockedThreads

/-!
# Monitors

The slow paths of monitor enter and exit (`share/runtime/Synchronizer.cpp`, lines 30–62 and
113–245), with the chain of the threads that wait for a lock. A locked object has its near in the
stack lock of its owner, and the stack lock has the first of the waiters. Where a guarantee fails
there is no result. The lock bits of the copied near, the places in the priority queues and the
proxies of interned strings are left out.

Result: `queues_of_run`: over any interleaving the threads of an object are a queue, the owner
first: an exit hands the lock to the thread that has waited longest.
-/

namespace CldcVm.Monitors

open Deadlock (Thread)
open Function (update update_self update_of_ne update_apply update_idem)

/-- The near of an object, or the stack lock that has it. -/
inductive Near where
  | plain (near : ℕ)
  | locked (lock : ℕ)

structure StackLock where
  owner : Option ℕ
  thread : Thread
  waiters : Option Thread
  realNear : Option ℕ

/-- `active` is `is_in_some_active_queue`. -/
structure State where
  threads : Deadlock.State
  active : Thread → Bool
  waitStackLock : Thread → Option ℕ
  near : ℕ → Near
  locks : ℕ → StackLock

namespace State

def setOwner (st : State) (lock : ℕ) (owner : Option ℕ) : State :=
  { st with locks := update st.locks lock { st.locks lock with owner := owner } }

/-- `StackLock::lock`. -/
def lock (st : State) (lock : ℕ) (thread : Thread) (obj : ℕ) : Option State :=
  if (st.locks lock).owner ≠ none ∧ (st.locks lock).owner ≠ some obj then none
  else
    match st.near obj with
    | .locked _ => none
    | .plain near => some { st with
        near := update st.near obj (.locked lock)
        locks := update st.locks lock ⟨some obj, thread, none, some near⟩ }

/-- `Synchronizer::enter`. -/
def enter (st : State) (fuel : ℕ) (thread : Thread) (lock : ℕ) : Option State :=
  match st.active thread, (st.locks lock).owner with
  | true, some obj =>
    match st.near obj with
    | .plain _ => st.lock lock thread obj
    | .locked held =>
      if (st.locks held).thread = thread then none
      else
        let st := { st.setOwner lock none with
          waitStackLock := update st.waitStackLock thread (some lock) }
        match st.threads.addSyncThread fuel thread (st.locks held).waiters obj with
        | none => none
        | some (head, threads) => some { st with
            threads := threads
            active := update st.active thread false
            locks := update st.locks held { st.locks held with waiters := head } }
  | _, _ => none

/-- `signal_waiters`, for the waiters of the lock. -/
def signalWaiters (st : State) : (waiters : Option Thread) → Option State
  | none => some st
  | some first =>
    match st.threads.waitObj first, st.waitStackLock first with
    | some obj, some lock =>
      match { st with active := update st.active first true }.lock lock first obj with
      | none => none
      | some st => some { st with
          locks :=
            match st.threads.nextWaiting first with
            | none => st.locks
            | some next => update st.locks lock { st.locks lock with waiters := some next }
          waitStackLock := update st.waitStackLock first none
          threads := { st.threads with
            nextWaiting := update st.threads.nextWaiting first none
            waitObj := update st.threads.waitObj first none } }
    | _, _ => none

/-- `Synchronizer::exit`; `signal_waiters` clears the real near. -/
def exit (st : State) (lock : ℕ) : Option State :=
  match st.locks lock with
  | ⟨some obj, thread, waiters, some near⟩ => { st with
      near := update st.near obj (.plain near)
      locks := update st.locks lock ⟨none, thread, waiters, none⟩ }.signalWaiters waiters
  | _ => none

end State

/-! ## Runs -/

/-- The caller of `enter` makes the object the owner of the stack lock. -/
inductive Op where
  | enter (thread : Thread) (lock obj : ℕ)
  | exit (lock : ℕ)

namespace Op

def exec (fuel : ℕ) (st : State) : Op → Option State
  | enter thread lock obj => (st.setOwner lock (some obj)).enter fuel thread lock
  | exit lock => st.exit lock

/-- A thread that runs enters the monitor of an object that it does not own, with a new stack
lock; a lock that is held is left. -/
def Fits (st : State) : Op → Prop
  | enter thread lock obj => st.active thread = true ∧
      (∀ held, st.near obj = .locked held → (st.locks held).thread ≠ thread) ∧
      (∀ o, st.near o ≠ .locked lock) ∧ ∀ t, st.waitStackLock t ≠ some lock
  | exit lock => ∃ obj, st.near obj = .locked lock

/-- What an operation is on the queues of the objects. -/
def Spec (st : State) (q q' : ℕ → List Thread) : Op → Prop
  | enter thread _ obj => q' = update q obj (q obj ++ [thread])
  | exit lock => ∃ obj, st.near obj = .locked lock ∧ q' = update q obj (q obj).tail

end Op

/-- Each operation fits when it is executed. -/
def AllFit (fuel : ℕ) : List Op → State → Prop
  | [], _ => True
  | op :: ops, st => op.Fits st ∧ ∀ next, op.exec fuel st = some next → AllFit fuel ops next

/-- The operations one after the other, on the state and on the queues. -/
def Steps (fuel : ℕ) : List Op → State → (ℕ → List Thread) → State → (ℕ → List Thread) → Prop
  | [], st, q, st', q' => st = st' ∧ q = q'
  | op :: ops, st, q, st', q' => ∃ next nextq, op.exec fuel st = some next ∧ op.Spec st q nextq ∧
    Steps fuel ops next nextq st' q'

/-- The queue of an object: its owner, and the threads that wait for it. -/
structure Refines (near : ℕ → ℕ) (st : State) (q : ℕ → List Thread) : Prop where
  free : ∀ obj, q obj = [] → st.near obj = .plain (near obj)
  held : ∀ obj t ts, q obj = t :: ts → ∃ lock waiters, st.near obj = .locked lock ∧
    st.locks lock = ⟨some obj, t, waiters, some (near obj)⟩ ∧
    Deadlock.IsChain st.threads.nextWaiting waiters ts
  waits : ∀ obj, ∀ t ∈ (q obj).tail, st.active t = false ∧ st.threads.waitObj t = some obj ∧
    ∃ lock, st.waitStackLock t = some lock ∧ (st.locks lock).owner = none ∧
      ∀ o, st.near o ≠ .locked lock
  apart : ∀ t u lock, st.waitStackLock t = some lock → st.waitStackLock u = some lock → t = u
  nodup : ∀ obj, (q obj).Nodup
  inactive : ∀ t, st.active t = false → ∃ obj, t ∈ (q obj).tail

/-- No object is locked, and every thread runs. -/
def unlocked (threads : Deadlock.State) (near : ℕ → ℕ) (locks : ℕ → StackLock) : State :=
  ⟨threads, fun _ => true, fun _ => none, fun obj => .plain (near obj), locks⟩

variable {link link' : Thread → Option Thread} {start : Option Thread} {ts init : List Thread}
  {tail thread : Thread} {threads : Deadlock.State} {st : State} {near : ℕ → ℕ}
  {q : ℕ → List Thread} {fuel lock obj : ℕ}

/-! ## Chains -/

theorem isChain_congr (h : Deadlock.IsChain link start ts) (heq : ∀ t ∈ ts, link' t = link t) :
    Deadlock.IsChain link' start ts := by
  induction ts generalizing start with
  | nil => exact h
  | cons t ts ih =>
    obtain ⟨ht, hts⟩ := List.forall_mem_cons.mp heq
    exact ⟨h.1, ht ▸ ih h.2 hts⟩

theorem isChain_concat (h : Deadlock.IsChain link start (init ++ [tail]))
    (hnodup : (init ++ [tail]).Nodup) (hthread : thread ∉ init ++ [tail]) :
    Deadlock.IsChain (update (update link tail (some thread)) thread none) start
      (init ++ [tail] ++ [thread]) := by
  induction init generalizing start with
  | nil =>
    have hne : tail ≠ thread := fun heq => hthread (by simp [heq])
    exact ⟨h.1, by simp [hne], by simp [Deadlock.IsChain]⟩
  | cons t init ih =>
    obtain ⟨ht, hnodup⟩ := List.nodup_cons.mp hnodup
    rw [List.cons_append, List.mem_cons, not_or] at hthread
    refine ⟨h.1, ?_⟩
    have hne : t ≠ tail := fun heq => ht (by simp [heq])
    rw [update_of_ne (Ne.symm hthread.1), update_of_ne hne]
    exact ih h.2 hnodup hthread.2

/-- The walk along the chain ends at its last thread. -/
theorem lastWaiting_eq {head : Thread}
    (h : Deadlock.IsChain threads.nextWaiting (some head) (init ++ [tail]))
    (hfuel : init.length < fuel) : threads.lastWaiting fuel head = some tail := by
  obtain ⟨fuel, rfl⟩ := Nat.exists_eq_succ_of_ne_zero (Nat.ne_of_gt (Nat.zero_lt_of_lt hfuel))
  induction init generalizing head fuel with
  | nil =>
    obtain ⟨rfl, hnone⟩ : head = tail ∧ threads.nextWaiting tail = none :=
      ⟨Option.some.inj h.1, h.2⟩
    rw [Deadlock.State.lastWaiting, hnone]
  | cons t init ih =>
    obtain rfl : head = t := Option.some.inj h.1
    obtain ⟨fuel, rfl⟩ : ∃ n, fuel = n + 1 := ⟨fuel - 1, by grind⟩
    obtain ⟨next, hnext⟩ : ∃ next, threads.nextWaiting head = some next := by
      cases init with
      | nil => exact ⟨_, h.2.1⟩
      | cons u init => exact ⟨_, h.2.1⟩
    rw [Deadlock.State.lastWaiting, hnext]
    exact ih (hnext ▸ h.2) fuel (Nat.lt_of_succ_lt_succ hfuel)

/-- **Spec lemma**: the thread comes behind the threads that wait already. -/
theorem addSyncThread_spec (h : Deadlock.IsChain threads.nextWaiting start ts) (hnodup : ts.Nodup)
    (hthread : thread ∉ ts) (hfuel : ts.length ≤ fuel) :
    ∃ head threads', threads.addSyncThread fuel thread start obj = some (head, threads') ∧
      (∀ t, threads'.waitObj t = update threads.waitObj thread (some obj) t) ∧
      Deadlock.IsChain threads'.nextWaiting head (ts ++ [thread]) ∧
      ∀ t ∉ ts, t ≠ thread → threads'.nextWaiting t = threads.nextWaiting t := by
  rcases List.eq_nil_or_concat ts with rfl | ⟨init, tail, rfl⟩
  · obtain rfl : start = none := h
    exact ⟨thread, _, rfl, fun _ => rfl, ⟨rfl, update_self _ _ _⟩,
      fun t _ hne => update_of_ne hne _ _⟩
  · rw [List.concat_eq_append] at *
    obtain ⟨head, rfl⟩ : ∃ head, start = some head := by
      cases init with
      | nil => exact ⟨_, h.1⟩
      | cons t init => exact ⟨_, h.1⟩
    rw [List.length_append, List.length_singleton] at hfuel
    have hlast := @lastWaiting_eq init tail (threads.removeFromActive thread) fuel head h hfuel
    rw [Deadlock.State.addSyncThread]
    simp only [hlast]
    refine ⟨head, _, rfl, fun _ => rfl, isChain_concat h hnodup hthread, fun t ht hne => ?_⟩
    exact (update_of_ne hne _ _).trans (update_of_ne (fun heq => ht (by simp [heq])) _ _)

/-- **Spec lemma**: the first waiter gets the lock, and the others wait for it. -/
theorem signalWaiters_eq {first : Thread} {n : ℕ} (hobj : st.threads.waitObj first = some obj)
    (hlock : st.waitStackLock first = some lock) (howner : (st.locks lock).owner = none)
    (hnear : st.near obj = .plain n) :
    st.signalWaiters (some first) = some {
      threads := { st.threads with
        nextWaiting := update st.threads.nextWaiting first none
        waitObj := update st.threads.waitObj first none }
      active := update st.active first true
      waitStackLock := update st.waitStackLock first none
      near := update st.near obj (.locked lock)
      locks := update st.locks lock ⟨some obj, first, st.threads.nextWaiting first, some n⟩ } := by
  simp only [State.signalWaiters, hobj, hlock, State.lock, howner, ne_eq, not_true, false_and,
    if_false, hnear]
  cases st.threads.nextWaiting first with
  | none => rfl
  | some next => simp only [update_self, update_idem]

/-! ## Steps -/

theorem Refines.eq_nil (h : Refines near st q) {n : ℕ} (hnear : st.near obj = .plain n) :
    q obj = [] ∧ n = near obj := by
  rcases hq : q obj with _ | ⟨t, ts⟩
  · exact ⟨rfl, Near.plain.inj (hnear.symm.trans (h.free obj hq))⟩
  · obtain ⟨lock, waiters, hlocked, -⟩ := h.held obj t ts hq
    exact Near.noConfusion (hnear.symm.trans hlocked)

theorem Refines.eq_cons (h : Refines near st q) (hnear : st.near obj = .locked lock) :
    ∃ t ts waiters, q obj = t :: ts ∧ Deadlock.IsChain st.threads.nextWaiting waiters ts ∧
      st.locks lock = ⟨some obj, t, waiters, some (near obj)⟩ := by
  rcases hq : q obj with _ | ⟨t, ts⟩
  · exact Near.noConfusion (hnear.symm.trans (h.free obj hq))
  · obtain ⟨lock', waiters, hlocked, hlock, hchain⟩ := h.held obj t ts hq
    obtain rfl := Near.locked.inj (hnear.symm.trans hlocked)
    exact ⟨t, ts, waiters, rfl, hchain, hlock⟩

/-- A lock is that of one object. -/
theorem Refines.near_inj (h : Refines near st q) {obj' : ℕ} (hnear : st.near obj = .locked lock)
    (hnear' : st.near obj' = .locked lock) : obj = obj' := by
  obtain ⟨t, ts, waiters, -, -, hlock⟩ := h.eq_cons hnear
  obtain ⟨t', ts', waiters', -, -, hlock'⟩ := h.eq_cons hnear'
  exact Option.some.inj (congrArg StackLock.owner (hlock.symm.trans hlock'))

theorem Refines.enter_plain (h : Refines near st q) {n : ℕ} (hnear : st.near obj = .plain n)
    (hfits : (Op.enter thread lock obj).Fits st) :
    ∃ st', (Op.enter thread lock obj).exec fuel st = some st' ∧
      Refines near st' (update q obj (q obj ++ [thread])) := by
  obtain ⟨hactive, -, hunused, hnew⟩ := hfits
  obtain ⟨hq, rfl⟩ := h.eq_nil hnear
  simp only [Op.exec, State.enter, State.setOwner, hactive, update_self, State.lock, hnear, hq,
    List.nil_append, ne_eq, not_true, and_false, if_false]
  refine ⟨_, rfl, ?_⟩
  obtain ⟨hfree, hheld, hwaits, hapart, hnodup, hinactive⟩ := h
  constructor
  case held =>
    intro o t ts ho
    by_cases heq : o = obj
    · obtain ⟨rfl, rfl⟩ : thread = t ∧ [] = ts := by grind [update_apply]
      exact ⟨lock, none, by grind [update_apply, Deadlock.IsChain]⟩
    · obtain ⟨l, w, hnear', hlock', hchain'⟩ := hheld o t ts (by grind [update_apply])
      exact ⟨l, w, by grind [update_apply]⟩
  case inactive =>
    intro t ht
    obtain ⟨o, ho⟩ := hinactive t ht
    exact ⟨o, by grind [update_apply]⟩
  all_goals grind [update_apply]

theorem Refines.enter_locked (h : Refines near st q) {held : ℕ} (hnear : st.near obj = .locked held)
    (hfits : (Op.enter thread lock obj).Fits st) (hfuel : (q obj).length ≤ fuel) :
    ∃ st', (Op.enter thread lock obj).exec fuel st = some st' ∧
      Refines near st' (update q obj (q obj ++ [thread])) := by
  obtain ⟨hactive, howner, hunused, hnew⟩ := hfits
  obtain ⟨t, ts, waiters, hq, hchain, hlock⟩ := h.eq_cons hnear
  have hinj := @Refines.near_inj st near q held obj h
  obtain ⟨hfree, hheld, hwaits, hapart, hnodup, hinactive⟩ := h
  have hrunning : ∀ o, thread ∉ (q o).tail := by grind
  have hne : t ≠ thread := by grind
  have hheldLock : held ≠ lock := by grind
  have hnodupObj := hnodup obj
  obtain ⟨head, threads, hadd, hobj, hchain', hnext⟩ := @addSyncThread_spec waiters ts thread
    st.threads fuel obj hchain (by grind) (by grind) (by grind)
  simp only [Op.exec, State.enter, State.setOwner, hactive, update_self, hnear,
    update_of_ne hheldLock, hlock, if_neg hne, hadd]
  refine ⟨_, rfl, ?_⟩
  constructor
  case held =>
    intro o t' ts' ho
    by_cases heq : o = obj
    · obtain ⟨rfl, rfl⟩ : t = t' ∧ ts ++ [thread] = ts' := by grind [update_apply]
      exact ⟨held, head, by grind [update_apply]⟩
    · obtain ⟨l, w, hnear', hlock', hchain'⟩ := hheld o t' ts' (by grind [update_apply])
      -- the stack lock is neither the one of the object nor the new one
      refine ⟨l, w, hnear', by grind [update_apply], isChain_congr hchain' fun u hu => ?_⟩
      grind [update_apply]
  case inactive =>
    intro u hu
    by_cases heq : u = thread
    · exact ⟨obj, by grind [update_apply]⟩
    · obtain ⟨o, ho⟩ := hinactive u (by grind [update_apply])
      exact ⟨o, by grind [update_apply]⟩
  all_goals grind [update_apply]

theorem Refines.exit (h : Refines near st q) (hnear : st.near obj = .locked lock) :
    ∃ st', st.exit lock = some st' ∧ Refines near st' (update q obj (q obj).tail) := by
  obtain ⟨t, ts, waiters, hq, hchain, hlock⟩ := h.eq_cons hnear
  have hinj := @Refines.near_inj st near q lock obj h
  obtain ⟨hfree, hheld, hwaits, hapart, hnodup, hinactive⟩ := h
  have hnodupObj := hnodup obj
  rw [State.exit, hlock, hq, List.tail_cons]
  cases ts with
  | nil =>
    obtain rfl : waiters = none := hchain
    refine ⟨_, rfl, ?_⟩
    constructor
    case held =>
      intro o t' ts' ho
      obtain ⟨l, w, hnear', hlock', hchain'⟩ := hheld o t' ts' (by grind [update_apply])
      exact ⟨l, w, by grind [update_apply]⟩
    case inactive =>
      intro u hu
      obtain ⟨o, ho⟩ := hinactive u hu
      exact ⟨o, by grind [update_apply]⟩
    all_goals grind [update_apply]
  | cons first rest =>
    obtain ⟨rfl, hrest⟩ : waiters = some first ∧ _ := hchain
    -- the stack lock with which the first waiter waits is neither held nor that of another waiter
    obtain ⟨-, hobj, l, hl, howner, hunused⟩ := hwaits obj first (by simp [hq])
    have hne : ∀ o, ∀ u ∈ (q o).tail, o ≠ obj ∨ u ∈ rest → u ≠ first := by grind
    refine ⟨_, signalWaiters_eq hobj hl (by grind [update_apply]) (update_self _ _ _), ?_⟩
    simp only [update_idem]
    constructor
    case held =>
      intro o t' ts' ho
      by_cases heq : o = obj
      · obtain ⟨rfl, rfl⟩ : first = t' ∧ rest = ts' := by grind [update_apply]
        refine ⟨l, st.threads.nextWaiting first, by grind [update_apply], by grind [update_apply],
          isChain_congr hrest fun u hu => ?_⟩
        grind [update_apply]
      · obtain ⟨l', w, hnear', hlock', hchain'⟩ := hheld o t' ts' (by grind [update_apply])
        refine ⟨l', w, by grind [update_apply], by grind [update_apply],
          isChain_congr hchain' fun u hu => ?_⟩
        grind [update_apply]
    case inactive =>
      intro u hu
      obtain ⟨o, ho⟩ := hinactive u (by grind [update_apply])
      exact ⟨o, by grind [update_apply]⟩
    all_goals grind [update_apply]

/-! ## Runs -/

/-- **Step lemma**: an operation is what it is on the queues. -/
theorem Refines.exec (h : Refines near st q) {op : Op} (hfits : op.Fits st)
    (hfuel : ∀ obj, (q obj).length ≤ fuel) : ∃ st' q', op.exec fuel st = some st' ∧
      op.Spec st q q' ∧ Refines near st' q' ∧ ∀ obj, (q' obj).length ≤ (q obj).length + 1 := by
  cases op with
  | enter thread lock obj =>
    have henter : ∃ st', (Op.enter thread lock obj).exec fuel st = some st' ∧
        Refines near st' (update q obj (q obj ++ [thread])) := by
      cases hnear : st.near obj with
      | plain n => exact h.enter_plain hnear hfits
      | locked held => exact h.enter_locked hnear hfits (hfuel obj)
    obtain ⟨st', hst', hnext⟩ := henter
    exact ⟨st', _, hst', rfl, hnext, by grind [update_apply]⟩
  | exit lock =>
    obtain ⟨obj, hnear⟩ := hfits
    obtain ⟨st', hst', hnext⟩ := h.exit hnear
    exact ⟨st', _, hst', ⟨obj, hnear, rfl⟩, hnext, by grind [update_apply]⟩

/-- **Main theorem**: over any interleaving the operations are those on the queues. -/
theorem queues_of_run (threads : Deadlock.State) (near : ℕ → ℕ) (locks : ℕ → StackLock)
    (ops : List Op) (fuel : ℕ) (hfuel : ops.length ≤ fuel)
    (hfit : AllFit fuel ops (unlocked threads near locks)) :
    ∃ st q, Steps fuel ops (unlocked threads near locks) (fun _ => []) st q ∧
      Refines near st q := by
  have hrun : ∀ st q, Refines near st q → (∀ obj, (q obj).length + ops.length ≤ fuel) →
      AllFit fuel ops st → ∃ st' q', Steps fuel ops st q st' q' ∧ Refines near st' q' := by
    clear hfuel hfit
    induction ops with
    | nil => exact fun st q h _ _ => ⟨st, q, ⟨rfl, rfl⟩, h⟩
    | cons op ops ih =>
      intro st q h hlength hfit
      obtain ⟨next, nextq, hexec, hspec, hnext, hle⟩ :=
        h.exec hfit.1 fun obj => (Nat.le_add_right _ _).trans (hlength obj)
      obtain ⟨st', q', hsteps, h'⟩ := ih next nextq hnext (fun obj => by
        have hobj := hlength obj
        have hnextObj := hle obj
        rw [List.length_cons] at hobj
        omega) (hfit.2 next hexec)
      exact ⟨st', q', ⟨next, nextq, hexec, hspec, hsteps⟩, h'⟩
  refine hrun _ _ ⟨fun _ _ => rfl, ?_, ?_, ?_, fun _ => List.nodup_nil, ?_⟩ (by simpa) hfit
  all_goals simp [unlocked]

/-- Two threads enter the monitor of an object, and the first one leaves it. -/
def contended : List Op := [.enter 1 5 10, .enter 2 6 10, .exit 5]

def quiet : State :=
  unlocked ⟨false, [], fun _ => 0, fun _ => [], fun _ => none, fun _ => none, fun _ => none,
    fun _ => none, none⟩ id fun _ => ⟨none, 0, none, none⟩

theorem queues_of_contended :
    ∃ st q, Steps 3 contended quiet (fun _ => []) st q ∧ Refines id st q := by
  refine queues_of_run _ _ _ _ _ (by decide) ⟨⟨rfl, ?_⟩, fun st hst => ?_⟩
  · simp [unlocked]
  · obtain rfl := Option.some.inj hst
    refine ⟨⟨rfl, ?_⟩, fun st hst => ?_⟩
    · grind [unlocked, State.setOwner, update_apply]
    · obtain rfl := Option.some.inj hst
      exact ⟨⟨10, rfl⟩, fun _ _ => trivial⟩

end CldcVm.Monitors
