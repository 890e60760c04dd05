import Mathlib.Data.BitVec

/-!
# The deadlock finder

`find_and_print_deadlocks` (`share/runtime/DeadlockFinder.cpp`, lines 47–221) with the functions
that it calls, and the way in which threads come into the chain of the waiters of a monitor
(`Scheduler::add_sync_thread`, `share/runtime/Scheduler.cpp`, lines 476–492).

Loops along pointers have `fuel`; where it runs out, or a null pointer is read, or a guarantee
fails, there is no result.
-/

namespace CldcVm.Deadlock

abbrev Thread := ℕ

/-- `StackLock`, with the object that is locked and the raw value of the copied near. -/
structure StackLock where
  owner : Option ℕ
  thread : Thread
  waiters : Option Thread
  rawNear : BitVec 32
  deriving DecidableEq

/-- The threads with their links, and the stack locks of their Java frames, the top frame first. -/
structure State where
  inProgress : Bool
  globalThreadlist : List Thread
  lastJavaSp : Thread → BitVec 32
  frames : Thread → List (List StackLock)
  next : Thread → Option Thread
  previous : Thread → Option Thread
  nextWaiting : Thread → Option Thread
  waitObj : Thread → Option ℕ
  schedulerWaiting : Option Thread

/-! ## The waiters of a monitor -/

/-- `remove_from_list`, as far as the links of the threads go; `remove_from_active` calls it. -/
def State.removeFromActive (st : State) (thread : Thread) : State :=
  let previous := match st.next thread with
    | none => st.previous
    | some next => Function.update st.previous next (st.previous thread)
  let next := match st.previous thread with
    | none => st.next
    | some previous => Function.update st.next previous (st.next thread)
  { st with
    next := Function.update next thread none
    previous := Function.update previous thread none }

/-- The last thread of the chain. -/
def State.lastWaiting (st : State) : (fuel : ℕ) → Thread → Option Thread
  | 0, _ => none
  | fuel + 1, tail =>
    match st.nextWaiting tail with
    | none => some tail
    | some thread => st.lastWaiting fuel thread

/-- `add_sync_thread`: the head of the chain and the state. -/
def State.addSyncThread (st : State) (fuel : ℕ) (thread : Thread) (pendingWaiters : Option Thread)
    (obj : ℕ) : Option (Option Thread × State) :=
  let st := st.removeFromActive thread
  match pendingWaiters with
  | none => some (some thread, { st with
      next := Function.update st.next thread none
      nextWaiting := Function.update st.nextWaiting thread none
      waitObj := Function.update st.waitObj thread (some obj) })
  | some head =>
    match st.lastWaiting fuel head with
    | none => none
    | some tail => some (some head, { st with
        nextWaiting :=
          Function.update (Function.update st.nextWaiting tail (some thread)) thread none
        waitObj := Function.update st.waitObj thread (some obj) })

/-! ## The list of blocked threads -/

/-- `BlockedThread` without the mark. The address tells it from other ones. -/
structure BlockedThread where
  address : ℕ
  thread : Thread
  sl : StackLock
  deriving DecidableEq

/-- `new BlockedThread`, which puts itself at the front of the list. -/
def newBlockedThread (thread : Thread) (sl : StackLock) (list : List BlockedThread) :
    List BlockedThread :=
  ⟨list.length, thread, sl⟩ :: list

/-- The loop over the waiters in `process_frame`, which goes along `next`. -/
def processWaiters (st : State) (lock : StackLock) :
    (fuel : ℕ) → Option Thread → List BlockedThread → Option (List BlockedThread)
  | _, none, list => some list
  | 0, some _, _ => none
  | fuel + 1, some wt, list =>
    processWaiters st lock fuel (st.next wt) (newBlockedThread wt lock list)

/-- `process_frame`. -/
def processFrame (st : State) (fuel : ℕ) :
    List StackLock → List BlockedThread → Option (List BlockedThread)
  | [], list => some list
  | lock :: locks, list =>
    if lock.owner = none then processFrame st fuel locks list
    else if lock.rawNear &&& 2 = 0 then processFrame st fuel locks list
    else
      match processWaiters st lock fuel lock.waiters list with
      | none => none
      | some list => processFrame st fuel locks list

/-- The frames of a thread. -/
def processFrames (st : State) (fuel : ℕ) :
    List (List StackLock) → List BlockedThread → Option (List BlockedThread)
  | [], list => some list
  | frame :: frames, list =>
    match processFrame st fuel frame list with
    | none => none
    | some list => processFrames st fuel frames list

/-- The thread is among those that wait for one condition. -/
def isWaitingFor (st : State) (t : Thread) : (fuel : ℕ) → Option Thread → Option Bool
  | _, none => some false
  | 0, some _ => none
  | fuel + 1, some thr => if thr = t then some true else isWaitingFor st t fuel (st.next thr)

/-- The thread waits on a condition: `innerFuel` is for one condition. -/
def isWaiting (st : State) (t : Thread) (innerFuel : ℕ) :
    (fuel : ℕ) → Option Thread → Option Bool
  | _, none => some false
  | 0, some _ => none
  | fuel + 1, some wt =>
    match isWaitingFor st t innerFuel (some wt) with
    | none => none
    | some true => some true
    | some false => isWaiting st t innerFuel fuel (st.nextWaiting wt)

/-- `process_thread`. -/
def processThread (st : State) (fuel : ℕ) (t : Thread) (list : List BlockedThread) :
    Option (List BlockedThread) :=
  if st.lastJavaSp t = 0 then some list
  else
    match isWaiting st t fuel fuel st.schedulerWaiting with
    | none => none
    | some true => some list
    | some false => processFrames st fuel (st.frames t) list

/-- The loop over the threads in `find_and_print_deadlocks`. -/
def processThreads (st : State) (fuel : ℕ) :
    List Thread → List BlockedThread → Option (List BlockedThread)
  | [], list => some list
  | t :: threads, list =>
    match processThread st fuel t list with
    | none => none
    | some list => processThreads st fuel threads list

/-- The list when the search starts. -/
def blockedThreads (st : State) (fuel : ℕ) : Option (List BlockedThread) :=
  processThreads st fuel st.globalThreadlist []

/-! ## The search -/

/-- `waits_for`, in what is left of the list. -/
def waitsFor (list : List BlockedThread) (bt : BlockedThread) : Option BlockedThread :=
  list.find? fun b => b.thread = bt.sl.thread

/-- The marks, and the loops that have been printed. -/
structure Search where
  markedBy : BlockedThread → ℕ
  out : List (List BlockedThread)

/-- `print_loop`: the nodes that are printed, from `bt` on. -/
def printLoop (list : List BlockedThread) (markedBy : BlockedThread → ℕ) (start : BlockedThread) :
    (fuel : ℕ) → BlockedThread → Option (List BlockedThread)
  | 0, _ => none
  | fuel + 1, bt =>
    match waitsFor list bt with
    | none => none
    | some next =>
      if markedBy next ≠ markedBy start then none
      else if next = start then some [bt]
      else (printLoop list markedBy start fuel next).map (bt :: ·)

/-- `follow_blocked_thread`. -/
def followBlockedThread (list : List BlockedThread) (marker : ℕ) :
    (fuel : ℕ) → Option BlockedThread → Search → Option (ℕ × Search)
  | _, none, s => some (0, s)
  | 0, some _, _ => none
  | fuel + 1, some bt, s =>
    if s.markedBy bt = marker then
      (printLoop list s.markedBy bt fuel bt).map fun loop => (1, { s with out := s.out ++ [loop] })
    else
      followBlockedThread list marker fuel (waitsFor list bt)
        { s with markedBy := Function.update s.markedBy bt marker }

/-- The loop over the list, from which each node is taken after it has been looked at. -/
def searchList (fuel : ℕ) : List BlockedThread → (marker : ℕ) → Search → Option (ℕ × Search)
  | [], _, s => some (0, s)
  | bt :: rest, marker, s =>
    if s.markedBy bt = 0 then
      match followBlockedThread (bt :: rest) marker fuel (some bt) s with
      | none => none
      | some (n, s) => (searchList fuel rest (marker + 1) s).map fun r => (n + r.1, r.2)
    else searchList fuel rest (marker + 1) s

/-- `find_and_print_deadlocks`: the number of deadlocks, and what has been printed. -/
def findAndPrintDeadlocks (st : State) (fuel : ℕ) : Option (ℕ × List (List BlockedThread)) :=
  if st.inProgress then some (0, [])
  else
    match blockedThreads st fuel with
    | none => none
    | some list =>
      (searchList fuel list 1 ⟨fun _ => 0, []⟩).map fun r => (r.1, r.2.out)

end CldcVm.Deadlock
