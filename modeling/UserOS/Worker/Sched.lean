import Mathlib.Data.Int.Notation
import UserOS.Worker.Queue

/-!
# The calls of `worker.c` and the Round Robin scheduler

A call is one step up to its context switch. The continuation of a thread tells where it goes on
when it is scheduled again: after the call, inside `worker_join`, or at the loop of
`worker_mutex_lock`.

A thread control block is named by the id of its thread. Ids are below `2 ^ 31`, so that the casts
to `int` keep them, and -1 stands for no thread. Time stamps are left out.
-/

namespace UserOS.Worker

open Lib

/-- `thread_status`. -/
inductive Status
  | running
  | ready
  | blocked
  | finished
  deriving DecidableEq, Repr

/-- `struct TCB`. -/
structure Tcb where
  status : Status
  priority : ℕ
  waitingThread : ℤ
  waitingFor : ℤ
  firstSchedule : Bool
  mutexBlocked : Bool
  blockedFromMutex : Option ℕ
  deriving DecidableEq, Repr

/-- `struct worker_mutex_t`. `waitQueue` is absent after `worker_mutex_destroy`. -/
structure Mutex where
  isLocked : Bool
  id : ℕ
  waitQueue : Option Queue
  owner : ℤ
  deriving DecidableEq, Repr

/-- Where a thread goes on. -/
inductive Cont
  | idle
  | joining (thread : ℕ) (wantsValue : Bool)
  | locking (mutex : ℕ)
  deriving DecidableEq, Repr

/-- The globals, the nodes and control blocks allocated, the mutexes by address, and the
continuations. -/
structure State where
  threadCount : ℕ
  activeThreads : ℕ
  readyQueue : Queue
  waitingQueue : Queue
  nodes : Nodes
  mallocs : ℕ
  tcbs : ℕ → Option Tcb
  runningThread : Option ℕ
  runningNode : Option ℕ
  mainThread : Option ℕ
  returnValues : ℕ → ℕ
  mutexes : ℕ → Option Mutex
  mutexCount : ℕ
  interruptDisabled : Bool
  cont : ℕ → Cont

/-- Before the first call. -/
def State.start : State :=
  ⟨0, 0, .empty, .empty, fun _ => none, 0, fun _ => none, none, none, none, fun _ => 0,
    fun _ => none, 0, false, fun _ => .idle⟩

/-- The control blocks that exist. -/
def State.live (s : State) (id : ℕ) : Bool := (s.tcbs id).isSome

/-- Store a control block. -/
def State.setTcb (s : State) (id : ℕ) (t : Tcb) : State :=
  { s with tcbs := Function.update s.tcbs id (some t) }

/-- Store a mutex. -/
def State.setMutex (s : State) (mutex : ℕ) (m : Mutex) : State :=
  { s with mutexes := Function.update s.mutexes mutex (some m) }

/-! ## Queue operations on the globals -/

/-- `enqueue(ready_queue, …)`. -/
def enqueueReady (fuel : ℕ) (s : State) (a : ℕ) : Option State := do
  let (nodes, q) ← enqueue fuel s.nodes s.readyQueue a
  some { s with nodes := nodes, readyQueue := q }

/-- `enqueue(waiting_queue, …)`. -/
def enqueueWaiting (fuel : ℕ) (s : State) (a : ℕ) : Option State := do
  let (nodes, q) ← enqueue fuel s.nodes s.waitingQueue a
  some { s with nodes := nodes, waitingQueue := q }

/-- `delete_from_queue(waiting_queue, …)`. -/
def deleteWaiting (fuel : ℕ) (s : State) (threadId : ℕ) : Option (State × Option ℕ) := do
  let (nodes, q, r) ← deleteFromQueue fuel s.nodes s.live s.waitingQueue threadId
  some ({ s with nodes := nodes, waitingQueue := q }, r)

/-- `create_node`. Without memory it writes through a null pointer. -/
def createNode (μ : Malloc Node) (s : State) (tcb : ℕ) : Option (State × ℕ) := do
  let a ← μ.addr s.mallocs s.nodes
  some ({ s with
    nodes := Function.update s.nodes a (some ⟨tcb, none⟩)
    mallocs := s.mallocs + 1 }, a)

/-- `find_ready_threads`: whether the thread is in the ready queue. -/
def findReadyThreads (fuel : ℕ) (s : State) (threadId : ℕ) : Option Bool := do
  let (_, found) ← findNode fuel s.nodes s.live s.readyQueue threadId
  some found.isSome

/-- The end of both release functions: a node taken from the waiting queue becomes ready. -/
def makeReady (fuel : ℕ) (s : State) (a : ℕ) : Option State := do
  let n ← s.nodes a
  let t ← s.tcbs n.tcb
  enqueueReady fuel (s.setTcb n.tcb { t with status := .ready, waitingFor := -1 }) a

/-- `release_threads`. -/
def releaseThreads (fuel : ℕ) (s : State) (exitThread : Tcb) : Option State :=
  if exitThread.waitingThread ≥ 0 then do
    let (s, releaseNode) ← deleteWaiting fuel s exitThread.waitingThread.toNat
    match releaseNode with
    | none => some s
    | some a => makeReady fuel s a
  else some s

/-- The loop of `unblock_threads`, with the ids of the threads that it released so far. The walk
follows the links of the nodes, which are those of the waiting queue too. -/
def unblockLoop (fuel : ℕ) : ℕ → State → Option ℕ → List ℕ → Option (State × List ℕ)
  | _, s, none, released => some (s, released)
  | 0, _, some _, _ => none
  | n + 1, s, some tempHead, released => do
    let node ← s.nodes tempHead
    let _ ← s.tcbs node.tcb
    let (s, enqNode) ← deleteWaiting fuel s node.tcb
    match enqNode with
    | none => unblockLoop fuel n s node.next released
    | some a => do
      let s ← makeReady fuel s a
      let _ ← findReadyThreads fuel s node.tcb
      unblockLoop fuel n s node.next (released ++ [node.tcb])

/-- `unblock_threads`. -/
def unblockThreads (fuel : ℕ) (s : State) (mutexWaitQueue : Queue) : Option (State × List ℕ) :=
  unblockLoop fuel fuel s mutexWaitQueue.head []

/-! ## The scheduler -/

/-- What a call returns: the result, and what `worker_join` stored through its `value_ptr`. -/
structure Ret where
  code : ℤ
  value : Option ℕ
  deriving DecidableEq, Repr

/-- A result and no value. -/
def code (c : ℤ) : Option Ret := some ⟨c, none⟩

/-- How a step ends: the process goes on in a state, with what the call returned if it returned, or
it exits. -/
inductive Outcome
  | ok (s : State) (ret : Option Ret)
  | exit (code : ℤ)

/-- The first part of `sched_rr`: what becomes of the thread that ran. -/
def retire (fuel : ℕ) (s : State) : Option State := do
  let prevThread ← s.runningThread
  let prevNode ← s.runningNode
  let t ← s.tcbs prevThread
  match t.status with
  | .finished => do
    let s ← releaseThreads fuel s t
    some { s with
      activeThreads := s.activeThreads - 1
      tcbs := Function.update s.tcbs prevThread none
      nodes := Function.update s.nodes prevNode none }
  | .blocked => some s
  | _ => enqueueReady fuel (s.setTcb prevThread { t with status := .ready }) prevNode

/-- The second part of `sched_rr`: the next thread. When none is ready, the main thread goes on with
a new node, whatever its state. -/
def dispatch (μ : Malloc Node) (s : State) : Option Outcome := do
  let (nodes, q, next) ← popFromQueue s.nodes s.readyQueue
  let s := { s with nodes := nodes, readyQueue := q, interruptDisabled := false }
  match next with
  | none =>
    match s.mainThread with
    | none => some (.exit 0)
    | some main => do
      let (s, a) ← createNode μ { s with runningThread := some main } main
      let t ← s.tcbs main
      some (.ok { s.setTcb main { t with status := .running } with runningNode := some a } none)
  | some a => do
    let n ← s.nodes a
    let t ← s.tcbs n.tcb
    if t.status = .blocked then some (.exit (-1))
    else
      some (.ok { s.setTcb n.tcb { t with status := .running, firstSchedule := false } with
        runningNode := some a
        runningThread := some n.tcb } none)

/-- `worker_yield`: the switch to `schedule` and `sched_rr`. -/
def workerYield (μ : Malloc Node) (fuel : ℕ) (s : State) : Option Outcome := do
  let s ← retire fuel s
  dispatch μ s

/-! ## The calls -/

/-- A new control block. -/
def Tcb.new (status : Status) (firstSchedule : Bool) : Tcb :=
  ⟨status, 0, -1, -1, firstSchedule, false, none⟩

/-- The part of `worker_create` that the first call runs: `init` and the main thread. -/
def createMain (μ : Malloc Node) (s : State) : Option State := do
  let id := s.threadCount
  let s := { s.setTcb id (.new .running false) with
    readyQueue := .empty
    waitingQueue := .empty
    threadCount := s.threadCount + 1
    activeThreads := s.activeThreads + 1
    mainThread := some id
    runningThread := some id }
  let (s, a) ← createNode μ s id
  some { s with runningNode := some a }

/-- The part of `worker_create` that every call runs. -/
def createThread (μ : Malloc Node) (fuel : ℕ) (s : State) : Option Outcome := do
  let id := s.threadCount
  let s := { s.setTcb id (.new .ready true) with
    threadCount := s.threadCount + 1
    activeThreads := s.activeThreads + 1 }
  let (s, a) ← createNode μ s id
  let s ← enqueueReady fuel s a
  some (.ok s (code id))

/-- The first `if` of `worker_create`. -/
def ensureMain (μ : Malloc Node) (s : State) : Option State :=
  if s.threadCount = 0 then createMain μ s else some s

/-- `worker_create`. -/
def workerCreate (μ : Malloc Node) (fuel : ℕ) (s : State) : Option Outcome := do
  let s ← ensureMain μ s
  createThread μ fuel s

/-- The length of `return_values`. -/
def numReturnValues : ℕ := 10000

/-- `worker_exit`. -/
def workerExit (μ : Malloc Node) (fuel : ℕ) (s : State) (valuePtr : ℕ) : Option Outcome := do
  let id ← s.runningThread
  let t ← s.tcbs id
  if t.status ≠ .running then some (.exit (-1))
  else if valuePtr ≠ 0 ∧ numReturnValues ≤ id then none
  else
    workerYield μ fuel { s.setTcb id { t with status := .finished } with
      returnValues := if valuePtr = 0 then s.returnValues
        else Function.update s.returnValues id valuePtr
      interruptDisabled := true }

/-- The path of `worker_join` for a target that is not ready: it is taken for a finished one. -/
def joinFinished (s : State) (thread : ℕ) (wantsValue : Bool) : Option Outcome :=
  let s := { s with interruptDisabled := false }
  if thread ≤ s.threadCount then
    if wantsValue then
      if numReturnValues ≤ thread then none
      else some (.ok s (some ⟨0, some (s.returnValues thread)⟩))
    else some (.ok s (code 0))
  else some (.ok s (code (-1)))

/-- The path of `worker_join` for a ready target, up to the switch. -/
def joinReady (μ : Malloc Node) (fuel : ℕ) (s : State) (thread : ℕ) (wantsValue : Bool)
    (id node : ℕ) (w : Tcb) : Option Outcome :=
  if w.waitingThread > 0 then some (.ok { s with interruptDisabled := true } (code (-1)))
  else do
    let s := s.setTcb thread { w with waitingThread := id }
    let t ← s.tcbs id
    let s := { s.setTcb id { t with status := .blocked, waitingFor := thread } with
      cont := Function.update s.cont id (.joining thread wantsValue) }
    let s ← enqueueWaiting fuel s node
    workerYield μ fuel s

/-- `worker_join` up to its switch. -/
def workerJoin (μ : Malloc Node) (fuel : ℕ) (s : State) (thread : ℕ) (wantsValue : Bool) :
    Option Outcome := do
  let id ← s.runningThread
  let node ← s.runningNode
  let found ← findReadyThreads fuel s thread
  if !found then joinFinished s thread wantsValue
  else
    let w ← s.tcbs thread
    joinReady μ fuel s thread wantsValue id node w

/-- The part of `worker_join` after the switch. -/
def joinResume (s : State) : Option Outcome := do
  let id ← s.runningThread
  some (.ok { s with interruptDisabled := false, cont := Function.update s.cont id .idle } (code 0))

/-- A thread that finds a mutex locked: it is put into both queues and switches. -/
def lockBlock (μ : Malloc Node) (fuel : ℕ) (s : State) (mutex : ℕ) (m : Mutex) (id node : ℕ)
    (t : Tcb) : Option Outcome := do
  let q ← m.waitQueue
  let (nodes, q) ← enqueue fuel s.nodes q node
  let s := { s.setTcb id { t with
      status := .blocked
      waitingFor := m.owner
      blockedFromMutex := some mutex
      mutexBlocked := true } with
    nodes := nodes
    mutexes := Function.update s.mutexes mutex (some { m with waitQueue := some q })
    cont := Function.update s.cont id (.locking mutex) }
  let s ← enqueueWaiting fuel s node
  workerYield μ fuel s

/-- A thread that finds a mutex free: it takes it. -/
def lockTake (s : State) (mutex : ℕ) (m : Mutex) (id : ℕ) (t : Tcb) : Outcome :=
  .ok { s.setTcb id { t with blockedFromMutex := none, mutexBlocked := false } with
    mutexes := Function.update s.mutexes mutex (some { m with isLocked := true, owner := id })
    cont := Function.update s.cont id .idle } (code 0)

/-- One turn of the loop of `worker_mutex_lock`. -/
def workerMutexLock (μ : Malloc Node) (fuel : ℕ) (s : State) (mutex : ℕ) : Option Outcome := do
  let id ← s.runningThread
  let node ← s.runningNode
  let m ← s.mutexes mutex
  let t ← s.tcbs id
  if m.isLocked then
    if m.owner = id then some (.ok { s with cont := Function.update s.cont id .idle } (code 0))
    else lockBlock μ fuel s mutex m id node t
  else some (lockTake s mutex m id t)

/-- The mutex when `worker_mutex_unlock` has given it up. -/
def Mutex.unlocked (m : Mutex) : Mutex := { m with isLocked := false, owner := -1 }

/-- `worker_mutex_unlock`. -/
def workerMutexUnlock (fuel : ℕ) (s : State) (mutex : ℕ) : Option Outcome := do
  let id ← s.runningThread
  let m ← s.mutexes mutex
  if !m.isLocked || m.owner ≠ id then some (.ok s (code (-1)))
  else
    let s := s.setMutex mutex m.unlocked
    let q ← m.waitQueue
    match q.head with
    | none => some (.ok s (code 0))
    | some _ => do
      let (s, _) ← unblockThreads fuel s q
      some (.ok (s.setMutex mutex { m.unlocked with waitQueue := some .empty }) (code 0))

/-- `worker_mutex_init`. -/
def workerMutexInit (s : State) (mutex : ℕ) : Outcome :=
  .ok { s.setMutex mutex ⟨false, s.mutexCount, some .empty, -1⟩ with
    mutexCount := s.mutexCount + 1 } (code 0)

/-- `worker_mutex_destroy`. -/
def workerMutexDestroy (s : State) (mutex : ℕ) : Option Outcome := do
  let m ← s.mutexes mutex
  if m.isLocked then some (.ok s (code (-1)))
  else some (.ok (s.setMutex mutex { m with waitQueue := none }) (code 0))

/-- `interrupt_handler`. -/
def interruptHandler (μ : Malloc Node) (fuel : ℕ) (s : State) : Option Outcome :=
  if s.interruptDisabled then some (.ok s none) else workerYield μ fuel s

/-! ## Steps -/

/-- The calls of a program, and the timer. -/
inductive Call
  | create
  | yield
  | exit (valuePtr : ℕ)
  | join (thread : ℕ) (wantsValue : Bool)
  | lock (mutex : ℕ)
  | unlock (mutex : ℕ)
  | mutexInit (mutex : ℕ)
  | mutexDestroy (mutex : ℕ)
  | preempt
  deriving DecidableEq, Repr

/-- A call by a thread that is inside none. -/
def startCall (μ : Malloc Node) (fuel : ℕ) (s : State) : Call → Option Outcome
  | .create => workerCreate μ fuel s
  | .yield => workerYield μ fuel { s with interruptDisabled := true }
  | .exit valuePtr => workerExit μ fuel s valuePtr
  | .join thread wantsValue => workerJoin μ fuel s thread wantsValue
  | .lock mutex => workerMutexLock μ fuel s mutex
  | .unlock mutex => workerMutexUnlock fuel s mutex
  | .mutexInit mutex => some (workerMutexInit s mutex)
  | .mutexDestroy mutex => workerMutexDestroy s mutex
  | .preempt => interruptHandler μ fuel s

/-- The thread that runs; before the first call it is the one that becomes the main thread. -/
def State.caller (s : State) : ℕ := s.runningThread.getD 0

/-- One step of the running thread: a call, the rest of the call that it is inside, or the timer. -/
def exec (μ : Malloc Node) (fuel : ℕ) (s : State) (call : Call) : Option Outcome :=
  match s.cont s.caller, call with
  | _, .preempt => interruptHandler μ fuel s
  | .idle, call => startCall μ fuel s call
  | .joining thread v, .join thread' v' =>
    if thread = thread' ∧ v = v' then joinResume s else none
  | .locking mutex, .lock mutex' => if mutex = mutex' then workerMutexLock μ fuel s mutex else none
  | _, _ => none

/-- The label of a step: the thread, the call, and the value if it returned. -/
structure Label where
  thread : ℕ
  call : Call
  ret : Option Ret
  deriving DecidableEq, Repr

/-- The steps of the program. A step whose walks of lists do not end, or that reads through a null
or freed pointer, leads nowhere. -/
def Step (μ : Malloc Node) (s : State) (l : Label) (s' : State) : Prop :=
  l.thread = s.caller ∧ ∃ fuel, exec μ fuel s l.call = some (.ok s' l.ret)

/-- The calls of a program, one after the other, with the labels of the steps. -/
def follow (μ : Malloc Node) (fuel : ℕ) : State → List Call → Option (List Label × State)
  | s, [] => some ([], s)
  | s, call :: calls => do
    match ← exec μ fuel s call with
    | .exit _ => none
    | .ok s' ret => do
      let (es, s'') ← follow μ fuel s' calls
      some (⟨s.caller, call, ret⟩ :: es, s'')

/-- The state after the calls, with the allocator that takes a new address at each call. -/
def after (calls : List Call) : State :=
  ((follow (Malloc.bump Node) 9 .start calls).map Prod.snd).getD .start

end UserOS.Worker
