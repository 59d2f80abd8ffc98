import Mathlib.Data.Rat.Cast.Order
import UserOS.Worker.Effects

/-!
# The multi-level feedback queue of `worker.c`

The same library built with `-D MLFQ`. The ready threads wait in four queues, one for each priority,
and a thread's time on the CPU is charged to it whenever it leaves the processor.

Times are exact rationals here, in milliseconds. The clock is an input: a step carries the readings
of `gettimeofday` that it makes. The calls are those that move threads between the priority queues:
`worker_create`, `worker_yield`, `worker_exit` and the timer.
-/

namespace UserOS.Worker.Mlfq

open Lib

/-- `TIME_SLICE`, in milliseconds. -/
def timeSlice : ℕ := 20

/-- `MLFQ_LEVELS`. -/
def mlfqLevels : ℕ := 4

/-- `PRIORITY_BOOST_CYCLES`. -/
def priorityBoostCycles : ℕ := 30

/-- `struct timeval`. -/
structure Timeval where
  sec : ℤ
  usec : ℤ
  deriving DecidableEq, Repr

/-- The milliseconds that `schedule` computes from the last time stamp to now. -/
def elapsedMs (stamp now : Timeval) : ℚ :=
  let timeMs : ℚ := (now.sec - stamp.sec) * 1000
  if timeMs = 0 then timeMs + (now.usec - stamp.usec) / 1000
  else timeMs - 1000 + ((1000000 - stamp.usec) + now.usec) / 1000

/-- The globals of this build. `time_on_cpu` is the field of the control block with that id. -/
structure State extends Worker.State where
  mlfqQueue : ℕ → Queue
  scheduleCycles : ℕ
  scheduleTimestamp : Timeval
  timeOnCpu : ℕ → ℚ

/-- Before the first call. -/
def State.start : State :=
  { Worker.State.start with
    mlfqQueue := fun _ => .empty
    scheduleCycles := 0
    scheduleTimestamp := ⟨0, 0⟩
    timeOnCpu := fun _ => 0 }

/-- Store a control block. -/
def State.setTcb (s : State) (id : ℕ) (t : Tcb) : State :=
  { s with tcbs := Function.update s.tcbs id (some t) }

/-! ## The priority queues -/

/-- `enqueue(&MLFQ_queue[i], …)`. The array has `MLFQ_LEVELS` queues. -/
def enqueueLevel (fuel : ℕ) (s : State) (i a : ℕ) : Option State :=
  if i < mlfqLevels then do
    let (nodes, q) ← enqueue fuel s.nodes (s.mlfqQueue i) a
    some { s with nodes := nodes, mlfqQueue := Function.update s.mlfqQueue i q }
  else none

/-- `pop_from_queue(&MLFQ_queue[i], …)`. -/
def popLevel (s : State) (i : ℕ) : Option (State × Option ℕ) := do
  let (nodes, q, r) ← popFromQueue s.nodes (s.mlfqQueue i)
  some ({ s with nodes := nodes, mlfqQueue := Function.update s.mlfqQueue i q }, r)

/-- `get_next_thread_mlfq`: the front of the first level that is not empty. -/
def getNextThreadMlfq (s : State) : Option (State × Option ℕ) :=
  match (List.range mlfqLevels).find? fun i => (s.mlfqQueue i).head.isSome with
  | none => some (s, none)
  | some i => popLevel s i

/-- The inner loop of `boost_priority`, for the level `i`. -/
def boostLevel (fuel : ℕ) : ℕ → State → ℕ → Option State
  | 0, _, _ => none
  | n + 1, s, i => do
    let (s, newNode) ← popLevel s i
    match newNode with
    | none => some s
    | some a => do
      let s ← enqueueLevel fuel s 0 a
      let node ← s.nodes a
      let t ← s.tcbs node.tcb
      boostLevel fuel n (s.setTcb node.tcb { t with priority := 0 }) i

/-- `boost_priority`: the levels from 1 on, in order. -/
def boostPriority (fuel : ℕ) (s : State) : Option State :=
  (List.range' 1 (mlfqLevels - 1)).foldlM (boostLevel fuel fuel) s

/-- `release_threads` in this build: the joiner is queued at its priority. -/
def releaseThreads (fuel : ℕ) (s : State) (exitThread : Tcb) : Option State :=
  if exitThread.waitingThread ≥ 0 then do
    let (w, releaseNode) ← deleteWaiting fuel s.toState exitThread.waitingThread.toNat
    let s := { s with toState := w }
    match releaseNode with
    | none => some s
    | some a => do
      let n ← s.nodes a
      let t ← s.tcbs n.tcb
      enqueueLevel fuel (s.setTcb n.tcb { t with status := .ready, waitingFor := -1 }) t.priority a
  else some s

/-! ## The scheduler -/

/-- How a step ends. -/
inductive Outcome
  | ok (s : State) (ret : Option Ret)
  | exit (code : ℤ)

/-- What `schedule` does before it calls the policy: the time since the last stamp is charged to the
thread that ran. -/
def charge (s : State) (now : Timeval) : Option State := do
  let id ← s.runningThread
  let _ ← s.tcbs id
  some { s with
    timeOnCpu := Function.update s.timeOnCpu id
      (s.timeOnCpu id + elapsedMs s.scheduleTimestamp now)
    interruptDisabled := false }

/-- The test of `sched_mlfq` for a demotion. -/
def demotes (time : ℚ) (priority : ℕ) : Bool :=
  time ≥ timeSlice * (priority + 1) && priority > mlfqLevels - 1

/-- The first part of `sched_mlfq`: what becomes of the thread that ran. Its node is not freed. -/
def retire (fuel : ℕ) (s : State) : Option State := do
  let s := { s with scheduleCycles := s.scheduleCycles + 1 }
  let prevThread ← s.runningThread
  let prevNode ← s.runningNode
  let t ← s.tcbs prevThread
  match t.status with
  | .finished => do
    let s ← releaseThreads fuel s t
    some { s with
      activeThreads := s.activeThreads - 1
      tcbs := Function.update s.tcbs prevThread none }
  | .running =>
    if demotes (s.timeOnCpu prevThread) t.priority then
      let s := { s with timeOnCpu := Function.update s.timeOnCpu prevThread 0 }
      let s := s.setTcb prevThread { t with priority := t.priority + 1, status := .ready }
      enqueueLevel fuel s (t.priority + 1) prevNode
    else
      enqueueLevel fuel (s.setTcb prevThread { t with status := .ready }) t.priority prevNode
  | _ => some s

/-- The second part of `sched_mlfq`: the boost, when it is due. -/
def boost (fuel : ℕ) (s : State) : Option State :=
  if s.scheduleCycles ≥ priorityBoostCycles then do
    let s ← boostPriority fuel s
    some { s with scheduleCycles := 0 }
  else some s

/-- The third part of `sched_mlfq`: the next thread. When none is queued, the main thread goes on
with a new node, whatever its state. -/
def dispatch (μ : Malloc Node) (s : State) (stamp : Timeval) : Option Outcome := do
  let (s, next) ← getNextThreadMlfq s
  match next with
  | none =>
    match s.mainThread with
    | none => some (.exit 0)
    | some main => do
      let (w, a) ← createNode μ s.toState main
      let t ← s.tcbs main
      let s := { s with toState := { w with
        interruptDisabled := false, runningThread := some main, runningNode := some a } }
      some (.ok (s.setTcb main { t with status := .running }) none)
  | some a => do
    let n ← s.nodes a
    let t ← s.tcbs n.tcb
    if t.status = .blocked then some (.exit (-1))
    else
      some (.ok { s.setTcb n.tcb { t with status := .running, firstSchedule := false } with
        runningNode := some a
        runningThread := some n.tcb
        interruptDisabled := false
        scheduleTimestamp := stamp } none)

/-- `sched_mlfq`. -/
def schedMlfq (μ : Malloc Node) (fuel : ℕ) (s : State) (stamp : Timeval) : Option Outcome := do
  let s ← retire fuel s
  let s ← boost fuel s
  dispatch μ s stamp

/-- `worker_yield`: the switch to `schedule`. -/
def workerYield (μ : Malloc Node) (fuel : ℕ) (s : State) (now stamp : Timeval) :
    Option Outcome := do
  let s ← charge s now
  schedMlfq μ fuel s stamp

/-! ## The calls -/

/-- The part of `worker_create` that the first call runs: `init` and the main thread. -/
def createMain (μ : Malloc Node) (s : State) (stamp : Timeval) : Option State := do
  let w ← Worker.createMain μ s.toState
  some { s with
    toState := w
    scheduleTimestamp := stamp
    timeOnCpu := Function.update s.timeOnCpu s.threadCount 0 }

/-- The part of `worker_create` that every call runs. -/
def createThread (μ : Malloc Node) (fuel : ℕ) (s : State) : Option Outcome := do
  let id := s.threadCount
  let t : Tcb := .new .ready true
  let s := { s.setTcb id t with
    threadCount := s.threadCount + 1
    activeThreads := s.activeThreads + 1
    timeOnCpu := Function.update s.timeOnCpu id 0 }
  let (w, a) ← createNode μ s.toState id
  let s ← enqueueLevel fuel { s with toState := w } t.priority a
  some (.ok s (code id))

/-- The first `if` of `worker_create`. -/
def ensureMain (μ : Malloc Node) (s : State) (stamp : Timeval) : Option State :=
  if s.threadCount = 0 then createMain μ s stamp else some s

/-- `worker_create`. -/
def workerCreate (μ : Malloc Node) (fuel : ℕ) (s : State) (stamp : Timeval) : Option Outcome := do
  let s ← ensureMain μ s stamp
  createThread μ fuel s

/-- `worker_exit`. -/
def workerExit (μ : Malloc Node) (fuel : ℕ) (s : State) (valuePtr : ℕ) (now stamp : Timeval) :
    Option Outcome := do
  let id ← s.runningThread
  let t ← s.tcbs id
  if t.status ≠ .running then some (.exit (-1))
  else if valuePtr ≠ 0 ∧ numReturnValues ≤ id then none
  else
    workerYield μ fuel { s.setTcb id { t with status := .finished } with
      returnValues := if valuePtr = 0 then s.returnValues
        else Function.update s.returnValues id valuePtr
      interruptDisabled := true } now stamp

/-- `interrupt_handler`. -/
def interruptHandler (μ : Malloc Node) (fuel : ℕ) (s : State) (now stamp : Timeval) :
    Option Outcome :=
  if s.interruptDisabled then some (.ok s none) else workerYield μ fuel s now stamp

/-! ## Steps -/

/-- The calls of a program, and the timer. -/
inductive Call
  | create
  | yield
  | exit (valuePtr : ℕ)
  | preempt
  deriving DecidableEq, Repr

/-- The label of a step: the call, and what the clock shows when `schedule` charges the time and
when the next time stamp is taken. -/
structure Label where
  call : Call
  now : Timeval
  stamp : Timeval
  deriving DecidableEq, Repr

/-- One step of the running thread. -/
def exec (μ : Malloc Node) (fuel : ℕ) (s : State) (l : Label) : Option Outcome :=
  match l.call with
  | .create => workerCreate μ fuel s l.stamp
  | .yield => workerYield μ fuel { s with interruptDisabled := true } l.now l.stamp
  | .exit valuePtr => workerExit μ fuel s valuePtr l.now l.stamp
  | .preempt => interruptHandler μ fuel s l.now l.stamp

/-- The steps of the program. -/
def Step (μ : Malloc Node) (s : State) (l : Label) (s' : State) : Prop :=
  ∃ fuel ret, exec μ fuel s l = some (.ok s' ret)

end UserOS.Worker.Mlfq
