import UserOS.Lib.Run
import UserOS.Worker.Effects

/-!
# The mutex functions, statement by statement

Neither `worker_mutex_lock` nor `worker_mutex_unlock` disables the timer, so that another thread may
go on between any two of their statements. Here each statement is a step, with a program counter for
each thread.

* `statement`: what a statement does to the memory, and where its thread goes on.
* `Turn`: the steps when a switch may resume any thread, blocked or not.
* `statement_flow`: where a thread goes on after a statement.
* `statement_moves`: what a statement does to the two words `is_locked` and `owner`.
-/

namespace UserOS.Worker

open Lib

/-- Where a thread goes on: the next statement of `worker_mutex_lock` or `worker_mutex_unlock`, or
the program. -/
inductive Pc
  | idle
  /-- `__sync_lock_test_and_set(&mutex->is_locked, 1)` -/
  | lockTest
  /-- `mutex->owner == running_thread->id` -/
  | lockSame
  /-- `enqueue(mutex->wait_queue, running_node)` -/
  | lockQueue
  /-- `running_thread->status = BLOCKED` -/
  | lockStatus
  /-- `running_thread->waiting_for = mutex->owner` -/
  | lockFor
  /-- `running_thread->blocked_from_mutex = mutex` -/
  | lockFrom
  /-- `running_thread->mutex_blocked = 1` -/
  | lockFlag
  /-- `enqueue(waiting_queue, running_node)` -/
  | lockWaiting
  /-- `worker_yield()` -/
  | lockYield
  /-- `mutex->owner = running_thread->id` -/
  | takeOwner
  /-- `mutex->is_locked = 1` -/
  | takeLocked
  /-- `mutex->owner == -1 || mutex->is_locked == 0` -/
  | takeCheck
  /-- `running_thread->blocked_from_mutex = NULL` -/
  | takeFrom
  /-- `running_thread->mutex_blocked = 0` -/
  | takeFlag
  /-- `mutex->is_locked` -/
  | unlockTest
  /-- `mutex->owner != running_thread->id` -/
  | unlockSame
  /-- `mutex->is_locked = 0` -/
  | unlockClear
  /-- `mutex->owner = -1` -/
  | unlockOwner
  /-- `mutex->wait_queue->head != NULL` -/
  | unlockHead
  /-- `unblock_threads(mutex->wait_queue)` -/
  | unlockThreads
  /-- `empty_queue(mutex->wait_queue)` -/
  | unlockEmpty
  deriving DecidableEq, Repr

/-- The statement at which thread `id` is: the memory after it, where the thread goes on, and the
value if it returns. The process exits when the check of a thread that took the mutex fails;
`worker_yield` is a step of its own. -/
def statement (fuel mutex : ℕ) (s : State) (id : ℕ) : Pc → Option (State × Pc × Option ℤ)
  | .idle => none
  | .lockTest => do
    let m ← s.mutexes mutex
    some (s.setMutex mutex { m with isLocked := true },
      if m.isLocked then .lockSame else .takeOwner,
      none)
  | .lockSame => do
    let m ← s.mutexes mutex
    if m.owner = id then some (s, .idle, some 0) else some (s, .lockQueue, none)
  | .lockQueue => do
    let m ← s.mutexes mutex
    let q ← m.waitQueue
    let node ← s.runningNode
    let (nodes, q) ← enqueue fuel s.nodes q node
    some ({ s with nodes := nodes }.setMutex mutex { m with waitQueue := some q }, .lockStatus,
      none)
  | .lockStatus => do
    let t ← s.tcbs id
    some (s.setTcb id { t with status := .blocked }, .lockFor, none)
  | .lockFor => do
    let m ← s.mutexes mutex
    let t ← s.tcbs id
    some (s.setTcb id { t with waitingFor := m.owner }, .lockFrom, none)
  | .lockFrom => do
    let t ← s.tcbs id
    some (s.setTcb id { t with blockedFromMutex := some mutex }, .lockFlag, none)
  | .lockFlag => do
    let t ← s.tcbs id
    some (s.setTcb id { t with mutexBlocked := true }, .lockWaiting, none)
  | .lockWaiting => do
    let node ← s.runningNode
    let s ← enqueueWaiting fuel s node
    some (s, .lockYield, none)
  | .lockYield => none
  | .takeOwner => do
    let m ← s.mutexes mutex
    some (s.setMutex mutex { m with owner := id }, .takeLocked, none)
  | .takeLocked => do
    let m ← s.mutexes mutex
    some (s.setMutex mutex { m with isLocked := true }, .takeCheck, none)
  | .takeCheck => do
    let m ← s.mutexes mutex
    if m.owner = -1 ∨ m.isLocked = false then none else some (s, .takeFrom, none)
  | .takeFrom => do
    let t ← s.tcbs id
    some (s.setTcb id { t with blockedFromMutex := none }, .takeFlag, none)
  | .takeFlag => do
    let t ← s.tcbs id
    some (s.setTcb id { t with mutexBlocked := false }, .idle, some 0)
  | .unlockTest => do
    let m ← s.mutexes mutex
    if m.isLocked then some (s, .unlockSame, none) else some (s, .idle, some (-1))
  | .unlockSame => do
    let m ← s.mutexes mutex
    if m.owner = id then some (s, .unlockClear, none) else some (s, .idle, some (-1))
  | .unlockClear => do
    let m ← s.mutexes mutex
    some (s.setMutex mutex { m with isLocked := false }, .unlockOwner, none)
  | .unlockOwner => do
    let m ← s.mutexes mutex
    some (s.setMutex mutex { m with owner := -1 }, .unlockHead, none)
  | .unlockHead => do
    let m ← s.mutexes mutex
    let q ← m.waitQueue
    if q.head = none then some (s, .idle, some 0) else some (s, .unlockThreads, none)
  | .unlockThreads => do
    let m ← s.mutexes mutex
    let q ← m.waitQueue
    let (s, _) ← unblockThreads fuel s q
    some (s, .unlockEmpty, none)
  | .unlockEmpty => do
    let m ← s.mutexes mutex
    let _ ← m.waitQueue
    some (s.setMutex mutex { m with waitQueue := some .empty }, .idle, some 0)

/-- The memory, where each thread goes on, and which threads hold the mutex: a thread does from the
moment its test-and-set returns 0 until its own store `is_locked = 0`. -/
structure Threaded where
  mem : State
  pc : ℕ → Pc
  holds : ℕ → Bool

/-- Whether a thread holds the mutex after a statement that leads from `pc` to `pc'`. -/
def holdsAfter (pc pc' : Pc) (before : Bool) : Bool :=
  if pc = .lockTest ∧ pc' = .takeOwner then true
  else if pc = .unlockClear then false
  else before

/-- What happens in a step. -/
inductive Move
  | create
  | switch
  | call (id : ℕ) (pc : Pc)
  | statement (id : ℕ) (ret : Option ℤ)
  | yield (id : ℕ)
  deriving DecidableEq, Repr

/-- The thread that runs calls a function or executes the statement at which it is. -/
inductive Advance (mutex : ℕ) (f : Threaded) : Move → Threaded → Prop
  | call {id : ℕ} {pc : Pc} : f.mem.runningThread = some id → f.pc id = .idle →
      pc = .lockTest ∨ pc = .unlockTest →
      Advance mutex f (.call id pc) { f with pc := Function.update f.pc id pc }
  | statement {id fuel : ℕ} {mem : State} {pc : Pc} {ret : Option ℤ} :
      f.mem.runningThread = some id →
      statement fuel mutex f.mem id (f.pc id) = some (mem, pc, ret) →
      Advance mutex f (.statement id ret)
        ⟨mem, Function.update f.pc id pc,
          Function.update f.holds id (holdsAfter (f.pc id) pc (f.holds id))⟩

/-- The steps when the timer may switch to any thread before any statement, and so may the
`worker_yield` of a thread that blocks: the scheduler may do anything that leaves the mutex alone.
-/
inductive Turn (mutex : ℕ) (f : Threaded) : Move → Threaded → Prop
  | advance {e : Move} {g : Threaded} : Advance mutex f e g → Turn mutex f e g
  | switch {e : Move} {mem : State} : e = .create ∨ e = .switch →
      mem.mutexes mutex = f.mem.mutexes mutex → Turn mutex f e { f with mem := mem }
  | yield {id : ℕ} {mem : State} : f.mem.runningThread = some id → f.pc id = .lockYield →
      mem.mutexes mutex = f.mem.mutexes mutex →
      Turn mutex f (.yield id) { f with mem := mem, pc := Function.update f.pc id .lockTest }

/-- The mutex has just been initialised and no thread has called a function on it. -/
def Initialised (mutex : ℕ) (f : Threaded) : Prop :=
  (∃ s, workerMutexInit s mutex = .ok f.mem (code 0)) ∧ (∀ id, f.pc id = .idle) ∧
    ∀ id, f.holds id = false

/-! ## Control flow -/

/-- Where a thread goes on after a statement, with what the call returned if it returned. -/
def Pc.flow : Pc → List (Pc × Option ℤ)
  | .idle | .lockYield => []
  | .lockTest => [(.lockSame, none), (.takeOwner, none)]
  | .lockSame => [(.lockQueue, none), (.idle, some 0)]
  | .lockQueue => [(.lockStatus, none)]
  | .lockStatus => [(.lockFor, none)]
  | .lockFor => [(.lockFrom, none)]
  | .lockFrom => [(.lockFlag, none)]
  | .lockFlag => [(.lockWaiting, none)]
  | .lockWaiting => [(.lockYield, none)]
  | .takeOwner => [(.takeLocked, none)]
  | .takeLocked => [(.takeCheck, none)]
  | .takeCheck => [(.takeFrom, none)]
  | .takeFrom => [(.takeFlag, none)]
  | .takeFlag => [(.idle, some 0)]
  | .unlockTest => [(.unlockSame, none), (.idle, some (-1))]
  | .unlockSame => [(.unlockClear, none), (.idle, some (-1))]
  | .unlockClear => [(.unlockOwner, none)]
  | .unlockOwner => [(.unlockHead, none)]
  | .unlockHead => [(.unlockThreads, none), (.idle, some 0)]
  | .unlockThreads => [(.unlockEmpty, none)]
  | .unlockEmpty => [(.idle, some 0)]

theorem statement_flow {s s' : State} {mutex id fuel : ℕ} {pc pc' : Pc} {ret : Option ℤ}
    (hs : statement fuel mutex s id pc = some (s', pc', ret)) : (pc', ret) ∈ pc.flow := by
  cases pc <;> simp only [statement, Option.bind_eq_bind, Option.bind_eq_some_iff] at hs
  all_goals simp only [Pc.flow]
  all_goals grind

/-! ## The two words -/

/-- The words `is_locked` and `owner`. -/
def words (s : State) (mutex : ℕ) : Option (Bool × ℤ) := do
  let m ← s.mutexes mutex
  some (m.isLocked, m.owner)

/-- The statements that write one of the words. -/
def Pc.writes : Pc → Bool
  | .lockTest | .takeOwner | .takeLocked | .unlockClear | .unlockOwner => true
  | _ => false

/-- The statements that only a thread which took the mutex arrives at. -/
def Pc.critical : Pc → Bool
  | .takeOwner | .takeLocked | .takeCheck | .unlockClear | .unlockOwner => true
  | _ => false

/-- What a statement of thread `id` that leads from `pc` to `pc'` does to the words. -/
inductive Moves (id : ℕ) : Bool × ℤ → Pc → Bool × ℤ → Pc → Prop
  | acquire {o : ℤ} : Moves id (false, o) .lockTest (true, o) .takeOwner
  | fail {o : ℤ} : Moves id (true, o) .lockTest (true, o) .lockSame
  | setOwner {b : Bool} {o : ℤ} : Moves id (b, o) .takeOwner (b, id) .takeLocked
  | setLocked {b : Bool} {o : ℤ} : Moves id (b, o) .takeLocked (true, o) .takeCheck
  | mayClear {b : Bool} : Moves id (b, id) .unlockSame (b, id) .unlockClear
  | clear {b : Bool} {o : ℤ} : Moves id (b, o) .unlockClear (false, o) .unlockOwner
  | clearOwner {b : Bool} {o : ℤ} : Moves id (b, o) .unlockOwner (b, -1) .unlockHead
  | other {w : Bool × ℤ} {pc pc' : Pc} : pc.writes = false → pc'.critical = false →
      Moves id w pc w pc'

variable {s s' : State} {mutex id fuel : ℕ} {pc pc' : Pc} {ret : Option ℤ} {w : Bool × ℤ}
  {m : Mutex} {t : Tcb} {q : Queue}

theorem words_setMutex : words (s.setMutex mutex m) mutex = some (m.isLocked, m.owner) := by
  simp [words, State.setMutex]

theorem words_congr (hm : s'.mutexes = s.mutexes) : words s' mutex = words s mutex := by
  simp [words, hm]

theorem mutexes_enqueueWaiting {a : ℕ} (he : enqueueWaiting fuel s a = some s') :
    s'.mutexes = s.mutexes := by
  obtain ⟨h, r, w, rfl⟩ := (enqueueWaiting_moved he).rest
  rfl

theorem mutexes_unblockThreads {q : Queue} {ids : List ℕ}
    (hu : unblockThreads fuel s q = some (s', ids)) : s'.mutexes = s.mutexes := by
  obtain ⟨l, -, hrel⟩ := unblockLoop_releases hu
  obtain ⟨h, r, w, u, rfl⟩ := hrel.rest
  rfl

/-- What a statement does to the words. -/
theorem statement_moves (hs : statement fuel mutex s id pc = some (s', pc', ret))
    (hw : words s mutex = some w) : ∃ w', words s' mutex = some w' ∧ Moves id w pc w' pc' := by
  obtain ⟨m, hm, hmw⟩ := Option.bind_eq_some_iff.1 hw
  obtain rfl := Option.some.inj hmw
  cases pc with
  | idle | lockYield => cases hs
  | lockTest =>
    simp only [statement, hm, Option.bind_eq_bind, Option.bind_some, Option.some.injEq,
      Prod.mk.injEq] at hs
    obtain ⟨rfl, rfl, -⟩ := hs
    refine ⟨_, words_setMutex, ?_⟩
    cases hl : m.isLocked with
    | true => exact .fail
    | false => exact .acquire
  | lockSame | unlockTest | takeCheck =>
    simp only [statement, hm, Option.bind_eq_bind, Option.bind_some] at hs
    split_ifs at hs <;> cases hs <;> exact ⟨_, hw, .other rfl rfl⟩
  | unlockSame =>
    simp only [statement, hm, Option.bind_eq_bind, Option.bind_some] at hs
    split_ifs at hs with ho <;> cases hs
    · exact ⟨_, hw, ho ▸ .mayClear⟩
    · exact ⟨_, hw, .other rfl rfl⟩
  | takeOwner =>
    simp only [statement, hm, Option.bind_eq_bind, Option.bind_some] at hs
    cases hs
    exact ⟨_, words_setMutex, .setOwner⟩
  | takeLocked =>
    simp only [statement, hm, Option.bind_eq_bind, Option.bind_some] at hs
    cases hs
    exact ⟨_, words_setMutex, .setLocked⟩
  | unlockClear =>
    simp only [statement, hm, Option.bind_eq_bind, Option.bind_some] at hs
    cases hs
    exact ⟨_, words_setMutex, .clear⟩
  | unlockOwner =>
    simp only [statement, hm, Option.bind_eq_bind, Option.bind_some] at hs
    cases hs
    exact ⟨_, words_setMutex, .clearOwner⟩
  | lockQueue =>
    simp only [statement, hm, Option.bind_eq_bind, Option.bind_some] at hs
    obtain ⟨q, -, hs⟩ := Option.bind_eq_some_iff.1 hs
    obtain ⟨node, -, hs⟩ := Option.bind_eq_some_iff.1 hs
    obtain ⟨⟨h, q⟩, -, hs⟩ := Option.bind_eq_some_iff.1 hs
    cases hs
    exact ⟨_, words_setMutex, .other rfl rfl⟩
  | lockStatus | lockFrom | lockFlag | takeFrom | takeFlag =>
    obtain ⟨t, -, hs⟩ := Option.bind_eq_some_iff.1 hs
    cases hs
    exact ⟨_, hw, .other rfl rfl⟩
  | lockFor =>
    obtain ⟨m, -, hs⟩ := Option.bind_eq_some_iff.1 hs
    obtain ⟨t, -, hs⟩ := Option.bind_eq_some_iff.1 hs
    cases hs
    exact ⟨_, hw, .other rfl rfl⟩
  | lockWaiting =>
    obtain ⟨node, -, hs⟩ := Option.bind_eq_some_iff.1 hs
    obtain ⟨u, henq, hs⟩ := Option.bind_eq_some_iff.1 hs
    cases hs
    exact ⟨_, (words_congr (mutexes_enqueueWaiting henq)).trans hw, .other rfl rfl⟩
  | unlockHead =>
    simp only [statement, hm, Option.bind_eq_bind, Option.bind_some] at hs
    obtain ⟨q, -, hs⟩ := Option.bind_eq_some_iff.1 hs
    split_ifs at hs <;> cases hs <;> exact ⟨_, hw, .other rfl rfl⟩
  | unlockThreads =>
    simp only [statement, hm, Option.bind_eq_bind, Option.bind_some] at hs
    obtain ⟨q, -, hs⟩ := Option.bind_eq_some_iff.1 hs
    obtain ⟨⟨u, ids⟩, hu, hs⟩ := Option.bind_eq_some_iff.1 hs
    cases hs
    exact ⟨_, (words_congr (mutexes_unblockThreads hu)).trans hw, .other rfl rfl⟩
  | unlockEmpty =>
    simp only [statement, hm, Option.bind_eq_bind, Option.bind_some] at hs
    obtain ⟨q, -, hs⟩ := Option.bind_eq_some_iff.1 hs
    cases hs
    exact ⟨_, words_setMutex, .other rfl rfl⟩

/-! ## The wait queue -/

/-- The mutex is there, with its wait queue. -/
def HasWaitQueue (s : State) (mutex : ℕ) : Prop :=
  ∃ m q, s.mutexes mutex = some m ∧ m.waitQueue = some q

theorem hasWaitQueue_setMutex (hq : m.waitQueue = some q) :
    HasWaitQueue (s.setMutex mutex m) mutex :=
  ⟨m, q, Function.update_self .., hq⟩

theorem hasWaitQueue_congr (hm : s'.mutexes = s.mutexes) :
    HasWaitQueue s' mutex ↔ HasWaitQueue s mutex := by
  rw [HasWaitQueue, hm, HasWaitQueue]

theorem hasWaitQueue_setTcb : HasWaitQueue (s.setTcb id t) mutex ↔ HasWaitQueue s mutex := .rfl

theorem statement_hasWaitQueue (hs : statement fuel mutex s id pc = some (s', pc', ret))
    (hw : HasWaitQueue s mutex) : HasWaitQueue s' mutex := by
  have ⟨m, q, hm, hq⟩ := hw
  by_cases hpc : pc = .lockWaiting ∨ pc = .unlockThreads
  · refine (hasWaitQueue_congr ?_).2 hw
    rcases hpc with rfl | rfl
    · obtain ⟨node, -, hs⟩ := Option.bind_eq_some_iff.1 hs
      obtain ⟨u, henq, hs⟩ := Option.bind_eq_some_iff.1 hs
      cases hs
      exact mutexes_enqueueWaiting henq
    · obtain ⟨m, -, hs⟩ := Option.bind_eq_some_iff.1 hs
      obtain ⟨q, -, hs⟩ := Option.bind_eq_some_iff.1 hs
      obtain ⟨⟨u, ids⟩, hu, hs⟩ := Option.bind_eq_some_iff.1 hs
      cases hs
      exact mutexes_unblockThreads hu
  · rw [not_or] at hpc
    cases pc <;>
      simp only [statement, Option.bind_eq_bind, Option.bind_eq_some_iff] at hs <;>
      grind [hasWaitQueue_setMutex, hasWaitQueue_setTcb]

end UserOS.Worker
