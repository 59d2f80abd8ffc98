import Mathlib.Tactic.Ring
import UserOS.Worker.Mlfq

/-!
# The time stamps and `update_time_stats`

A control block has three time stamps: its creation, its first turn on the processor, and the last
time that it left it. When a thread exits, two averages over the threads that have finished are
brought up to date. Their number is not stored: it is the difference of two counters.

`Build` lists the parts of the calls between which the stamps are taken, so that both builds, Round
Robin and MLFQ, are covered by one model. The doubles are exact rationals.

* `statMs_eq`: the borrow of the elapsed time.
* `Timed`, `exec`: the calls of a build with their time stamps.
* `Scheduler.lawful`: what the parts of a build do to the counters and the control blocks.
-/

namespace UserOS.Worker.Stats

open Lib
open Mlfq (Timeval mlfqLevels)

/-! ## The averages -/

/-- The time stamps of the control blocks, by thread, and the two averages. -/
structure Times where
  created : ℕ → Timeval
  firstRun : ℕ → Timeval
  finished : ℕ → Timeval
  avgTurnaround : ℚ
  avgResponse : ℚ

/-- The milliseconds that `update_time_stats` computes from one stamp to another. -/
def statMs (start stop : Timeval) : ℚ :=
  let ms : ℚ := ((stop.sec - start.sec) * 1000 : ℤ)
  if ms = 0 then ms + ((stop.usec - start.usec).tdiv 1000 : ℤ)
  else ms - 1000 + (((1000000 - start.usec) + stop.usec).tdiv 1000 : ℤ)

/-- `update_time_stats` for the running thread `id`, but for the counter. -/
def updateTimeStats (w : Worker.State) (id : ℕ) (T : Times) : Times :=
  let turnaround := statMs (T.created id) (T.finished id)
  let response := statMs (T.created id) (T.firstRun id)
  let threadsFinished : ℤ := w.threadCount - w.activeThreads
  { T with
    avgTurnaround := (threadsFinished * T.avgTurnaround + turnaround) / (threadsFinished + 1 : ℤ)
    avgResponse := (threadsFinished * T.avgResponse + response) / (threadsFinished + 1 : ℤ) }

/-- The microseconds that a reading of the clock stands for. -/
def micros (t : Timeval) : ℤ := t.sec * 1000000 + t.usec

/-- The microsecond field of a reading of the clock is in range. -/
def Reading (t : Timeval) : Prop := 0 ≤ t.usec ∧ t.usec < 1000000

instance {t : Timeval} : Decidable (Reading t) := inferInstanceAs (Decidable (_ ∧ _))

/-- The milliseconds from one reading to another, rounded down. -/
def wholeMs (start stop : Timeval) : ℤ := (micros stop - micros start) / 1000

/-- **The borrow.** What is computed from one reading to a later one are the whole milliseconds. -/
theorem statMs_eq {start stop : Timeval} (hstart : Reading start) (hstop : Reading stop)
    (hle : micros start ≤ micros stop) : statMs start stop = wholeMs start stop := by
  obtain ⟨h1, h2⟩ := hstart
  obtain ⟨h3, h4⟩ := hstop
  unfold micros at hle
  unfold statMs wholeMs micros
  by_cases hsec : stop.sec = start.sec
  · have hms : (((stop.sec - start.sec) * 1000 : ℤ) : ℚ) = 0 := by simp [hsec]
    rw [hsec] at hle
    simp only [hms, if_true, zero_add]
    rw [Int.tdiv_eq_ediv_of_nonneg (by omega)]
    congr 2
    omega
  · have hms : (((stop.sec - start.sec) * 1000 : ℤ) : ℚ) ≠ 0 := by
      exact_mod_cast (by omega : (stop.sec - start.sec) * 1000 ≠ 0)
    simp only [if_neg hms]
    rw [Int.tdiv_eq_ediv_of_nonneg (by omega)]
    have hdiv : (stop.sec * 1000000 + stop.usec - (start.sec * 1000000 + start.usec)) / 1000 =
        (stop.sec - start.sec) * 1000 - 1000 + (1000000 - start.usec + stop.usec) / 1000 := by
      omega
    rw [hdiv]
    push_cast
    ring

/-! ## The builds -/

/-- A build of the library: its state, of which `globals` is the part that both builds share, and
the parts of its calls between which the clock is read. A part that reads through a null or freed
pointer has no result, and `dispatch` may also end the process. -/
structure Build where
  State : Type
  globals : State → Worker.State
  withGlobals : State → Worker.State → State
  start : State
  /-- The part of `worker_create` that the first call runs. -/
  createMain : Malloc Node → State → Timeval → Option State
  /-- The part of `worker_create` that every call runs. -/
  createThread : Malloc Node → ℕ → State → Option State
  /-- What `schedule` does with the time on the processor. -/
  charge : State → Timeval → Option State
  /-- The policy up to the choice of the next thread. -/
  retire : ℕ → State → Option State
  /-- Whether there is a thread to choose. -/
  queued : State → Bool
  /-- The rest of the policy. -/
  dispatch : Malloc Node → State → Timeval → Option (Option State)

/-- The state that the process goes on in, if it does. -/
def goesOn : Worker.Outcome → Option Worker.State
  | .ok s _ => some s
  | .exit _ => none

/-- The same for the MLFQ build. -/
def mlfqGoesOn : Mlfq.Outcome → Option Mlfq.State
  | .ok s _ => some s
  | .exit _ => none

/-- The library built with `SCHEDULER rr`. Its policy does not read the time on the processor. -/
def rr : Build where
  State := Worker.State
  globals s := s
  withGlobals _ w := w
  start := .start
  createMain μ s _ := Worker.createMain μ s
  createThread μ fuel s := (Worker.createThread μ fuel s).bind goesOn
  charge s _ := some s
  retire := Worker.retire
  queued s := s.readyQueue.head.isSome
  dispatch μ s _ := (Worker.dispatch μ s).map goesOn

/-- The library built with `SCHEDULER mlfq`. -/
def mlfq : Build where
  State := Mlfq.State
  globals s := s.toState
  withGlobals s w := { s with toState := w }
  start := .start
  createMain := Mlfq.createMain
  createThread μ fuel s := (Mlfq.createThread μ fuel s).bind mlfqGoesOn
  charge := Mlfq.charge
  retire fuel s := Mlfq.retire fuel s >>= Mlfq.boost fuel
  queued s := (List.range mlfqLevels).any fun i => (s.mlfqQueue i).head.isSome
  dispatch μ s stamp := (Mlfq.dispatch μ s stamp).map mlfqGoesOn

/-- `SCHEDULER`. -/
inductive Scheduler
  | rr
  | mlfq
  deriving DecidableEq, Repr

/-- The build with that scheduler. -/
def Scheduler.build : Scheduler → Build
  | .rr => Stats.rr
  | .mlfq => Stats.mlfq

/-! ## The calls with their time stamps -/

/-- The state of a build with the time stamps. -/
structure Timed (b : Build) where
  state : b.State
  times : Times

/-- What the clock shows when it is read in a step: for the main thread, for the time stamp of the
scheduler, and for the three stamps of a thread. -/
structure Readings where
  mainCreated : Timeval
  mainFirstRun : Timeval
  stamp : Timeval
  created : Timeval
  firstRun : Timeval
  finished : Timeval
  deriving DecidableEq, Repr

variable {b : Build}

/-- The globals that both builds share. -/
def Timed.globals (s : Timed b) : Worker.State := b.globals s.state

/-- The state with other globals. -/
def Timed.withGlobals (s : Timed b) (w : Worker.State) : Timed b :=
  { s with state := b.withGlobals s.state w }

/-- Before the first call. -/
def Timed.start (b : Build) : Timed b :=
  ⟨b.start, fun _ => ⟨0, 0⟩, fun _ => ⟨0, 0⟩, fun _ => ⟨0, 0⟩, 0, 0⟩

/-- The first `if` of `worker_create`. -/
def ensureMain (μ : Malloc Node) (s : Timed b) (r : Readings) : Option (Timed b) :=
  if s.globals.threadCount = 0 then do
    let id := s.globals.threadCount
    let state ← b.createMain μ s.state r.stamp
    some ⟨state, {
      created := Function.update s.times.created id r.mainCreated
      firstRun := Function.update s.times.firstRun id r.mainFirstRun
      finished := Function.update s.times.finished id ⟨0, 0⟩
      avgTurnaround := 0
      avgResponse := 0 }⟩
  else some s

/-- The part of `worker_create` that every call runs. -/
def createThread (μ : Malloc Node) (fuel : ℕ) (s : Timed b) (r : Readings) :
    Option (Timed b) := do
  let id := s.globals.threadCount
  let state ← b.createThread μ fuel s.state
  some ⟨state, { s.times with
    created := Function.update s.times.created id r.created
    firstRun := Function.update s.times.firstRun id ⟨0, 0⟩
    finished := Function.update s.times.finished id ⟨0, 0⟩ }⟩

/-- `worker_create`. -/
def workerCreate (μ : Malloc Node) (fuel : ℕ) (s : Timed b) (r : Readings) :
    Option (Timed b) := do
  let s ← ensureMain μ s r
  createThread μ fuel s r

/-- `schedule` up to the policy. -/
def stampFinished (s : Timed b) (r : Readings) : Option (Timed b) := do
  let id ← s.globals.runningThread
  let _ ← s.globals.tcbs id
  let state ← b.charge s.state r.finished
  some ⟨state, { s.times with finished := Function.update s.times.finished id r.finished }⟩

/-- The policy up to the choice of the next thread: `update_time_stats` is called for a thread that
has finished. -/
def retire (fuel : ℕ) (s : Timed b) : Option (Timed b) := do
  let id ← s.globals.runningThread
  let t ← s.globals.tcbs id
  let state ← b.retire fuel s.state
  some ⟨state, if t.status = .finished then updateTimeStats s.globals id s.times else s.times⟩

/-- The first turn of a thread is stamped. -/
def stampFirstRun (s : Timed b) (id : ℕ) (r : Readings) : Times :=
  if b.queued s.state ∧ (s.globals.tcbs id).any Tcb.firstSchedule then
    { s.times with firstRun := Function.update s.times.firstRun id r.firstRun }
  else s.times

/-- The rest of the policy. -/
def dispatch (μ : Malloc Node) (s : Timed b) (r : Readings) : Option (Option (Timed b)) := do
  match ← b.dispatch μ s.state r.stamp with
  | none => some none
  | some state =>
    let id ← (b.globals state).runningThread
    some (some ⟨state, stampFirstRun s id r⟩)

/-- `schedule` up to the choice of the next thread. -/
def leave (fuel : ℕ) (s : Timed b) (r : Readings) : Option (Timed b) := do
  let s ← stampFinished s r
  retire fuel s

/-- `worker_yield`: the switch to `schedule`. -/
def workerYield (μ : Malloc Node) (fuel : ℕ) (s : Timed b) (r : Readings) :
    Option (Option (Timed b)) := do
  let s ← leave fuel s r
  dispatch μ s r

/-- `worker_exit` up to its switch, for a thread that is running. -/
def markFinished (s : Timed b) (valuePtr : ℕ) : Option (Timed b) := do
  let w := s.globals
  let id ← w.runningThread
  let t ← w.tcbs id
  if t.status ≠ .running then none
  else if valuePtr ≠ 0 ∧ numReturnValues ≤ id then none
  else
    some (s.withGlobals { w.setTcb id { t with status := .finished } with
      returnValues := if valuePtr = 0 then w.returnValues
        else Function.update w.returnValues id valuePtr
      interruptDisabled := true })

/-- `worker_exit` up to the end of `update_time_stats`. -/
def exitUpdated (fuel : ℕ) (s : Timed b) (valuePtr : ℕ) (r : Readings) : Option (Timed b) := do
  let s ← markFinished s valuePtr
  leave fuel s r

/-- `worker_exit`. -/
def workerExit (μ : Malloc Node) (fuel : ℕ) (s : Timed b) (valuePtr : ℕ) (r : Readings) :
    Option (Option (Timed b)) := do
  let s ← exitUpdated fuel s valuePtr r
  dispatch μ s r

/-- One step of the running thread. -/
def exec (μ : Malloc Node) (fuel : ℕ) (s : Timed b) (r : Readings) :
    Mlfq.Call → Option (Option (Timed b))
  | .create => (workerCreate μ fuel s r).map some
  | .yield => workerYield μ fuel (s.withGlobals { s.globals with interruptDisabled := true }) r
  | .exit valuePtr => workerExit μ fuel s valuePtr r
  | .preempt => if s.globals.interruptDisabled then some (some s) else workerYield μ fuel s r

/-- The steps of the program after which the process goes on. -/
def Step (μ : Malloc Node) (s : Timed b) (l : Mlfq.Call × Readings) (s' : Timed b) : Prop :=
  ∃ fuel, exec μ fuel s l.2 l.1 = some (some s')

/-! ## What the parts of a build do -/

/-- The counters and the set of control blocks are the same. -/
structure SameThreads (w w' : Worker.State) : Prop where
  count : w'.threadCount = w.threadCount
  active : w'.activeThreads = w.activeThreads
  live : w'.live = w.live

/-- A thread was created. -/
structure Spawned (w w' : Worker.State) : Prop where
  count : w'.threadCount = w.threadCount + 1
  active : w'.activeThreads = w.activeThreads + 1
  live : ∀ i, w'.live i = (decide (i = w.threadCount) || w.live i)

/-- The thread `id` went. -/
structure Ended (w w' : Worker.State) (id : ℕ) : Prop where
  count : w'.threadCount = w.threadCount
  active : w'.activeThreads = w.activeThreads - 1
  live : ∀ i, w'.live i = (!decide (i = id) && w.live i)

/-- What the averages need to know of a build. -/
structure Build.Lawful (b : Build) : Prop where
  set : ∀ s w, b.globals (b.withGlobals s w) = w
  start : b.globals b.start = .start
  createMain : ∀ {μ s stamp s'}, b.createMain μ s stamp = some s' →
    Spawned (b.globals s) (b.globals s')
  createThread : ∀ {μ fuel s s'}, b.createThread μ fuel s = some s' →
    Spawned (b.globals s) (b.globals s')
  charge : ∀ {s now s'}, b.charge s now = some s' →
    SameThreads (b.globals s) (b.globals s') ∧
      (b.globals s').runningThread = (b.globals s).runningThread ∧
      (b.globals s').tcbs = (b.globals s).tcbs
  retire : ∀ {fuel s s' id t}, b.retire fuel s = some s' →
    (b.globals s).runningThread = some id → (b.globals s).tcbs id = some t →
    if t.status = .finished then Ended (b.globals s) (b.globals s') id
    else SameThreads (b.globals s) (b.globals s')
  dispatch : ∀ {μ s stamp s'}, b.dispatch μ s stamp = some (some s') →
    SameThreads (b.globals s) (b.globals s')

section RoundRobin

variable {w w' : Worker.State} {id fuel a : ℕ} {t : Tcb} {μ : Malloc Node}

theorem SameThreads.refl (w : Worker.State) : SameThreads w w := ⟨rfl, rfl, rfl⟩

theorem SameThreads.trans {w'' : Worker.State} (h : SameThreads w w') (h' : SameThreads w' w'') :
    SameThreads w w'' :=
  ⟨h'.count.trans h.count, h'.active.trans h.active, h'.live.trans h.live⟩

theorem live_setTcb (t' : Tcb) (i : ℕ) :
    (w.setTcb id t').live i = (decide (i = id) || w.live i) := by
  unfold Worker.State.live Worker.State.setTcb
  by_cases hi : i = id
  · simp [hi]
  · simp [hi]

theorem sameThreads_setTcb (ht : w.tcbs id = some t) (t' : Tcb) :
    SameThreads w (w.setTcb id t') where
  count := rfl
  active := rfl
  live := by
    funext i
    rw [live_setTcb]
    by_cases hi : i = id
    · simp [hi, Worker.State.live, ht]
    · simp [hi]

theorem sameThreads_releases {ids : List ℕ} (hr : Releases ids w w') : SameThreads w w' := by
  obtain ⟨h, r, q, u, hw'⟩ := hr.rest
  exact ⟨by rw [hw'], by rw [hw'], hr.live⟩

theorem createNode_same (hc : createNode μ w id = some (w', a)) : SameThreads w w' := by
  obtain ⟨addr, -, hc⟩ := Option.bind_eq_some_iff.1 hc
  cases hc
  exact ⟨rfl, rfl, rfl⟩

/-- The control block of a new thread, and the counters. -/
theorem spawned {status : Status} {first : Bool}
    (h : SameThreads { w.setTcb w.threadCount (.new status first) with
      threadCount := w.threadCount + 1, activeThreads := w.activeThreads + 1 } w') :
    Spawned w w' where
  count := h.count
  active := h.active
  live i := by
    rw [h.live]
    exact live_setTcb _ i

theorem rr_lawful : rr.Lawful where
  set _ _ := rfl
  start := rfl
  createMain {μ s stamp s'} hm := by
    obtain ⟨⟨w, a⟩, hnode, hm⟩ := Option.bind_eq_some_iff.1 hm
    cases hm
    have hsame := createNode_same hnode
    exact @spawned s _ .running false ⟨hsame.count, hsame.active, hsame.live⟩
  createThread {μ fuel s s'} hc := by
    obtain ⟨o, hc, ho⟩ := Option.bind_eq_some_iff.1 hc
    obtain ⟨⟨w, a⟩, hnode, hc⟩ := Option.bind_eq_some_iff.1 hc
    obtain ⟨x, henq, hc⟩ := Option.bind_eq_some_iff.1 hc
    cases hc
    cases ho
    exact @spawned s _ .ready true
      ((createNode_same hnode).trans (sameThreads_releases (enqueueReady_moved henq).releases))
  charge hc := by
    cases hc
    exact ⟨.refl _, rfl, rfl⟩
  retire {fuel s s' id t} hr hid ht := by
    obtain ⟨i, hi, hr⟩ := Option.bind_eq_some_iff.1 hr
    obtain rfl := Option.some.inj (hid.symm.trans hi)
    obtain ⟨node, -, hr⟩ := Option.bind_eq_some_iff.1 hr
    obtain ⟨u, hu, hr⟩ := Option.bind_eq_some_iff.1 hr
    obtain rfl := Option.some.inj (ht.symm.trans hu)
    have hready : ∀ {x}, enqueueReady fuel (s.setTcb id { t with status := .ready }) node = some x →
        SameThreads s x := fun henq =>
      (sameThreads_setTcb ht _).trans (sameThreads_releases (enqueueReady_moved henq).releases)
    cases hst : t.status with
    | finished =>
      rw [hst] at hr
      obtain ⟨x, hrel, hr⟩ := Option.bind_eq_some_iff.1 hr
      cases hr
      have hsame := sameThreads_releases (releaseThreads_releases hrel).1
      rw [if_pos rfl]
      refine ⟨hsame.count, congrArg (· - 1) hsame.active, fun i => ?_⟩
      show Option.isSome (Function.update x.tcbs id none i) = (!decide (i = id) && s.live i)
      rw [← hsame.live]
      by_cases hi : i = id
      · simp [hi]
      · simp [hi, Worker.State.live]
    | blocked =>
      rw [hst] at hr
      cases hr
      rw [if_neg (by decide)]
      exact .refl s
    | running =>
      rw [hst] at hr
      rw [if_neg (by decide)]
      exact hready hr
    | ready =>
      rw [hst] at hr
      rw [if_neg (by decide)]
      exact hready hr
  dispatch {μ s stamp s'} hd := by
    obtain ⟨o, hd, ho⟩ := Option.map_eq_some_iff.1 hd
    cases o with
    | exit code => cases ho
    | ok x ret =>
      cases ho
      obtain ⟨⟨h, q, next⟩, -, hd⟩ := Option.bind_eq_some_iff.1 hd
      cases next with
      | some a =>
        obtain ⟨n, -, hd⟩ := Option.bind_eq_some_iff.1 hd
        obtain ⟨t, ht, hd⟩ := Option.bind_eq_some_iff.1 hd
        split_ifs at hd
        · cases hd
        · cases hd
          have hsame := @sameThreads_setTcb s n.tcb t ht { t with
            status := .running, firstSchedule := false }
          exact ⟨hsame.count, hsame.active, hsame.live⟩
      | none =>
        cases hmain : s.mainThread with
        | none =>
          simp only [hmain] at hd
          cases hd
        | some main =>
          simp only [hmain] at hd
          obtain ⟨⟨x, a⟩, hnode, hd⟩ := Option.bind_eq_some_iff.1 hd
          obtain ⟨t, ht, hd⟩ := Option.bind_eq_some_iff.1 hd
          cases hd
          have hfirst := createNode_same hnode
          have hsame := sameThreads_setTcb ht { t with status := .running }
          exact ⟨hsame.count.trans hfirst.count, hsame.active.trans hfirst.active,
            hsame.live.trans hfirst.live⟩

end RoundRobin

section Mlfq

variable {s s' : Mlfq.State} {id i fuel a : ℕ} {t : Tcb} {μ : Malloc Node}

theorem mlfq_setTcb_same (ht : s.tcbs id = some t) (t' : Tcb) :
    SameThreads s.toState (s.setTcb id t').toState := by
  have hsame := sameThreads_setTcb ht t'
  exact ⟨hsame.count, hsame.active, hsame.live⟩

theorem enqueueLevel_same (he : Mlfq.enqueueLevel fuel s i a = some s') :
    SameThreads s.toState s'.toState := by
  unfold Mlfq.enqueueLevel at he
  split_ifs at he
  obtain ⟨⟨nodes, q⟩, -, he⟩ := Option.bind_eq_some_iff.1 he
  cases he
  exact ⟨rfl, rfl, rfl⟩

theorem popLevel_same {r : Option ℕ} (hp : Mlfq.popLevel s i = some (s', r)) :
    SameThreads s.toState s'.toState := by
  obtain ⟨⟨nodes, q, r'⟩, -, hp⟩ := Option.bind_eq_some_iff.1 hp
  cases hp
  exact ⟨rfl, rfl, rfl⟩

theorem boostLevel_same {n : ℕ} (hb : Mlfq.boostLevel fuel n s i = some s') :
    SameThreads s.toState s'.toState := by
  induction n generalizing s with
  | zero => cases hb
  | succ n ih =>
    obtain ⟨⟨s₁, newNode⟩, hpop, hb⟩ := Option.bind_eq_some_iff.1 hb
    have hpopped := popLevel_same hpop
    cases newNode with
    | none =>
      cases hb
      exact hpopped
    | some a =>
      obtain ⟨s₂, henq, hb⟩ := Option.bind_eq_some_iff.1 hb
      obtain ⟨node, -, hb⟩ := Option.bind_eq_some_iff.1 hb
      obtain ⟨t, ht, hb⟩ := Option.bind_eq_some_iff.1 hb
      exact ((hpopped.trans (enqueueLevel_same henq)).trans (mlfq_setTcb_same ht _)).trans (ih hb)

theorem boostLevels_same {is : List ℕ} (hb : is.foldlM (Mlfq.boostLevel fuel fuel) s = some s') :
    SameThreads s.toState s'.toState := by
  induction is generalizing s with
  | nil =>
    cases hb
    exact .refl _
  | cons i is ih =>
    rw [List.foldlM_cons] at hb
    obtain ⟨s₁, hfirst, hb⟩ := Option.bind_eq_some_iff.1 hb
    exact (boostLevel_same hfirst).trans (ih hb)

theorem boost_same (hb : Mlfq.boost fuel s = some s') : SameThreads s.toState s'.toState := by
  unfold Mlfq.boost at hb
  split_ifs at hb
  · obtain ⟨s₁, hboost, hb⟩ := Option.bind_eq_some_iff.1 hb
    cases hb
    have hsame := boostLevels_same hboost
    exact ⟨hsame.count, hsame.active, hsame.live⟩
  · cases hb
    exact .refl _

theorem mlfq_releaseThreads_same (hr : Mlfq.releaseThreads fuel s t = some s') :
    SameThreads s.toState s'.toState := by
  unfold Mlfq.releaseThreads at hr
  split_ifs at hr
  · obtain ⟨⟨w, releaseNode⟩, hdel, hr⟩ := Option.bind_eq_some_iff.1 hr
    have hdeleted := sameThreads_releases (deleteWaiting_moved hdel).1.releases
    cases releaseNode with
    | none =>
      cases hr
      exact hdeleted
    | some a =>
      obtain ⟨n, -, hr⟩ := Option.bind_eq_some_iff.1 hr
      obtain ⟨u, hu, hr⟩ := Option.bind_eq_some_iff.1 hr
      exact (hdeleted.trans (sameThreads_setTcb hu _)).trans (enqueueLevel_same hr)
  · cases hr
    exact .refl _

theorem mlfq_retire_same (hr : Mlfq.retire fuel s = some s') (hid : s.runningThread = some id)
    (ht : s.tcbs id = some t) : if t.status = .finished then Ended s.toState s'.toState id
    else SameThreads s.toState s'.toState := by
  obtain ⟨i, hi, hr⟩ := Option.bind_eq_some_iff.1 hr
  obtain rfl := Option.some.inj (hid.symm.trans hi)
  obtain ⟨node, -, hr⟩ := Option.bind_eq_some_iff.1 hr
  obtain ⟨u, hu, hr⟩ := Option.bind_eq_some_iff.1 hr
  obtain rfl := Option.some.inj (ht.symm.trans hu)
  cases hst : t.status with
  | finished =>
    rw [hst] at hr
    obtain ⟨x, hrel, hr⟩ := Option.bind_eq_some_iff.1 hr
    cases hr
    have hsame := mlfq_releaseThreads_same hrel
    rw [if_pos rfl]
    refine ⟨hsame.count, congrArg (· - 1) hsame.active, fun i => ?_⟩
    show Option.isSome (Function.update x.tcbs id none i) =
      (!decide (i = id) && s.toState.live i)
    rw [show s.toState.live = x.toState.live from hsame.live.symm]
    by_cases hi : i = id
    · simp [hi]
    · simp [hi, Worker.State.live]
  | running =>
    rw [hst] at hr
    rw [if_neg (by decide)]
    dsimp only at hr
    split_ifs at hr
    · exact (sameThreads_setTcb ht _).trans (enqueueLevel_same hr)
    · exact (sameThreads_setTcb ht _).trans (enqueueLevel_same hr)
  | blocked =>
    rw [hst] at hr
    cases hr
    rw [if_neg (by decide)]
    exact ⟨rfl, rfl, rfl⟩
  | ready =>
    rw [hst] at hr
    cases hr
    rw [if_neg (by decide)]
    exact ⟨rfl, rfl, rfl⟩

theorem mlfq_lawful : mlfq.Lawful where
  set _ _ := rfl
  start := rfl
  createMain {μ s stamp s'} hm := by
    obtain ⟨w, hmain, hm⟩ := Option.bind_eq_some_iff.1 hm
    cases hm
    exact @Build.Lawful.createMain rr rr_lawful μ s.toState stamp w hmain
  createThread {μ fuel s s'} hc := by
    obtain ⟨o, hc, ho⟩ := Option.bind_eq_some_iff.1 hc
    obtain ⟨⟨w, a⟩, hnode, hc⟩ := Option.bind_eq_some_iff.1 hc
    obtain ⟨x, henq, hc⟩ := Option.bind_eq_some_iff.1 hc
    cases hc
    cases ho
    exact @spawned s.toState _ .ready true ((createNode_same hnode).trans (enqueueLevel_same henq))
  charge hc := by
    obtain ⟨id, -, hc⟩ := Option.bind_eq_some_iff.1 hc
    obtain ⟨t, -, hc⟩ := Option.bind_eq_some_iff.1 hc
    cases hc
    exact ⟨⟨rfl, rfl, rfl⟩, rfl, rfl⟩
  retire {fuel s s' id t} hr hid ht := by
    obtain ⟨x, hr, hb⟩ := Option.bind_eq_some_iff.1 hr
    have hretired := mlfq_retire_same hr hid ht
    have hboost := boost_same hb
    split_ifs at hretired ⊢
    · exact ⟨hboost.count.trans hretired.count, hboost.active.trans hretired.active,
        fun i => (congrFun hboost.live i).trans (hretired.live i)⟩
    · exact hretired.trans hboost
  dispatch {μ s stamp s'} hd := by
    obtain ⟨o, hd, ho⟩ := Option.map_eq_some_iff.1 hd
    cases o with
    | exit code => cases ho
    | ok x ret =>
      cases ho
      obtain ⟨⟨y, next⟩, hnext, hd⟩ := Option.bind_eq_some_iff.1 hd
      have hchosen : SameThreads s.toState y.toState := by
        unfold Mlfq.getNextThreadMlfq at hnext
        split at hnext
        · cases hnext
          exact .refl _
        · exact popLevel_same hnext
      cases next with
      | some a =>
        obtain ⟨n, -, hd⟩ := Option.bind_eq_some_iff.1 hd
        obtain ⟨t, ht, hd⟩ := Option.bind_eq_some_iff.1 hd
        split_ifs at hd
        · cases hd
        · cases hd
          have hsame := @sameThreads_setTcb y.toState n.tcb t ht { t with
            status := .running, firstSchedule := false }
          exact hchosen.trans ⟨hsame.count, hsame.active, hsame.live⟩
      | none =>
        cases hmain : y.mainThread with
        | none =>
          simp only [hmain] at hd
          cases hd
        | some main =>
          simp only [hmain] at hd
          obtain ⟨⟨w, a⟩, hnode, hd⟩ := Option.bind_eq_some_iff.1 hd
          obtain ⟨addr, -, hnode⟩ := Option.bind_eq_some_iff.1 hnode
          cases hnode
          obtain ⟨t, ht, hd⟩ := Option.bind_eq_some_iff.1 hd
          cases hd
          have hsame := @sameThreads_setTcb y.toState main t ht { t with status := .running }
          exact hchosen.trans ⟨hsame.count, hsame.active, hsame.live⟩

end Mlfq

theorem Scheduler.lawful (scheduler : Scheduler) : scheduler.build.Lawful := by
  cases scheduler with
  | rr => exact rr_lawful
  | mlfq => exact mlfq_lawful

end UserOS.Worker.Stats
