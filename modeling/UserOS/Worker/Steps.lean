import UserOS.Lib.Run
import UserOS.Worker.Effects

/-!
# What a step does

The effect of each call on the threads, their joiners, their continuations and the thread that
runs. It needs no invariant of the queues.

* `exec_effect`: a step is quiet, creates threads, releases some, or switches.
* `run_accounted`: in every run, the threads created are those that live and those that exited.
-/

namespace UserOS.Worker

open Lib

variable {μ : Malloc Node} {s s' : State} {a id : ℕ} {t : Tcb} {fuel : ℕ}

/-! ## Steps -/

/-- A step is a call, the rest of a lock, or the rest of a join. -/
theorem exec_cases {call : Call} {o : Outcome} (he : exec μ fuel s call = some o) :
    (startCall μ fuel s call = some o ∧ (call = .preempt ∨ s.cont s.caller = .idle ∨
      ∃ mutex, call = .lock mutex ∧ s.cont s.caller = .locking mutex)) ∨
    ∃ thread v, call = .join thread v ∧ s.cont s.caller = .joining thread v ∧
      joinResume s = some o := by
  unfold exec at he
  by_cases hp : call = .preempt
  · subst hp
    exact .inl ⟨by simpa [startCall] using he, .inl rfl⟩
  cases hcont : s.cont s.caller with
  | idle =>
    rw [hcont] at he
    cases call <;> first | exact absurd rfl hp | exact .inl ⟨he, .inr (.inl rfl)⟩
  | joining thread v =>
    rw [hcont] at he
    cases call with
    | preempt => exact absurd rfl hp
    | join thread' v' =>
      dsimp only at he
      split_ifs at he with heq
      obtain ⟨rfl, rfl⟩ := heq
      exact .inr ⟨thread, v, rfl, rfl, he⟩
    | _ => cases he
  | locking mutex =>
    rw [hcont] at he
    cases call with
    | preempt => exact absurd rfl hp
    | lock mutex' =>
      dsimp only at he
      split_ifs at he with heq
      subst heq
      exact .inl ⟨he, .inr (.inr ⟨mutex, rfl, rfl⟩)⟩
    | _ => cases he

/-- A join goes on after its switch, or looks for its target in the ready queue. -/
theorem exec_join_cases {thread : ℕ} {v : Bool} {o : Outcome}
    (he : exec μ fuel s (.join thread v) = some o) :
    (s.cont s.caller = .joining thread v ∧ joinResume s = some o) ∨
    s.cont s.caller = .idle ∧ ∃ id node, s.runningThread = some id ∧ s.runningNode = some node ∧
      (findReadyThreads fuel s thread = some false ∧ joinFinished s thread v = some o ∨
        findReadyThreads fuel s thread = some true ∧ ∃ w, s.tcbs thread = some w ∧
          joinReady μ fuel s thread v id node w = some o) := by
  rcases exec_cases he with ⟨hcall, hcont⟩ | ⟨thread', v', heq, hcont, hj⟩
  · have hidle : s.cont s.caller = .idle := by
      rcases hcont with h | h | ⟨mutex, h, -⟩
      · cases h
      · exact h
      · cases h
    obtain ⟨id, hid, hj⟩ := Option.bind_eq_some_iff.1 hcall
    obtain ⟨node, hnode, hj⟩ := Option.bind_eq_some_iff.1 hj
    obtain ⟨found, hfound, hj⟩ := Option.bind_eq_some_iff.1 hj
    refine .inr ⟨hidle, id, node, hid, hnode, ?_⟩
    cases found with
    | false => exact .inl ⟨hfound, by rwa [if_pos Bool.not_false] at hj⟩
    | true =>
      rw [if_neg (by simp)] at hj
      exact .inr ⟨hfound, Option.bind_eq_some_iff.1 hj⟩
  · cases heq
    exact .inl ⟨hcont, hj⟩

/-- Before the first `worker_create`, the other calls on threads read through a null pointer. -/
theorem startCall_none {call : Call} {o : Outcome} (hnone : s.runningThread = none)
    (hc : startCall μ fuel s call = some o) :
    call = .create ∨ (∃ mutex, call = .mutexInit mutex ∨ call = .mutexDestroy mutex) ∨
      call = .preempt ∧ o = .ok s none := by
  have hyield : ∀ u : State, u.runningThread = none → workerYield μ fuel u ≠ some o := by
    intro u hu hy
    obtain ⟨s₁, hr, -⟩ := Option.bind_eq_some_iff.1 hy
    obtain ⟨id, hid, -⟩ := Option.bind_eq_some_iff.1 hr
    rw [hu] at hid
    cases hid
  cases call with
  | create => exact .inl rfl
  | mutexInit mutex => exact .inr (.inl ⟨mutex, .inl rfl⟩)
  | mutexDestroy mutex => exact .inr (.inl ⟨mutex, .inr rfl⟩)
  | yield => exact absurd hc (hyield _ hnone)
  | preempt =>
    change interruptHandler μ fuel s = some o at hc
    unfold interruptHandler at hc
    split_ifs at hc
    · exact .inr (.inr ⟨rfl, (Option.some.inj hc).symm⟩)
    · exact absurd hc (hyield s hnone)
  | _ =>
    obtain ⟨id, hid, -⟩ := Option.bind_eq_some_iff.1 hc
    rw [hnone] at hid
    cases hid

/-- `s'` agrees with `s` on who runs, and on the threads, their status and their joiners. -/
structure Same (s s' : State) : Prop where
  thread : s'.runningThread = s.runningThread
  count : s'.threadCount = s.threadCount
  status : ∀ i, (s'.tcbs i).map Tcb.status = (s.tcbs i).map Tcb.status
  waits : ∀ i, (s'.tcbs i).map Tcb.waitingThread = (s.tcbs i).map Tcb.waitingThread

/-- `s'` has new threads that no one joins. -/
structure Created (s s' : State) : Prop where
  count : s.threadCount ≤ s'.threadCount
  cont : s'.cont = s.cont
  thread : s'.runningThread = s.runningThread ∨
    ∃ id t, s'.runningThread = some id ∧ s'.tcbs id = some t ∧ t.status = .running
  old : ∀ i, i < s.threadCount ∨ s'.threadCount ≤ i → s'.tcbs i = s.tcbs i
  new : ∀ i, s.threadCount ≤ i → i < s'.threadCount →
    ∃ t, s'.tcbs i = some t ∧ t.waitingThread = -1

/-- What a call of thread `id` does before it switches: the state is `s₁` then, and the control
block of the thread is `u`. -/
structure Before (s : State) (id : ℕ) (s₁ : State) (u : Tcb) : Prop where
  thread : s₁.runningThread = some id
  self : s₁.tcbs id = some u
  count : s₁.threadCount = s.threadCount
  main : s₁.mainThread = s.mainThread
  none : NoneReady s₁ u → NoneReady s u

/-- The calls that switch. -/
inductive Switches (s : State) (id : ℕ) (s₁ : State) (u : Tcb) : Call → Prop
  | yield {call : Call} : call = .yield ∨ call = .preempt →
      s₁.tcbs = s.tcbs → s₁.cont = s.cont → Switches s id s₁ u call
  | exit {valuePtr : ℕ} {t : Tcb} : s.tcbs id = some t → u = { t with status := .finished } →
      s₁.tcbs = Function.update s.tcbs id (some u) → s₁.cont = s.cont →
      Switches s id s₁ u (.exit valuePtr)
  | join {thread : ℕ} {v : Bool} {w t : Tcb} : s.readyQueue.head ≠ none →
      s.tcbs thread = some w →
      Function.update s.tcbs thread (some { w with waitingThread := id }) id = some t →
      u.status = .blocked → u.waitingThread = t.waitingThread →
      s₁.tcbs = Function.update
        (Function.update s.tcbs thread (some { w with waitingThread := id })) id (some u) →
      s₁.cont = Function.update s.cont id (.joining thread v) → Switches s id s₁ u (.join thread v)
  | lock {mutex : ℕ} {m : Mutex} {t : Tcb} : s.mutexes mutex = some m → m.isLocked = true →
      m.owner ≠ id → s.tcbs id = some t → u.status = .blocked →
      u.waitingThread = t.waitingThread → s₁.tcbs = Function.update s.tcbs id (some u) →
      s₁.cont = Function.update s.cont id (.locking mutex) → Switches s id s₁ u (.lock mutex)

/-- The call is a `worker_join` that returns 0 only where the code takes the target for finished. -/
def JoinReturns (s : State) (call : Call) (ret : Option Ret) : Prop :=
  ∀ thread v, call = .join thread v → ret.map Ret.code = some 0 →
    (∃ id, s.runningThread = some id ∧ s.cont id = .joining thread v) ∨
    s.cont s.caller = .idle ∧ thread ≤ s.threadCount ∧
      ∃ fuel, findReadyThreads fuel s thread = some false

/-- The effect of a step. -/
inductive Effect (s : State) : Call → State → Option Ret → Prop
  | quiet {call : Call} {s' : State} {ret : Option Ret} : Same s s' →
      s'.cont = s.cont ∨ (∃ id, s.runningThread = some id ∧
        s'.cont = Function.update s.cont id .idle) →
      JoinReturns s call ret → Effect s call s' ret
  | created {s' : State} {ret : Option Ret} : Created s s' → Effect s .create s' ret
  | released {mutex id fuel : ℕ} {m : Mutex} {q : Queue} {ids : List ℕ} {s₁ s' : State}
      {ret : Option Ret} : s.runningThread = some id → s.mutexes mutex = some m →
      m.isLocked = true → m.owner = id → m.waitQueue = some q →
      unblockThreads fuel (s.setMutex mutex m.unlocked) q = some (s₁, ids) →
      s'.runningThread = s.runningThread → s'.threadCount = s.threadCount → s'.cont = s.cont →
      s'.tcbs = s₁.tcbs → Effect s (.unlock mutex) s' ret
  | switched {call : Call} {id next : ℕ} {u : Tcb} {s₁ s' : State} :
      s.runningThread = some id → Before s id s₁ u → Switches s id s₁ u call →
      Switched id u next s₁ s' → Effect s call s' none

theorem Same.of_tcbs (hthread : s'.runningThread = s.runningThread)
    (hcount : s'.threadCount = s.threadCount) (ht : s'.tcbs = s.tcbs) : Same s s' :=
  ⟨hthread, hcount, fun _ => by rw [ht], fun _ => by rw [ht]⟩

theorem joinReturns_of_ne {call : Call} {ret : Option Ret}
    (h : ∀ thread v, call ≠ .join thread v) : JoinReturns s call ret :=
  fun thread v heq => absurd heq (h thread v)

/-- Whatever a step does, a join that returns 0 returns as the code of `worker_join` says. -/
theorem Effect.joinReturns {call : Call} {ret : Option Ret} (h : Effect s call s' ret) :
    JoinReturns s call ret := by
  cases h with
  | quiet _ _ hret => exact hret
  | created _ => exact joinReturns_of_ne fun _ _ => Call.noConfusion
  | released => exact joinReturns_of_ne fun _ _ => Call.noConfusion
  | switched => exact fun _ _ _ h => nomatch h

theorem live_setTcb (ht : s.tcbs id = some t) (t' : Tcb) : (s.setTcb id t').live = s.live := by
  funext i
  by_cases hi : i = id
  · subst hi
    simp [State.live, State.setTcb, ht]
  · simp [State.live, State.setTcb, Function.update_of_ne hi]

section Calls

variable {ret : Option Ret}

theorem yield_effect {call : Call} (hcall : call = .yield ∨ call = .preempt) {b : Bool}
    (hy : workerYield μ fuel { s with interruptDisabled := b } = some (.ok s' ret)) :
    Effect s call s' ret := by
  obtain ⟨s₁, hr, -⟩ := Option.bind_eq_some_iff.1 hy
  obtain ⟨id, hid, hr⟩ := Option.bind_eq_some_iff.1 hr
  obtain ⟨node, -, hr⟩ := Option.bind_eq_some_iff.1 hr
  obtain ⟨t, ht, hr⟩ := Option.bind_eq_some_iff.1 hr
  obtain ⟨rfl, next, hsw⟩ := workerYield_effect hy hid ht
  refine .switched hid ?_ ?_ hsw
  · exact ⟨hid, ht, rfl, rfl, fun h => h⟩
  · exact .yield hcall rfl rfl

/-- An exit that returns is a switch of the running thread, finished by then. -/
theorem workerExit_eq {valuePtr : ℕ} (he : workerExit μ fuel s valuePtr = some (.ok s' ret)) :
    ∃ id t, s.runningThread = some id ∧ s.tcbs id = some t ∧
      workerYield μ fuel { s.setTcb id { t with status := .finished } with
        returnValues := if valuePtr = 0 then s.returnValues
          else Function.update s.returnValues id valuePtr
        interruptDisabled := true } = some (.ok s' ret) := by
  obtain ⟨id, hid, he⟩ := Option.bind_eq_some_iff.1 he
  obtain ⟨t, ht, he⟩ := Option.bind_eq_some_iff.1 he
  by_cases hst : t.status ≠ .running
  · rw [if_pos hst] at he
    cases he
  rw [if_neg hst] at he
  by_cases hv : valuePtr ≠ 0 ∧ numReturnValues ≤ id
  · rw [if_pos hv] at he
    cases he
  rw [if_neg hv] at he
  exact ⟨id, t, hid, ht, he⟩

theorem exit_effect {valuePtr : ℕ} (he : workerExit μ fuel s valuePtr = some (.ok s' ret)) :
    Effect s (.exit valuePtr) s' ret := by
  obtain ⟨id, t, hid, ht, hy⟩ := workerExit_eq he
  obtain ⟨rfl, next, hsw⟩ := workerYield_effect hy hid (Function.update_self ..)
  refine .switched hid ?_ ?_ hsw
  · refine ⟨hid, Function.update_self .., rfl, rfl, fun h => ⟨h.1, fun hf => ?_⟩⟩
    have hlive := live_setTcb ht { t with status := .finished }
    rintro ⟨hw, fuel, prev, a, hfind⟩
    rw [← hlive] at hfind
    exact h.2 hf ⟨hw, fuel, prev, a, hfind⟩
  · exact .exit ht rfl rfl rfl

theorem join_effect {thread : ℕ} {v : Bool} (hcont : s.cont s.caller = .idle)
    (hj : workerJoin μ fuel s thread v = some (.ok s' ret)) :
    Effect s (.join thread v) s' ret := by
  obtain ⟨id, hid, hj⟩ := Option.bind_eq_some_iff.1 hj
  obtain ⟨node, -, hj⟩ := Option.bind_eq_some_iff.1 hj
  obtain ⟨found, hfound, hj⟩ := Option.bind_eq_some_iff.1 hj
  cases found with
  | false =>
    rw [if_pos Bool.not_false] at hj
    unfold joinFinished at hj
    dsimp only at hj
    have hreturns : thread ≤ s.threadCount → JoinReturns s (.join thread v) ret := by
      rintro hle thread' v' heq -
      cases heq
      exact .inr ⟨hcont, hle, fuel, hfound⟩
    split_ifs at hj with hle hv hval
    · cases hj
      exact .quiet (.of_tcbs rfl rfl rfl) (.inl rfl) (hreturns hle)
    · cases hj
      exact .quiet (.of_tcbs rfl rfl rfl) (.inl rfl) (hreturns hle)
    · cases hj
      refine .quiet (.of_tcbs rfl rfl rfl) (.inl rfl) fun _ _ _ h => ?_
      exact absurd h (by decide)
  | true =>
    rw [if_neg (by simp)] at hj
    obtain ⟨w, hw, hj⟩ := Option.bind_eq_some_iff.1 hj
    unfold joinReady at hj
    split_ifs at hj with hpos
    · cases hj
      refine .quiet (.of_tcbs rfl rfl rfl) (.inl rfl) fun _ _ _ h => ?_
      exact absurd h (by decide)
    · have hhead : s.readyQueue.head ≠ none := fun hnone => by
        obtain ⟨⟨prev, head⟩, hfind, hsome⟩ := Option.bind_eq_some_iff.1 hfound
        rw [findNode, hnone] at hfind
        cases fuel <;> cases hfind
        cases hsome
      dsimp only at hj
      obtain ⟨t, ht, hj⟩ := Option.bind_eq_some_iff.1 hj
      obtain ⟨s₁, henq, hy⟩ := Option.bind_eq_some_iff.1 hj
      obtain ⟨⟨h, q⟩, -, hs₁⟩ := Option.bind_eq_some_iff.1 henq
      obtain rfl := Option.some.inj hs₁
      obtain ⟨rfl, next, hsw⟩ := workerYield_effect hy hid (Function.update_self ..)
      refine .switched hid ?_ ?_ hsw
      · exact ⟨hid, Function.update_self .., rfl, rfl, fun h => ⟨h.1, fun hf => nomatch hf⟩⟩
      · exact .join hhead hw ht rfl rfl rfl rfl

theorem lock_effect {mutex : ℕ} (hl : workerMutexLock μ fuel s mutex = some (.ok s' ret)) :
    Effect s (.lock mutex) s' ret := by
  obtain ⟨id, hid, hl⟩ := Option.bind_eq_some_iff.1 hl
  obtain ⟨node, -, hl⟩ := Option.bind_eq_some_iff.1 hl
  obtain ⟨m, hm, hl⟩ := Option.bind_eq_some_iff.1 hl
  obtain ⟨t, ht, hl⟩ := Option.bind_eq_some_iff.1 hl
  have hne : JoinReturns s (.lock mutex) ret := joinReturns_of_ne fun _ _ => Call.noConfusion
  split_ifs at hl with hlocked howner
  · cases hl
    exact .quiet (.of_tcbs rfl rfl rfl) (.inr ⟨id, hid, rfl⟩) hne
  · obtain ⟨q, -, hl⟩ := Option.bind_eq_some_iff.1 hl
    obtain ⟨⟨h', q'⟩, -, hl⟩ := Option.bind_eq_some_iff.1 hl
    obtain ⟨s₁, henq, hy⟩ := Option.bind_eq_some_iff.1 hl
    obtain ⟨⟨h, q⟩, -, hs₁⟩ := Option.bind_eq_some_iff.1 henq
    obtain rfl := Option.some.inj hs₁
    obtain ⟨rfl, next, hsw⟩ := workerYield_effect hy hid (Function.update_self ..)
    refine .switched hid ?_ ?_ hsw
    · exact ⟨hid, Function.update_self .., rfl, rfl, fun h => ⟨h.1, fun hf => nomatch hf⟩⟩
    · exact .lock hm hlocked howner ht rfl rfl rfl rfl
  · cases hl
    refine .quiet ⟨rfl, rfl, fun i => ?_, fun i => ?_⟩ (.inr ⟨id, hid, rfl⟩) hne
    · by_cases hi : i = id
      · subst hi
        simp [State.setTcb, ht]
      · simp [State.setTcb, Function.update_of_ne hi]
    · by_cases hi : i = id
      · subst hi
        simp [State.setTcb, ht]
      · simp [State.setTcb, Function.update_of_ne hi]

theorem unlock_effect {mutex : ℕ} (hu : workerMutexUnlock fuel s mutex = some (.ok s' ret)) :
    Effect s (.unlock mutex) s' ret := by
  obtain ⟨id, hid, hu⟩ := Option.bind_eq_some_iff.1 hu
  obtain ⟨m, hm, hu⟩ := Option.bind_eq_some_iff.1 hu
  have hne : JoinReturns s (.unlock mutex) ret := joinReturns_of_ne fun _ _ => Call.noConfusion
  split_ifs at hu with hnot
  · cases hu
    exact .quiet (.of_tcbs rfl rfl rfl) (.inl rfl) hne
  rw [Bool.or_eq_true, not_or] at hnot
  obtain ⟨q, hq, hu⟩ := Option.bind_eq_some_iff.1 hu
  cases hhead : q.head with
  | none =>
    simp only [hhead] at hu
    cases hu
    exact .quiet (.of_tcbs rfl rfl rfl) (.inl rfl) hne
  | some b =>
    simp only [hhead] at hu
    obtain ⟨⟨s₁, ids⟩, hloop, hu⟩ := Option.bind_eq_some_iff.1 hu
    cases hu
    obtain ⟨l, -, hrel⟩ := unblockLoop_releases hloop
    obtain ⟨h, r, w, u, hs₁⟩ := hrel.rest
    refine .released hid hm (by simpa using hnot.1) (by simpa using hnot.2) hq hloop ?_ ?_ ?_ rfl
    all_goals
      rw [hs₁]
      rfl

theorem createNode_eq {tcb : ℕ} (hc : createNode μ s tcb = some (s', a)) : s.nodes a = none ∧
    s' = { s with
      nodes := Function.update s.nodes a (some ⟨tcb, none⟩), mallocs := s.mallocs + 1 } := by
  obtain ⟨b, haddr, hc⟩ := Option.bind_eq_some_iff.1 hc
  cases hc
  exact ⟨μ.fresh haddr, rfl⟩

theorem createMain_effect (hm : createMain μ s = some s') :
    Created s s' ∧ s'.threadCount = s.threadCount + 1 ∧ ∃ id t, s'.runningThread = some id ∧
      id < s'.threadCount ∧ s'.tcbs id = some t ∧ t.status = .running := by
  obtain ⟨⟨s₁, a⟩, hnode, hm⟩ := Option.bind_eq_some_iff.1 hm
  obtain ⟨-, rfl⟩ := createNode_eq hnode
  cases hm
  refine ⟨⟨Nat.le_succ _, rfl, .inr ⟨_, _, rfl, Function.update_self .., rfl⟩, fun i hi => ?_,
    fun i hle hlt => ?_⟩, rfl, _, _, rfl, Nat.lt_succ_self _, Function.update_self .., rfl⟩
  · refine Function.update_of_ne ?_ _ _
    rcases hi with hlt | hle
    · exact Nat.ne_of_lt hlt
    · exact Nat.ne_of_gt hle
  · obtain rfl : i = s.threadCount := Nat.le_antisymm (Nat.lt_succ_iff.1 hlt) hle
    exact ⟨_, Function.update_self .., rfl⟩

theorem createThread_effect (hc : createThread μ fuel s = some (.ok s' ret)) :
    Created s s' ∧ s'.runningThread = s.runningThread := by
  obtain ⟨⟨s₁, b⟩, hnode, hc⟩ := Option.bind_eq_some_iff.1 hc
  obtain ⟨s₂, henq, hret⟩ := Option.bind_eq_some_iff.1 hc
  cases hret
  obtain ⟨h, r, w, rfl⟩ := (enqueueReady_moved henq).rest
  obtain ⟨-, rfl⟩ := createNode_eq hnode
  refine ⟨⟨Nat.le_succ _, rfl, .inl rfl, fun i hi => ?_, fun i hle hlt => ?_⟩, rfl⟩
  · refine Function.update_of_ne ?_ _ _
    rcases hi with hlt | hle
    · exact Nat.ne_of_lt hlt
    · exact Nat.ne_of_gt hle
  · obtain rfl : i = s.threadCount := Nat.le_antisymm (Nat.lt_succ_iff.1 hlt) hle
    exact ⟨_, Function.update_self .., rfl⟩

/-- The first call creates two threads. -/
theorem create_effect (hc : workerCreate μ fuel s = some (.ok s' ret)) : Created s s' := by
  obtain ⟨s₁, hmain, hc⟩ := Option.bind_eq_some_iff.1 hc
  obtain ⟨hnew, hthread⟩ := createThread_effect hc
  unfold ensureMain at hmain
  split_ifs at hmain with hzero
  · obtain ⟨hfirst, hcount, id, t, hrun, hlt, ht, hst⟩ := createMain_effect hmain
    refine ⟨Nat.le_trans hfirst.count hnew.count, hnew.cont.trans hfirst.cont,
      .inr ⟨id, t, ?_, ?_, hst⟩,
      fun i hi => ?_, fun i hle hlt' => ?_⟩
    · rw [hthread, hrun]
    · rw [hnew.old id (.inl hlt), ht]
    · rw [hnew.old i (hi.imp_left fun h => Nat.lt_of_lt_of_le h hfirst.count),
        hfirst.old i (hi.imp_right fun h => Nat.le_trans hnew.count h)]
    · by_cases hi : i < s₁.threadCount
      · obtain ⟨u, hu, hw⟩ := hfirst.new i hle hi
        exact ⟨u, by rw [hnew.old i (.inl hi), hu], hw⟩
      · exact hnew.new i (Nat.le_of_not_lt hi) hlt'
  · cases hmain
    exact hnew

theorem mutexDestroy_effect {mutex : ℕ} (hd : workerMutexDestroy s mutex = some (.ok s' ret)) :
    Effect s (.mutexDestroy mutex) s' ret := by
  obtain ⟨m, -, hd⟩ := Option.bind_eq_some_iff.1 hd
  have hne : JoinReturns s (.mutexDestroy mutex) ret :=
    joinReturns_of_ne fun _ _ => Call.noConfusion
  split_ifs at hd <;> cases hd <;> exact .quiet (.of_tcbs rfl rfl rfl) (.inl rfl) hne

/-- **What a step does.** -/
theorem exec_effect {call : Call} (he : exec μ fuel s call = some (.ok s' ret)) :
    Effect s call s' ret := by
  rcases exec_cases he with ⟨hcall, hcont⟩ | ⟨thread, v, rfl, hcont, hj⟩
  · cases call with
    | create => exact .created (create_effect hcall)
    | yield => exact yield_effect (.inl rfl) hcall
    | exit valuePtr => exact exit_effect hcall
    | join thread v =>
      refine join_effect ?_ hcall
      rcases hcont with h | h | ⟨mutex, h, -⟩
      · cases h
      · exact h
      · cases h
    | lock mutex => exact lock_effect hcall
    | unlock mutex => exact unlock_effect hcall
    | mutexInit mutex =>
      cases Option.some.inj hcall
      exact .quiet (.of_tcbs rfl rfl rfl) (.inl rfl) (joinReturns_of_ne fun _ _ => Call.noConfusion)
    | mutexDestroy mutex => exact mutexDestroy_effect hcall
    | preempt =>
      change interruptHandler μ fuel s = _ at hcall
      unfold interruptHandler at hcall
      split_ifs at hcall
      · cases hcall
        exact .quiet (.of_tcbs rfl rfl rfl) (.inl rfl)
          (joinReturns_of_ne fun _ _ => Call.noConfusion)
      · exact yield_effect (.inr rfl) (b := s.interruptDisabled) hcall
  · obtain ⟨id, hid, hj⟩ := Option.bind_eq_some_iff.1 hj
    cases hj
    refine .quiet (.of_tcbs rfl rfl rfl) (.inr ⟨id, hid, rfl⟩) ?_
    rintro thread' v' heq -
    cases heq
    refine .inl ⟨id, hid, ?_⟩
    rwa [State.caller, hid] at hcont

end Calls

/-! ## Which threads there are -/

/-- The thread called `worker_exit`. -/
def Exited (es : List Label) (id : ℕ) : Prop :=
  ∃ l ∈ es, l.thread = id ∧ ∃ valuePtr, l.call = .exit valuePtr

/-- The running thread is neither blocked nor finished, and the threads created are those that live
and those that exited. -/
structure Accounted (es : List Label) (s : State) : Prop where
  running : ∀ id, s.runningThread = some id →
    ∃ t, s.tcbs id = some t ∧ t.status ≠ .blocked ∧ t.status ≠ .finished
  created : ∀ id, id < s.threadCount → s.live id = true ∨ Exited es id
  bound : ∀ id, s.live id = true → id < s.threadCount

theorem Exited.snoc {es : List Label} {l : Label} (h : Exited es id) : Exited (es ++ [l]) id := by
  obtain ⟨l', hl', h⟩ := h
  exact ⟨l', List.mem_append_left _ hl', h⟩

theorem live_eq_of_map {f : Tcb → β} (h : (s'.tcbs id).map f = (s.tcbs id).map f) :
    s'.live id = s.live id := by
  have h := congrArg Option.isSome h
  rwa [Option.isSome_map, Option.isSome_map] at h

theorem Switches.live {u : Tcb} {call : Call} (hs : Switches s id s' u call)
    (hid : s.live id = true) : s'.live = s.live := by
  have hupdate : ∀ (f : ℕ → Option Tcb) (j : ℕ) (w : Tcb), (f j).isSome = true →
      ∀ i, (Function.update f j (some w) i).isSome = (f i).isSome := fun f j w hj i => by
    by_cases hi : i = j
    · subst hi
      rw [Function.update_self, hj]
      rfl
    · rw [Function.update_of_ne hi]
  funext i
  cases hs with
  | yield _ ht _ => rw [State.live, ht, State.live]
  | exit _ _ ht _ => rw [State.live, ht, hupdate _ _ _ hid, State.live]
  | lock _ _ _ _ _ _ ht _ => rw [State.live, ht, hupdate _ _ _ hid, State.live]
  | join _ hw hself _ _ ht _ =>
    rw [State.live, ht, hupdate _ _ _ (by rw [hself]; rfl), hupdate _ _ _ (by rw [hw]; rfl),
      State.live]

/-- Only `worker_exit` finishes a thread. -/
theorem Switches.finished {u : Tcb} {call : Call} (hs : Switches s id s' u call)
    (hself : s'.tcbs id = some u) (hst : u.status = .finished) :
    (∃ valuePtr, call = .exit valuePtr) ∨ s.tcbs id = some u := by
  cases hs with
  | yield _ ht _ => exact .inr (ht ▸ hself)
  | exit _ _ _ _ => exact .inl ⟨_, rfl⟩
  | lock _ _ _ _ hb _ _ _ => rw [hb] at hst; cases hst
  | join _ _ _ hb _ _ _ => rw [hb] at hst; cases hst

theorem step_accounted {es : List Label} {l : Label} (ha : Accounted es s) (hs : Step μ s l s') :
    Accounted (es ++ [l]) s' := by
  obtain ⟨thread, call, ret⟩ := l
  obtain ⟨hthread, fuel, he⟩ := hs
  cases exec_effect he with
  | quiet hsame _ _ =>
    refine ⟨fun id hid => ?_, fun id hid => ?_, fun id hid => ?_⟩
    · obtain ⟨t, ht, hst⟩ := ha.running id (hsame.thread ▸ hid)
      have h := hsame.status id
      rw [ht, Option.map_some] at h
      obtain ⟨t', ht', hst'⟩ := Option.map_eq_some_iff.1 h
      exact ⟨t', ht', hst' ▸ hst⟩
    · rw [live_eq_of_map (hsame.status id)]
      exact (ha.created id (hsame.count ▸ hid)).imp_right Exited.snoc
    · rw [live_eq_of_map (hsame.status id)] at hid
      exact hsame.count ▸ ha.bound id hid
  | created hnew =>
    refine ⟨fun id hid => ?_, fun id hid => ?_, fun id hid => ?_⟩
    · rcases hnew.thread with h | ⟨i, t, hi, ht, hst⟩
      · obtain ⟨t, ht, hst⟩ := ha.running id (h ▸ hid)
        have hlt := ha.bound id (by rw [State.live, ht]; rfl)
        exact ⟨t, by rw [hnew.old id (.inl hlt), ht], hst⟩
      · obtain rfl := Option.some.inj (hi.symm.trans hid)
        exact ⟨t, ht, by rw [hst]; exact ⟨Status.noConfusion, Status.noConfusion⟩⟩
    · by_cases hlt : id < s.threadCount
      · rw [State.live, hnew.old id (.inl hlt)]
        exact (ha.created id hlt).imp_right Exited.snoc
      · obtain ⟨t, ht, -⟩ := hnew.new id (Nat.le_of_not_lt hlt) hid
        exact .inl (by rw [State.live, ht]; rfl)
    · by_contra hle
      have hold := hnew.old id (.inr (Nat.le_of_not_lt hle))
      rw [State.live, hold] at hid
      exact hle (Nat.lt_of_lt_of_le (ha.bound id hid) hnew.count)
  | released hid _ _ _ _ hloop hrun hcount _ htcbs =>
    obtain ⟨l, -, hrel⟩ := unblockLoop_releases hloop
    have hlive : s'.live = s.live := by
      have h := hrel.live
      funext i
      rw [State.live, htcbs]
      exact congrFun h i
    refine ⟨fun id hid => ?_, fun id hid => ?_, fun id hid => ?_⟩
    · obtain ⟨t, ht, hst⟩ := ha.running id (hrun ▸ hid)
      rw [htcbs]
      rcases hrel.status id with h | h
      · obtain ⟨t', ht', hst'⟩ := Option.map_eq_some_iff.1 (h.trans (congrArg _ ht))
        exact ⟨t', ht', hst' ▸ hst⟩
      · obtain ⟨t', ht', hst'⟩ := Option.map_eq_some_iff.1 h
        exact ⟨t', ht', by rw [hst']; exact ⟨Status.noConfusion, Status.noConfusion⟩⟩
    · rw [hlive]
      exact (ha.created id (hcount ▸ hid)).imp_right Exited.snoc
    · rw [hlive] at hid
      exact hcount ▸ ha.bound id hid
  | @switched _ id next u s₁ _ hid hbefore hswitches hsw =>
    obtain ⟨t, ht, -, hfin⟩ := ha.running id hid
    have hlive := hswitches.live (by rw [State.live, ht]; rfl)
    have hcount := hsw.count.trans hbefore.count
    refine ⟨fun i hi => ?_, fun i hi => ?_, fun i hi => ?_⟩
    · obtain rfl := Option.some.inj (hsw.thread.symm.trans hi)
      obtain ⟨v, hv, hst⟩ := hsw.status
      exact ⟨v, hv, by rw [hst]; exact ⟨Status.noConfusion, Status.noConfusion⟩⟩
    · by_cases hgone : i ≠ id ∨ u.status ≠ .finished
      · rw [live_eq_of_map (hsw.links i hgone), hlive]
        exact (ha.created i (hcount ▸ hi)).imp_right Exited.snoc
      · rw [not_or, not_not, not_not] at hgone
        obtain ⟨rfl, hgone⟩ := hgone
        right
        rcases hswitches.finished hbefore.self hgone with ⟨valuePtr, hcall⟩ | hsame
        · refine ⟨⟨thread, call, none⟩, by simp, ?_, valuePtr, hcall⟩
          rw [hthread, State.caller, hid]
          rfl
        · rw [ht] at hsame
          exact absurd (Option.some.inj hsame ▸ hgone) hfin
    · rw [hcount]
      by_cases hgone : i ≠ id ∨ u.status ≠ .finished
      · rw [live_eq_of_map (hsw.links i hgone), hlive] at hi
        exact ha.bound i hi
      · rw [not_or, not_not, not_not] at hgone
        rw [hgone.1]
        exact ha.bound id (by rw [State.live, ht]; rfl)

theorem accounted_start : Accounted [] State.start :=
  ⟨fun _ hid => (nomatch hid), fun id hid => absurd hid (Nat.not_lt_zero id),
    fun _ hid => (nomatch hid)⟩

/-- **Accounting.** In every run, a thread that was created lives or has exited. -/
theorem run_accounted {es : List Label} (hr : Run (Step μ) State.start es s) : Accounted es s :=
  Run.history accounted_start (fun _ _ _ _ ha hs => step_accounted ha hs) hr

section Kept

variable {ret : Option Ret}

/-! ## What the scheduler leaves alone -/

/-- `s'` agrees with `s` on the mutexes and the return values. -/
structure Kept (s s' : State) : Prop where
  mutexes : s'.mutexes = s.mutexes
  values : s'.returnValues = s.returnValues

theorem Kept.trans {s'' : State} (h : Kept s s') (h' : Kept s' s'') : Kept s s'' :=
  ⟨h'.mutexes.trans h.mutexes, h'.values.trans h.values⟩

theorem Releases.kept {ids : List ℕ} (hr : Releases ids s s') : Kept s s' := by
  obtain ⟨h, r, w, u, rfl⟩ := hr.rest
  exact ⟨rfl, rfl⟩

theorem retire_kept (hr : retire fuel s = some s') : Kept s s' := by
  obtain ⟨id, -, hr⟩ := Option.bind_eq_some_iff.1 hr
  obtain ⟨node, -, hr⟩ := Option.bind_eq_some_iff.1 hr
  obtain ⟨t, -, hr⟩ := Option.bind_eq_some_iff.1 hr
  cases hst : t.status with
  | finished =>
    rw [hst] at hr
    obtain ⟨s₁, hrel, hr⟩ := Option.bind_eq_some_iff.1 hr
    cases hr
    have hkept := (releaseThreads_releases hrel).1.kept
    exact ⟨hkept.mutexes, hkept.values⟩
  | blocked =>
    rw [hst] at hr
    cases hr
    exact ⟨rfl, rfl⟩
  | running | ready =>
    rw [hst] at hr
    have hkept := (enqueueReady_moved hr).releases.kept
    exact ⟨hkept.mutexes, hkept.values⟩

theorem createNode_kept {tcb a : ℕ} (hc : createNode μ s tcb = some (s', a)) : Kept s s' := by
  obtain ⟨-, rfl⟩ := createNode_eq hc
  exact ⟨rfl, rfl⟩

theorem dispatch_kept (hd : dispatch μ s = some (.ok s' ret)) : Kept s s' := by
  obtain ⟨⟨h, q, next⟩, -, hd⟩ := Option.bind_eq_some_iff.1 hd
  cases next with
  | none =>
    cases hm : s.mainThread with
    | none =>
      simp only [hm] at hd
      cases hd
    | some main =>
      simp only [hm] at hd
      obtain ⟨⟨s₁, a⟩, hnode, hd⟩ := Option.bind_eq_some_iff.1 hd
      obtain ⟨t, -, hd⟩ := Option.bind_eq_some_iff.1 hd
      cases hd
      have hs₁ := createNode_kept hnode
      exact ⟨hs₁.mutexes, hs₁.values⟩
  | some a =>
    obtain ⟨n, -, hd⟩ := Option.bind_eq_some_iff.1 hd
    obtain ⟨t, -, hd⟩ := Option.bind_eq_some_iff.1 hd
    split_ifs at hd
    · cases hd
    · cases hd
      exact ⟨rfl, rfl⟩

theorem workerYield_kept (hy : workerYield μ fuel s = some (.ok s' ret)) : Kept s s' := by
  obtain ⟨s₁, hr, hd⟩ := Option.bind_eq_some_iff.1 hy
  exact (retire_kept hr).trans (dispatch_kept hd)

theorem interruptHandler_kept (hi : interruptHandler μ fuel s = some (.ok s' ret)) :
    Kept s s' := by
  unfold interruptHandler at hi
  split_ifs at hi
  · cases hi
    exact ⟨rfl, rfl⟩
  · exact workerYield_kept hi

theorem createMain_kept (hm : createMain μ s = some s') : Kept s s' := by
  obtain ⟨⟨s₁, a⟩, hnode, hm⟩ := Option.bind_eq_some_iff.1 hm
  cases hm
  have hs₁ := createNode_kept hnode
  exact ⟨hs₁.mutexes, hs₁.values⟩

theorem workerCreate_kept (hc : workerCreate μ fuel s = some (.ok s' ret)) : Kept s s' := by
  obtain ⟨s₁, hmain, hc⟩ := Option.bind_eq_some_iff.1 hc
  have hs₁ : Kept s s₁ := by
    unfold ensureMain at hmain
    split_ifs at hmain
    · exact createMain_kept hmain
    · cases hmain
      exact ⟨rfl, rfl⟩
  obtain ⟨⟨s₂, b⟩, hnode, hc⟩ := Option.bind_eq_some_iff.1 hc
  obtain ⟨s₃, henq, hc⟩ := Option.bind_eq_some_iff.1 hc
  cases hc
  have hs₂ := createNode_kept hnode
  have hs₃ := (enqueueReady_moved henq).releases.kept
  exact hs₁.trans (.trans ⟨hs₂.mutexes, hs₂.values⟩ hs₃)

/-! ## How a step ends -/

/-- A step leaves the running thread, its node and the values alone, or it is one of `worker_create`
and `worker_exit`, or it ends with a switch. -/
inductive Ends (μ : Malloc Node) (s : State) : Call → State → Option Ret → Prop
  | stays {call : Call} {s' : State} {ret : Option Ret} : (∀ valuePtr, call ≠ .exit valuePtr) →
      s'.runningThread = s.runningThread → s'.runningNode = s.runningNode →
      tcbOf s'.nodes = tcbOf s.nodes → s'.returnValues = s.returnValues → Ends μ s call s' ret
  | creates {fuel : ℕ} {s' : State} {ret : Option Ret} :
      workerCreate μ fuel s = some (.ok s' ret) → Ends μ s .create s' ret
  | exits {fuel valuePtr : ℕ} {s' : State} {ret : Option Ret} :
      workerExit μ fuel s valuePtr = some (.ok s' ret) → Ends μ s (.exit valuePtr) s' ret
  | switches {fuel : ℕ} {call : Call} {s₁ s' : State} {ret : Option Ret} :
      (∀ valuePtr, call ≠ .exit valuePtr) → s₁.returnValues = s.returnValues →
      workerYield μ fuel s₁ = some (.ok s' ret) → Ends μ s call s' ret

theorem join_ends {thread : ℕ} {v : Bool}
    (he : exec μ fuel s (.join thread v) = some (.ok s' ret)) :
    Ends μ s (.join thread v) s' ret := by
  have hne : ∀ valuePtr, Call.join thread v ≠ .exit valuePtr := fun _ => Call.noConfusion
  rcases exec_join_cases he with ⟨-, hj⟩ | ⟨-, id, node, -, -, ⟨-, hj⟩ | ⟨-, w, -, hj⟩⟩
  · obtain ⟨i, -, hj⟩ := Option.bind_eq_some_iff.1 hj
    cases hj
    exact .stays hne rfl rfl rfl rfl
  · unfold joinFinished at hj
    dsimp only at hj
    split_ifs at hj <;> cases hj <;> exact .stays hne rfl rfl rfl rfl
  · unfold joinReady at hj
    split_ifs at hj
    · cases hj
      exact .stays hne rfl rfl rfl rfl
    · obtain ⟨t, -, hj⟩ := Option.bind_eq_some_iff.1 hj
      obtain ⟨s₁, henq, hy⟩ := Option.bind_eq_some_iff.1 hj
      exact .switches hne (enqueueWaiting_moved henq).releases.kept.values hy

theorem lock_ends {mutex : ℕ} (hl : workerMutexLock μ fuel s mutex = some (.ok s' ret)) :
    Ends μ s (.lock mutex) s' ret := by
  have hne : ∀ valuePtr, Call.lock mutex ≠ .exit valuePtr := fun _ => Call.noConfusion
  obtain ⟨id, -, hl⟩ := Option.bind_eq_some_iff.1 hl
  obtain ⟨node, -, hl⟩ := Option.bind_eq_some_iff.1 hl
  obtain ⟨m, -, hl⟩ := Option.bind_eq_some_iff.1 hl
  obtain ⟨t, -, hl⟩ := Option.bind_eq_some_iff.1 hl
  split_ifs at hl
  · cases hl
    exact .stays hne rfl rfl rfl rfl
  · obtain ⟨q, -, hl⟩ := Option.bind_eq_some_iff.1 hl
    obtain ⟨⟨h, q'⟩, -, hl⟩ := Option.bind_eq_some_iff.1 hl
    obtain ⟨s₁, henq, hy⟩ := Option.bind_eq_some_iff.1 hl
    exact .switches hne (enqueueWaiting_moved henq).releases.kept.values hy
  · cases hl
    exact .stays hne rfl rfl rfl rfl

theorem unlock_ends {mutex : ℕ} (hu : workerMutexUnlock fuel s mutex = some (.ok s' ret)) :
    Ends μ s (.unlock mutex) s' ret := by
  have hne : ∀ valuePtr, Call.unlock mutex ≠ .exit valuePtr := fun _ => Call.noConfusion
  obtain ⟨id, -, hu⟩ := Option.bind_eq_some_iff.1 hu
  obtain ⟨m, -, hu⟩ := Option.bind_eq_some_iff.1 hu
  split_ifs at hu
  · cases hu
    exact .stays hne rfl rfl rfl rfl
  obtain ⟨q, -, hu⟩ := Option.bind_eq_some_iff.1 hu
  cases hhead : q.head with
  | none =>
    simp only [hhead] at hu
    cases hu
    exact .stays hne rfl rfl rfl rfl
  | some b =>
    simp only [hhead] at hu
    obtain ⟨⟨s₁, ids⟩, hloop, hu⟩ := Option.bind_eq_some_iff.1 hu
    cases hu
    obtain ⟨released, -, hrel⟩ := unblockLoop_releases hloop
    obtain ⟨h, r, w, u, hs₁⟩ := hrel.rest
    have hpoints := hrel.points
    rw [hs₁] at hpoints ⊢
    exact .stays hne rfl rfl hpoints rfl

theorem mutexDestroy_ends {mutex : ℕ} (hd : workerMutexDestroy s mutex = some (.ok s' ret)) :
    Ends μ s (.mutexDestroy mutex) s' ret := by
  obtain ⟨m, -, hd⟩ := Option.bind_eq_some_iff.1 hd
  split_ifs at hd <;> cases hd <;> exact .stays (fun _ => Call.noConfusion) rfl rfl rfl rfl

theorem preempt_ends (hi : interruptHandler μ fuel s = some (.ok s' ret)) :
    Ends μ s .preempt s' ret := by
  unfold interruptHandler at hi
  split_ifs at hi
  · cases hi
    exact .stays (fun _ => Call.noConfusion) rfl rfl rfl rfl
  · exact .switches (fun _ => Call.noConfusion) rfl hi

/-- **How a step ends.** -/
theorem exec_ends {call : Call} (he : exec μ fuel s call = some (.ok s' ret)) :
    Ends μ s call s' ret := by
  rcases exec_cases he with ⟨hcall, -⟩ | ⟨thread, v, rfl, -, -⟩
  · cases call with
    | create => exact .creates hcall
    | yield =>
      change workerYield μ fuel { s with interruptDisabled := true } = _ at hcall
      refine .switches (fun _ => Call.noConfusion) ?_ hcall
      rfl
    | exit valuePtr => exact .exits hcall
    | join thread v => exact join_ends he
    | lock mutex => exact lock_ends hcall
    | unlock mutex => exact unlock_ends hcall
    | mutexInit mutex =>
      cases Option.some.inj hcall
      exact .stays (fun _ => Call.noConfusion) rfl rfl rfl rfl
    | mutexDestroy mutex => exact mutexDestroy_ends hcall
    | preempt => exact preempt_ends hcall
  · exact join_ends he

end Kept

/-- Following the calls of a program makes a run, of the steps that meet `ok` if all do. -/
theorem run_of_follow (ok : State → Label → Prop) (fuel : ℕ) (calls : List Call) {es : List Label}
    (hf : follow μ fuel s calls = some (es, s')) (hok : ∀ u l, l.call ∈ calls → ok u l) :
    Run (Guarded ok (Step μ)) s es s' := by
  induction calls generalizing s es with
  | nil =>
    cases hf
    exact .nil
  | cons call calls ih =>
    obtain ⟨o, he, hf⟩ := Option.bind_eq_some_iff.1 hf
    cases o with
    | exit c => cases hf
    | ok u ret =>
      obtain ⟨⟨es, v⟩, hrest, hf⟩ := Option.bind_eq_some_iff.1 hf
      cases hf
      have hfirst : Run (Guarded ok (Step μ)) s [⟨s.caller, call, ret⟩] u :=
        .single ⟨hok s _ (by simp), rfl, fuel, he⟩
      exact hfirst.append (ih hrest fun w l hl => hok w l (List.mem_cons_of_mem _ hl))

end UserOS.Worker
