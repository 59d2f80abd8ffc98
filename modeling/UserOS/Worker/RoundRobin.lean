import UserOS.Lib.Rotation
import UserOS.Worker.Threads

/-!
# The Round Robin order

With no join and no mutex, `sched_rr` is a rotation: a new thread, one that yields and one that the
timer stops go to the end of the ready queue, and its head runs next.

* `InTurn`: the calls of such a program; the main thread does not exit.
* `Shows`: the state shows a rotation: its line is the ready queue.
* `round_robin_fifo`: every run of such calls is a run of the rotation, the fallback to the main
  thread is never taken, and so every thread gets its turn.
-/

namespace UserOS.Worker

open Lib

variable {μ : Malloc Node} {s s' s₁ : State} {a id fuel : ℕ} {R W : List ℕ} {t : Tcb}
  {ret : Option Ret} {call : Call}

/-! ## The program and the rotation -/

/-- The calls of a program that creates threads, yields, is stopped by the timer, and whose threads
exit but for the main thread. -/
def InTurn (s : State) : Call → Prop
  | .create | .yield | .preempt => True
  | .exit _ => s.runningThread ≠ s.mainThread
  | _ => False

/-- What a call is for the rotation. -/
def Call.shift : Call → Shift
  | .create => .add
  | .exit _ => .drop
  | _ => .rotate

/-- The thread that `sched_rr` dispatches, where the call gets there. -/
def dispatched (s : State) (call : Call) (s' : State) : Option ℕ :=
  match call with
  | .yield | .exit _ => s'.runningThread
  | .preempt => if s.interruptDisabled then none else s'.runningThread
  | _ => none

/-- The steps of such a program, with the thread dispatched. -/
def Dispatching (μ : Malloc Node) (s : State) (e : Label × Option ℕ) (s' : State) : Prop :=
  Guarded (fun u l => InTurn u l.call) (Step μ) s e.1 s' ∧ e.2 = dispatched s e.1.call s'

/-- The node at the head of the ready queue when `sched_rr` takes one. -/
def headNode (s : State) : Call → Option ℕ
  | .exit _ => s.readyQueue.head
  | _ => s.readyQueue.head.or s.runningNode

/-- The first call of `worker_create` makes the main thread, which runs, and thread 1. -/
def firstRotation : Rotation := ⟨2, 0, [1], by decide, by decide⟩

/-- The labels as the rotation sees them. -/
def shifts (es : List (Label × Option ℕ)) : List (Shift × Option ℕ) :=
  es.map fun e => (e.1.call.shift, e.2)

/-- The state shows the rotation: the ready queue, from its head to its tail pointer, holds one node
for each thread of the line. -/
structure Shows (s : State) (r : Rotation) : Prop where
  running : s.runningThread = some r.current
  ready : ∃ R, Holds s.nodes s.readyQueue R ∧ R.map (tcbOf s.nodes) = r.waiting.map some
  created : s.threadCount = r.created
  live : ∀ id, s.live id = true ↔ id ∈ r.members

/-! ## Switches that find a thread ready -/

/-- What a switch leaves alone when a thread is ready: it makes no node. -/
structure NoFallback (s s' : State) : Prop where
  mallocs : s'.mallocs = s.mallocs
  main : s'.mainThread = s.mainThread
  enabled : s'.interruptDisabled = false

theorem dispatch_noFallback (hd : dispatch μ s = some (.ok s' ret))
    (hhead : s.readyQueue.head ≠ none) :
    NoFallback s s' ∧ s'.runningNode = s.readyQueue.head := by
  obtain ⟨⟨h, q, next⟩, hpop, hd⟩ := Option.bind_eq_some_iff.1 hd
  obtain ⟨b, hb⟩ := Option.ne_none_iff_exists'.1 hhead
  have hnext : next = some b := by
    unfold popFromQueue at hpop
    rw [hb] at hpop
    obtain ⟨n, -, hpop⟩ := Option.bind_eq_some_iff.1 hpop
    obtain ⟨h₁, -, hpop⟩ := Option.bind_eq_some_iff.1 hpop
    cases hpop
    rfl
  subst hnext
  obtain ⟨n, -, hd⟩ := Option.bind_eq_some_iff.1 hd
  obtain ⟨t, -, hd⟩ := Option.bind_eq_some_iff.1 hd
  split_ifs at hd
  · cases hd
  · cases hd
    exact ⟨⟨rfl, rfl, rfl⟩, hb.symm⟩

/-- A thread that goes on finds at least itself. -/
theorem yield_noFallback (hs : Scheduled s a id R W)
    (hy : workerYield μ fuel s = some (.ok s' ret)) :
    NoFallback s s' ∧ s'.runningNode = s.readyQueue.head.or s.runningNode := by
  obtain ⟨s₁, hr, hd⟩ := Option.bind_eq_some_iff.1 hy
  obtain ⟨t, ht, hst⟩ := hs.exists_tcb
  unfold retire at hr
  simp only [hs.thread, hs.node, ht, hst, Option.bind_eq_bind, Option.bind_some] at hr
  obtain ⟨⟨h, q⟩, henq, hr⟩ := Option.bind_eq_some_iff.1 hr
  cases hr
  have hq := (enqueue_ends henq).1
  have hhead : q.head ≠ none := enqueue_head henq
  obtain ⟨hno, hnode⟩ := dispatch_noFallback hd hhead
  refine ⟨⟨hno.mallocs, hno.main, hno.enabled⟩, ?_⟩
  rw [hnode, hs.node]
  exact congrArg Queue.head hq

/-- A thread without a joiner that exits is freed. -/
theorem retire_alone (hr : retire fuel s = some s') (hq : Queues s [a] R W)
    (hnode : s.runningNode = some a) (hthread : s.runningThread = some id)
    (hid : tcbOf s.nodes a = some id) (ht : s.tcbs id = some t) (hst : t.status = .finished)
    (halone : t.waitingThread < 0) : Queues s' [] R W ∧ s'.readyQueue = s.readyQueue ∧
      s'.mallocs = s.mallocs ∧ s'.mainThread = s.mainThread ∧
      ∀ b, b ≠ a → tcbOf s'.nodes b = tcbOf s.nodes b := by
  unfold retire at hr
  simp only [hthread, hnode, ht, hst, Option.bind_eq_bind, Option.bind_some] at hr
  obtain ⟨s₁, hrel, hfree⟩ := Option.bind_eq_some_iff.1 hr
  obtain rfl := (releaseThreads_releases hrel).2 halone
  cases hfree
  refine ⟨hq.free hid, rfl, rfl, rfl, fun b hb => ?_⟩
  simp [tcbOf, Function.update_of_ne hb]

/-- A thread without a joiner exits, and the head of the ready queue runs. -/
theorem Scheduled.leave {valuePtr c : ℕ} (hs : Scheduled s a id (c :: R) W)
    (ht : s.tcbs id = some t) (halone : t.waitingThread < 0)
    (he : workerExit μ fuel s valuePtr = some (.ok s' ret)) :
    ∃ i, Scheduled s' c i R W ∧ NoFallback s s' ∧ s'.runningNode = s.readyQueue.head ∧
      ∀ b, b ≠ a → tcbOf s'.nodes b = tcbOf s.nodes b := by
  obtain ⟨i, u, hi, hu, hy⟩ := workerExit_eq he
  obtain rfl := Option.some.inj (hs.thread.symm.trans hi)
  obtain rfl := Option.some.inj (ht.symm.trans hu)
  obtain ⟨s₁, hr, hd⟩ := Option.bind_eq_some_iff.1 hy
  have hq := hs.queues.setTcb List.mem_cons_self hs.points { t with status := .finished }
  obtain ⟨hq', hready, hmallocs, hmain, hids⟩ := retire_alone hr (hq.congr rfl rfl rfl rfl rfl)
    hs.node hs.thread hs.points (Function.update_self ..) rfl halone
  have hhead : s₁.readyQueue.head ≠ none := by
    rw [hq'.ready.head]
    exact Option.some_ne_none c
  obtain ⟨hno, hnode⟩ := dispatch_noFallback hd hhead
  obtain ⟨s₂, i, ho, hs₂, hids₂⟩ := dispatch_scheduled hq' hd
  cases ho
  refine ⟨i, hs₂, ⟨hno.mallocs.trans hmallocs, hno.main.trans hmain, hno.enabled⟩, ?_,
    fun b hb => (congrFun hids₂ b).trans (hids b hb)⟩
  rw [hnode, hready]
  rfl

/-! ## The simulation -/

/-- The state is a rotation with nothing else going on: no thread waits, joins or is inside a call,
and the interrupts are enabled. -/
structure Simulates (s : State) (a : ℕ) (R : List ℕ) (r : Rotation) : Prop where
  scheduled : Scheduled s a r.current R []
  line : R.map (tcbOf s.nodes) = r.waiting.map some
  created : s.threadCount = r.created
  main : s.mainThread = some 0 ∧ 0 ∈ r.members
  enabled : s.interruptDisabled = false
  idle : ∀ id, s.cont id = .idle
  alone : ∀ id t, s.tcbs id = some t → t.waitingThread = -1

variable {r : Rotation}

theorem Simulates.shows (hs : Simulates s a R r) : Shows s r where
  running := hs.scheduled.thread
  ready := ⟨R, hs.scheduled.queues.ready, hs.line⟩
  created := hs.created
  live id := by
    have hmembers : (a :: (R ++ [])).map (tcbOf s.nodes) = r.members.map some := by
      rw [List.append_nil, List.map_cons, hs.scheduled.points, hs.line]
      rfl
    rw [hs.scheduled.queues.people.live id]
    constructor
    · rintro ⟨b, hb, hid⟩
      have hmem : some id ∈ r.members.map some := hmembers ▸ hid ▸ List.mem_map_of_mem hb
      obtain ⟨i, hi, heq⟩ := List.mem_map.1 hmem
      exact Option.some.inj heq ▸ hi
    · intro hid
      have hmem : some id ∈ (a :: (R ++ [])).map (tcbOf s.nodes) :=
        hmembers ▸ List.mem_map_of_mem hid
      obtain ⟨b, hb, heq⟩ := List.mem_map.1 hmem
      exact ⟨b, hb, heq⟩

/-- The running thread goes to the end of the line. -/
theorem Simulates.rotate {b : Bool} (hs : Simulates s a R r)
    (hy : workerYield μ fuel { s with interruptDisabled := b } = some (.ok s' ret)) :
    ∃ c R', Simulates s' c R' r.rotate ∧ s'.mallocs = s.mallocs ∧
      s'.runningNode = s.readyQueue.head.or s.runningNode := by
  have hs₀ : Scheduled { s with interruptDisabled := b } a r.current R [] :=
    hs.scheduled.congr rfl rfl rfl rfl rfl rfl rfl
  obtain ⟨hno, hnode⟩ := yield_noFallback hs₀ hy
  obtain ⟨s₁, c, i, R', ho, hline, hs', hids⟩ := hs₀.rotate hy
  cases ho
  obtain ⟨t, ht, hst⟩ := hs₀.exists_tcb
  obtain ⟨-, next, hsw⟩ := workerYield_effect hy hs₀.thread ht
  have hmembers : (c :: R').map (tcbOf s'.nodes) = r.rotate.members.map some := by
    rw [← hline, hids, List.map_append, Rotation.rotate_members, List.map_append,
      List.map_singleton, hs₀.points]
    exact congrArg (· ++ [some r.current]) hs.line
  rw [List.map_cons, hs'.points] at hmembers
  obtain ⟨hcurrent, hwaiting⟩ := List.cons.inj hmembers
  obtain rfl := Option.some.inj hcurrent
  refine ⟨c, R', ⟨hs', hwaiting, ?_, ⟨hno.main.trans hs.main.1, ?_⟩, hno.enabled, fun j => ?_,
    fun j u hu => ?_⟩, hno.mallocs, hnode⟩
  · rw [hsw.count, Rotation.rotate_created]
    exact hs.created
  · rw [Rotation.rotate_members]
    exact (List.perm_append_singleton r.current r.waiting).mem_iff.2 hs.main.2
  · rw [hsw.cont]
    exact hs.idle j
  · have h := waits_of_links (hsw.links j (.inr (by rw [hst]; exact Status.noConfusion)))
    rw [hu, Option.map_some] at h
    obtain ⟨w, hw, heq⟩ := Option.map_eq_some_iff.1 h.symm
    rw [← heq]
    exact hs.alone j w hw

/-- Where another thread than the main thread runs, the main thread stands in line. -/
theorem Simulates.main_waits (hs : Simulates s a R r) (hmain : s.runningThread ≠ s.mainThread) :
    0 ∈ r.waiting ∧ R ≠ [] := by
  have hzero : 0 ∈ r.waiting := by
    refine (List.mem_cons.1 hs.main.2).resolve_left fun h => hmain ?_
    rw [hs.scheduled.thread, hs.main.1, h]
  refine ⟨hzero, fun hnil => ?_⟩
  have hline := hs.line
  rw [hnil, List.map_nil, eq_comm, List.map_eq_nil_iff] at hline
  rw [hline] at hzero
  cases hzero

/-- The running thread leaves. It is not the main thread, so that the line is not empty. -/
theorem Simulates.leave {valuePtr : ℕ} (hs : Simulates s a R r)
    (hmain : s.runningThread ≠ s.mainThread)
    (he : workerExit μ fuel s valuePtr = some (.ok s' ret)) :
    ∃ c R' r', r.drop = some r' ∧ Simulates s' c R' r' ∧ s'.mallocs = s.mallocs ∧
      s'.runningNode = s.readyQueue.head ∧ s.readyQueue.head ≠ none := by
  obtain ⟨hzero, hne⟩ := hs.main_waits hmain
  cases R with
  | nil => exact absurd rfl hne
  | cons c R =>
    obtain ⟨b, w, hw⟩ := List.exists_cons_of_ne_nil (List.ne_nil_of_mem hzero)
    obtain ⟨r', hdrop, hcreated, hcurrent, hwaiting⟩ := Rotation.drop_cons hw
    obtain ⟨t, ht, -⟩ := hs.scheduled.exists_tcb
    have halone : t.waitingThread < 0 := by
      rw [hs.alone _ t ht]
      decide
    obtain ⟨i, hs', hno, hnode, hids⟩ := hs.scheduled.leave ht halone he
    have hapart := hs.scheduled.queues.apart.1 a List.mem_cons_self
    have hline : (c :: R).map (tcbOf s'.nodes) = (b :: w).map some := by
      rw [← hw, ← hs.line]
      exact List.map_congr_left fun x hx => hids x fun heq => hapart.1 (heq ▸ hx)
    rw [List.map_cons, hs'.points] at hline
    obtain ⟨hi, hrest⟩ := List.cons.inj hline
    obtain rfl := Option.some.inj hi
    subst hcurrent
    have hhead : s.readyQueue.head ≠ none := by
      rw [hs.scheduled.queues.ready.head]
      exact Option.some_ne_none c
    obtain ⟨j, u, hj, hu, hy⟩ := workerExit_eq he
    obtain ⟨-, next, hsw⟩ := workerYield_effect hy hj (Function.update_self ..)
    refine ⟨c, R, r', hdrop, ⟨hs', by rw [hrest, hwaiting], ?_, ⟨hno.main.trans hs.main.1, ?_⟩,
      hno.enabled, fun i => ?_, fun i v hv => ?_⟩, hno.mallocs, hnode, hhead⟩
    · rw [hsw.count, hcreated]
      exact hs.created
    · rwa [Rotation.members, hwaiting, ← hw]
    · rw [hsw.cont]
      exact hs.idle i
    · have hij : i ≠ j := fun heq => by
        rw [heq, hsw.gone rfl] at hv
        cases hv
      have h := waits_of_links (hsw.links i (.inl hij))
      rw [hv, Option.map_some] at h
      obtain ⟨w', hw', heq⟩ := Option.map_eq_some_iff.1 h.symm
      rw [← heq]
      exact hs.alone i w' ((Function.update_of_ne hij _ _).symm.trans hw')

/-- A new thread stands at the end of the line. -/
theorem Simulates.add (hs : Simulates s a R r)
    (hc : createThread μ fuel s = some (.ok s' ret)) : ∃ b, Simulates s' a (R ++ [b]) r.add := by
  obtain ⟨s₁, ret₁, b, ho, hs', hkeep, hb⟩ := createThread_scheduled hs.scheduled hc
  cases ho
  have hline : (R ++ [b]).map (tcbOf s'.nodes) = r.add.waiting.map some := by
    have hold : R.map (tcbOf s'.nodes) = R.map (tcbOf s.nodes) := by
      refine List.map_congr_left fun x hx => hkeep x ?_
      exact (hs.scheduled.queues.people.alloc x).2 (by simp [hx])
    rw [List.map_append, hold, hs.line, List.map_singleton, hb, hs.created, Rotation.add,
      List.map_append, List.map_singleton]
  obtain ⟨⟨s₁, c⟩, hnode, hc⟩ := Option.bind_eq_some_iff.1 hc
  obtain ⟨-, rfl⟩ := createNode_eq hnode
  obtain ⟨s₂, henq, hret⟩ := Option.bind_eq_some_iff.1 hc
  cases hret
  obtain ⟨h, q, w, rfl⟩ := (enqueueReady_moved henq).rest
  refine ⟨b, hs', hline, congrArg (· + 1) hs.created,
    ⟨hs.main.1, List.mem_append_left [r.created] hs.main.2⟩, hs.enabled, hs.idle,
    fun i t ht => ?_⟩
  change Function.update s.tcbs s.threadCount (some (.new .ready true)) i = some t at ht
  by_cases hi : i = s.threadCount
  · rw [hi, Function.update_self] at ht
    rw [← Option.some.inj ht]
    rfl
  · rw [Function.update_of_ne hi] at ht
    exact hs.alone i t ht

/-- The main thread alone. -/
theorem createMain_simulates (hm : createMain μ .start = some s) :
    ∃ a, Simulates s a [] ⟨1, 0, [], by decide, by decide⟩ := by
  obtain ⟨a, id, hs⟩ := createMain_spec queues_start hm
  obtain ⟨⟨s₁, c⟩, hnode, hm⟩ := Option.bind_eq_some_iff.1 hm
  obtain ⟨-, rfl⟩ := createNode_eq hnode
  cases hm
  obtain rfl : 0 = id := Option.some.inj hs.thread
  refine ⟨a, hs, rfl, rfl, ⟨rfl, List.mem_singleton_self 0⟩, rfl, fun _ => rfl, fun i t ht => ?_⟩
  change Function.update State.start.tcbs 0 (some (.new .running false)) i = some t at ht
  by_cases hi : i = 0
  · rw [hi, Function.update_self] at ht
    rw [← Option.some.inj ht]
    rfl
  · rw [Function.update_of_ne hi] at ht
    cases ht

/-! ## Steps -/

variable {e : Label × Option ℕ} {es : List (Label × Option ℕ)}

/-- A switch runs the node at the head of the ready queue. There is one, so that the fallback, which
makes a node for the main thread, is not taken. -/
structure ServesHead (s : State) (call : Call) (s' : State) : Prop where
  node : s'.runningNode = headNode s call
  head : headNode s call ≠ none
  mallocs : s'.mallocs = s.mallocs

/-- A step is a turn of the rotation. -/
theorem step_simulates (hs : Simulates s a R r) (hstep : Dispatching μ s e s') :
    (∃ b R' r', Rotation.Step r (e.1.call.shift, e.2) r' ∧ Simulates s' b R' r') ∧
      (e.1.call.shift.passes → ServesHead s e.1.call s') := by
  obtain ⟨⟨thread, call, ret⟩, d⟩ := e
  obtain ⟨⟨hcalls, -, fuel, he⟩, hd⟩ := hstep
  change d = dispatched s call s' at hd
  have hcall : startCall μ fuel s call = some (.ok s' ret) := by
    rcases exec_cases he with ⟨hcall, -⟩ | ⟨target, v, rfl, hcont, -⟩
    · exact hcall
    · exact absurd hcalls fun h => h
  have hnode : s.readyQueue.head.or s.runningNode ≠ none := by
    rw [hs.scheduled.node]
    simp
  -- A thread that yields and one that the timer stops do the same.
  have hrotate : ∀ b, workerYield μ fuel { s with interruptDisabled := b } = some (.ok s' ret) →
      (∃ c R', Simulates s' c R' r.rotate) ∧ s'.runningThread = some r.rotate.current ∧
        s'.runningNode = s.readyQueue.head.or s.runningNode ∧ s'.mallocs = s.mallocs := by
    intro b hy
    obtain ⟨c, R', hs', hmallocs, hrun⟩ := hs.rotate hy
    exact ⟨⟨c, R', hs'⟩, hs'.scheduled.thread, hrun, hmallocs⟩
  cases call with
  | create =>
    obtain ⟨s₁, hmain, hc⟩ := Option.bind_eq_some_iff.1 hcall
    have hpos : s.threadCount ≠ 0 := by
      rw [hs.created]
      exact Nat.ne_of_gt (Nat.lt_of_le_of_lt (Nat.zero_le _) (r.bound _ List.mem_cons_self))
    rw [ensureMain, if_neg hpos, Option.some.injEq] at hmain
    subst hmain
    obtain ⟨b, hs'⟩ := hs.add hc
    exact ⟨⟨a, R ++ [b], r.add, ⟨rfl, hd⟩, hs'⟩, fun h => nomatch h⟩
  | yield =>
    obtain ⟨⟨c, R', hs'⟩, hthread, hrun, hmallocs⟩ := hrotate true hcall
    exact ⟨⟨c, R', r.rotate, ⟨rfl, hd.trans hthread⟩, hs'⟩, fun _ => ⟨hrun, hnode, hmallocs⟩⟩
  | preempt =>
    change interruptHandler μ fuel s = some (.ok s' ret) at hcall
    rw [interruptHandler, if_neg (by simp [hs.enabled])] at hcall
    obtain ⟨⟨c, R', hs'⟩, hthread, hrun, hmallocs⟩ := hrotate s.interruptDisabled hcall
    rw [dispatched, if_neg (by simp [hs.enabled])] at hd
    exact ⟨⟨c, R', r.rotate, ⟨rfl, hd.trans hthread⟩, hs'⟩, fun _ => ⟨hrun, hnode, hmallocs⟩⟩
  | exit valuePtr =>
    obtain ⟨c, R', r', hdrop, hs', hmallocs, hrun, hhead⟩ := hs.leave hcalls hcall
    exact ⟨⟨c, R', r', ⟨hdrop, hd.trans hs'.scheduled.thread⟩, hs'⟩,
      fun _ => ⟨hrun, hhead, hmallocs⟩⟩
  | _ => exact absurd hcalls fun h => h

/-! ## The calls return -/

theorem Queues.enqueueReady_exists {X : List ℕ} (hq : Queues s (a :: X) R W) :
    ∃ s', Worker.enqueueReady fuel s a = some s' := by
  obtain ⟨id, ha⟩ := hq.hand_eq List.mem_cons_self
  have hnot := (hq.apart.1 a List.mem_cons_self).1
  obtain ⟨h, q, henq, -, -⟩ := enqueue_spec fuel hq.ready hnot ha
  exact ⟨_, by rw [Worker.enqueueReady, henq]; rfl⟩

theorem dispatch_exists (hq : Queues s [] (a :: R) W) :
    ∃ s', dispatch μ s = some (.ok s' none) := by
  have hsome : ∃ o, dispatch μ s = some o := by
    obtain ⟨h, q, hpop, hq', hids⟩ := hq.pop
    obtain ⟨id, t, hid, ht⟩ := hq'.exists_tcb (a := a) (by simp)
    obtain ⟨n, hn, rfl⟩ := Option.map_eq_some_iff.1 hid
    unfold dispatch
    change h a = some n at hn
    change s.tcbs n.tcb = some t at ht
    simp only [hpop, Option.bind_eq_bind, Option.bind_some, hn, ht]
    split_ifs <;> exact ⟨_, rfl⟩
  obtain ⟨o, ho⟩ := hsome
  obtain ⟨s', id, rfl, -⟩ := dispatch_scheduled hq ho
  exact ⟨s', ho⟩

theorem Scheduled.yield_exists (hs : Scheduled s a id R W) :
    ∃ s', workerYield μ fuel s = some (.ok s' none) := by
  obtain ⟨t, ht, hst⟩ := hs.exists_tcb
  have hset := hs.queues.setTcb List.mem_cons_self hs.points { t with status := .ready }
  obtain ⟨s₁, henq⟩ : ∃ s₁, enqueueReady fuel _ a = some s₁ := hset.enqueueReady_exists
  have hr : retire fuel s = some s₁ := by
    unfold retire
    simp only [hs.thread, hs.node, ht, hst, Option.bind_eq_bind, Option.bind_some]
    exact henq
  have hq := retire_running hr hs.queues hs.node hs.thread hs.points ht hst
  obtain ⟨c, R', hR⟩ := List.exists_cons_of_ne_nil (List.append_ne_nil_of_right_ne_nil R
    (List.cons_ne_nil a []))
  obtain ⟨s', hd⟩ := dispatch_exists (μ := μ) (hR ▸ hq)
  exact ⟨s', by rw [workerYield, hr]; exact hd⟩

theorem Scheduled.leave_exists {valuePtr c : ℕ} (hs : Scheduled s a id (c :: R) W)
    (ht : s.tcbs id = some t) (halone : t.waitingThread < 0)
    (hv : valuePtr = 0 ∨ id < numReturnValues) :
    ∃ s', workerExit μ fuel s valuePtr = some (.ok s' none) := by
  obtain ⟨u, hu, hst⟩ := hs.exists_tcb
  obtain rfl := Option.some.inj (ht.symm.trans hu)
  have hset := hs.queues.setTcb List.mem_cons_self hs.points { t with status := .finished }
  have hrel : ∀ u, releaseThreads fuel u { t with status := .finished } = some u := fun u =>
    if_neg (Int.not_le.2 halone)
  have hself : (s.setTcb id { t with status := .finished }).tcbs id =
      some { t with status := .finished } := Function.update_self ..
  have hq : Queues { s.setTcb id { t with status := .finished } with
      returnValues := if valuePtr = 0 then s.returnValues
        else Function.update s.returnValues id valuePtr
      interruptDisabled := true } [a] (c :: R) W := hset.congr rfl rfl rfl rfl rfl
  obtain ⟨s', hd⟩ := dispatch_exists (μ := μ) (hq.free hs.points)
  refine ⟨s', ?_⟩
  have hv : ¬(valuePtr ≠ 0 ∧ numReturnValues ≤ id) := fun h => by
    rcases hv with hv | hv
    · exact h.1 hv
    · exact Nat.not_le.2 hv h.2
  unfold workerExit
  rw [hs.thread, Option.bind_eq_bind, Option.bind_some, ht, Option.bind_eq_bind, Option.bind_some,
    if_neg (fun h => h hst), if_neg hv, workerYield, retire]
  simp only [hs.thread, hs.node, State.setTcb, Option.bind_eq_bind, Option.bind_some] at hself hd ⊢
  simp only [hself, hrel, Option.bind_some]
  exact hd

theorem Scheduled.createThread_exists (hs : Scheduled s a id R W)
    (haddr : μ.addr s.mallocs s.nodes ≠ none) :
    ∃ s' ret, createThread μ fuel s = some (.ok s' ret) := by
  obtain ⟨b, hb⟩ := Option.ne_none_iff_exists'.1 haddr
  have hnew := hs.queues.addThread (μ.fresh hb) (.new .ready true)
  have hq : Queues { s.addThread b (.new .ready true) with
      activeThreads := s.activeThreads + 1, mallocs := s.mallocs + 1 } [b, a] R W :=
    hnew.congr rfl rfl rfl rfl rfl
  obtain ⟨s₁, henq⟩ : ∃ s₁, enqueueReady fuel _ b = some s₁ := hq.enqueueReady_exists
  refine ⟨s₁, code s.threadCount, ?_⟩
  unfold createThread createNode
  simp only [State.setTcb, hb, Option.bind_eq_bind, Option.bind_some]
  rw [Option.bind_eq_some_iff]
  exact ⟨s₁, henq, rfl⟩

/-- A call of the program returns, if `create_node` gets memory and the id of a thread that exits
with a value is one of `return_values`. -/
theorem Simulates.returns (hs : Simulates s a R r) (hcalls : InTurn s call)
    (haddr : call = .create → μ.addr s.mallocs s.nodes ≠ none)
    (hvalue : ∀ valuePtr, call = .exit valuePtr → valuePtr = 0 ∨ s.caller < numReturnValues) :
    ∃ s' ret, exec μ fuel s call = some (.ok s' ret) := by
  have hexec : exec μ fuel s call = startCall μ fuel s call := by
    unfold exec
    rw [hs.idle]
    cases call <;> rfl
  rw [hexec]
  cases call with
  | create =>
    have hpos : s.threadCount ≠ 0 := by
      rw [hs.created]
      exact Nat.ne_of_gt (Nat.lt_of_le_of_lt (Nat.zero_le _) (r.bound _ List.mem_cons_self))
    obtain ⟨s', ret, hc⟩ : ∃ s' ret, createThread μ fuel s = some (.ok s' ret) :=
      hs.scheduled.createThread_exists (haddr rfl)
    refine ⟨s', ret, ?_⟩
    change workerCreate μ fuel s = _
    rw [workerCreate, ensureMain, if_neg hpos]
    exact hc
  | yield =>
    have hs₀ : Scheduled { s with interruptDisabled := true } a r.current R [] :=
      hs.scheduled.congr rfl rfl rfl rfl rfl rfl rfl
    obtain ⟨s', hy⟩ : ∃ s', workerYield μ fuel _ = some (.ok s' none) := hs₀.yield_exists
    exact ⟨s', none, hy⟩
  | preempt =>
    obtain ⟨s', hy⟩ : ∃ s', workerYield μ fuel s = some (.ok s' none) := hs.scheduled.yield_exists
    refine ⟨s', none, ?_⟩
    change interruptHandler μ fuel s = _
    rwa [interruptHandler, if_neg (by simp [hs.enabled])]
  | exit valuePtr =>
    obtain ⟨c, R', rfl⟩ := List.exists_cons_of_ne_nil (hs.main_waits hcalls).2
    obtain ⟨t, ht, -⟩ := hs.scheduled.exists_tcb
    have halone : t.waitingThread < 0 := by
      rw [hs.alone _ t ht]
      decide
    have hv := hvalue valuePtr rfl
    rw [State.caller, hs.scheduled.thread, Option.getD_some] at hv
    obtain ⟨s', he⟩ : ∃ s', workerExit μ fuel s valuePtr = some (.ok s' none) :=
      hs.scheduled.leave_exists ht halone hv
    exact ⟨s', none, he⟩
  | _ => exact absurd hcalls fun h => h

/-! ## Runs -/

/-- A run is a run of the rotation. -/
theorem run_simulates (hs : Simulates s a R r) (hr : Run (Dispatching μ) s es s') :
    ∃ b R' r', Run Rotation.Step r (shifts es) r' ∧ Simulates s' b R' r' := by
  induction hr with
  | nil => exact ⟨a, R, r, .nil, hs⟩
  | snoc _ hstep ih =>
    obtain ⟨b, R₁, r₁, hrun, hs₁⟩ := ih
    obtain ⟨⟨c, R₂, r₂, hshift, hs₂⟩, -⟩ := step_simulates hs₁ hstep
    refine ⟨c, R₂, r₂, ?_, hs₂⟩
    rw [shifts, List.map_append]
    exact hrun.snoc hshift

/-- The first call is `worker_create`, which makes the main thread and thread 1. -/
theorem first_simulates (hstep : Dispatching μ .start e s) :
    e.1.call = .create ∧ ∃ a R, Simulates s a R firstRotation := by
  obtain ⟨⟨thread, call, ret⟩, d⟩ := e
  obtain ⟨⟨hcalls, -, fuel, he⟩, -⟩ := hstep
  have hcall : startCall μ fuel .start call = some (.ok s ret) := by
    rcases exec_cases he with ⟨hcall, -⟩ | ⟨target, v, rfl, hcont, -⟩
    · exact hcall
    · cases hcont
  cases call with
  | create =>
    obtain ⟨s₁, hmain, hc⟩ := Option.bind_eq_some_iff.1 hcall
    obtain ⟨a, hs₁⟩ := createMain_simulates hmain
    obtain ⟨b, hs⟩ := hs₁.add hc
    exact ⟨rfl, a, [b], hs⟩
  | exit valuePtr => exact absurd rfl hcalls
  | yield | preempt => cases hcall
  | _ => exact absurd hcalls fun h => h

theorem run_cases (hr : Run (Dispatching μ) .start es s) : es = [] ∧ s = .start ∨
    ∃ e es' a R r, es = e :: es' ∧ Run Rotation.Step firstRotation (shifts es') r ∧
      Simulates s a R r := by
  induction hr with
  | nil => exact .inl ⟨rfl, rfl⟩
  | @snoc es u v e _ hstep ih =>
    right
    rcases ih with ⟨rfl, rfl⟩ | ⟨e₁, es', a, R, r, rfl, hrun, hs⟩
    · obtain ⟨-, a, R, hs⟩ := first_simulates hstep
      exact ⟨e, [], a, R, firstRotation, rfl, .nil, hs⟩
    · obtain ⟨⟨b, R', r', hshift, hs'⟩, -⟩ := step_simulates hs hstep
      refine ⟨e₁, es' ++ [e], b, R', r', rfl, ?_, hs'⟩
      rw [shifts, List.map_append]
      exact hrun.snoc hshift

/-- Between the dispatch of a thread that leads to `s` and its next one, every other thread that
lives at both is dispatched once. -/
def FairFrom (μ : Malloc Node) (es : List (Label × Option ℕ)) (s : State) : Prop :=
  ∀ e₁ T es' s' e₂ s'', es.getLast? = some e₁ → e₁.2 = some T → Run (Dispatching μ) s es' s' →
    Dispatching μ s' e₂ s'' → some T ∉ es'.map Prod.snd → e₂.2 = some T →
    ∀ U, U ≠ T → s.live U = true → s''.live U = true → (es'.map Prod.snd).count (some U) = 1

/-- The thread that a step dispatches is the one that runs then. -/
theorem dispatched_running {T : ℕ} (h : dispatched s call s' = some T) :
    s'.runningThread = some T := by
  cases call with
  | yield | exit valuePtr => exact h
  | preempt =>
    unfold dispatched at h
    split_ifs at h
    exact h
  | _ => cases h

theorem shifts_dispatched : (shifts es).map Prod.snd = es.map Prod.snd := by
  rw [shifts, List.map_map]
  rfl

theorem run_fair (hr : Run (Dispatching μ) .start es s) : FairFrom μ es s := by
  intro e₁ T es' s' e₂ s'' hlast hfirst hr' hstep hbetween hsecond U hne hU hU₂
  rcases run_cases hr with ⟨rfl, -⟩ | ⟨e₀, es₀, a, R, r, -, -, hs⟩
  · cases hlast
  have hrunning : s.runningThread = some T := by
    obtain ⟨es₁, rfl⟩ := List.getLast?_eq_some_iff.1 hlast
    obtain ⟨u, -, -, hd⟩ := hr.snoc_inv
    exact dispatched_running (hd.symm.trans hfirst)
  obtain ⟨b, R', r', hrun, hs'⟩ := run_simulates hs hr'
  obtain ⟨⟨c, R'', r'', hshift, hs''⟩, -⟩ := step_simulates hs' hstep
  rw [← shifts_dispatched] at hbetween ⊢
  refine Rotation.fair hrun hshift ?_ hbetween hsecond hne ((hs.shows.live U).1 hU)
    ((hs''.shows.live U).1 hU₂)
  exact Option.some.inj (hs.scheduled.thread.symm.trans hrunning)

/-- **Round Robin.** Every run of such a program is, after its first call, a run of the rotation
that the ready queue shows. Each switch runs the thread at the head, there always is one, and the
calls return; and every other thread has its turn between two turns of a thread. -/
theorem round_robin_fifo (hr : Run (Dispatching μ) .start es s) :
    (es = [] ∧ s = .start ∨ ∃ e es' r, es = e :: es' ∧
      Run Rotation.Step firstRotation (shifts es') r ∧ Shows s r) ∧
    (∀ e s', Dispatching μ s e s' → e.1.call.shift.passes → ServesHead s e.1.call s') ∧
    (∀ fuel call, es ≠ [] → InTurn s call →
      (call = .create → μ.addr s.mallocs s.nodes ≠ none) →
      (∀ valuePtr, call = .exit valuePtr → valuePtr = 0 ∨ s.caller < numReturnValues) →
      ∃ s' ret, exec μ fuel s call = some (.ok s' ret)) ∧
    FairFrom μ es s := by
  have hfair := run_fair hr
  rcases run_cases hr with ⟨rfl, rfl⟩ | ⟨e, es', a, R, r, rfl, hrun, hs⟩
  · refine ⟨.inl ⟨rfl, rfl⟩, fun e s' hstep hpasses => ?_, fun _ _ h => absurd rfl h, hfair⟩
    rw [(first_simulates hstep).1] at hpasses
    cases hpasses
  · refine ⟨.inr ⟨e, es', r, rfl, hrun, hs.shows⟩, fun e s' hstep => (step_simulates hs hstep).2,
      fun fuel call _ hcalls haddr hvalue => hs.returns hcalls haddr hvalue, hfair⟩

/-- The main thread creates two threads and yields to thread 1. -/
theorem round_robin_fifo_two :
    let es : List (Label × Option ℕ) :=
      [(⟨0, .create, code 1⟩, none), (⟨0, .create, code 2⟩, none), (⟨0, .yield, none⟩, some 1)]
    let s := after [.create, .create, .yield]
    (es = [] ∧ s = .start ∨ ∃ e es' r, es = e :: es' ∧
      Run Rotation.Step firstRotation (shifts es') r ∧ Shows s r) ∧
    (∀ e s', Dispatching (Malloc.bump Node) s e s' → e.1.call.shift.passes →
      ServesHead s e.1.call s') ∧
    (∀ fuel call, es ≠ [] → InTurn s call →
      (call = .create → (Malloc.bump Node).addr s.mallocs s.nodes ≠ none) →
      (∀ valuePtr, call = .exit valuePtr → valuePtr = 0 ∨ s.caller < numReturnValues) →
      ∃ s' ret, exec (Malloc.bump Node) fuel s call = some (.ok s' ret)) ∧
    FairFrom (Malloc.bump Node) es s := by
  have hfirst : Dispatching (Malloc.bump Node) .start (⟨0, .create, code 1⟩, none)
      (after [.create]) := ⟨⟨trivial, rfl, 9, rfl⟩, rfl⟩
  have hsecond : Dispatching (Malloc.bump Node) (after [.create]) (⟨0, .create, code 2⟩, none)
      (after [.create, .create]) := ⟨⟨trivial, rfl, 9, rfl⟩, rfl⟩
  have hyield : Dispatching (Malloc.bump Node) (after [.create, .create])
      (⟨0, .yield, none⟩, some 1) (after [.create, .create, .yield]) :=
    ⟨⟨trivial, rfl, 9, rfl⟩, rfl⟩
  exact round_robin_fifo (((Run.single hfirst).snoc hsecond).snoc hyield)

end UserOS.Worker
