import Mathlib.Tactic.NormNum
import UserOS.Worker.Mlfq
import UserOS.Worker.Steps

/-!
# No thread of the multi-level queue is ever demoted

`sched_mlfq` demotes a thread when its time has reached the quantum of its level *and* its priority
is above `MLFQ_LEVELS - 1`. The second test is the wrong way round: priorities start at 0, so that
it fails for every thread. All threads stay in the queue 0, which is served in turn.

* `Flat`: the invariant. The queue 0 holds the ready threads, and the other queues are empty.
* `levelled_run`: it holds in every state reached.
* `priorities_follow_iff`: a thread leaves with the priority that follows from its time on the CPU
  exactly if it is below its quantum.
-/

namespace UserOS.Worker.Mlfq

open Lib

variable {μ : Malloc Node} {s s' s₁ : State} {l : List ℕ} {a b id fuel i : ℕ} {t : Tcb}
  {ret : Option Ret} {now stamp : Timeval} {h : Nodes} {q : Queue}

/-! ## What the levels are for -/

/-- A thread in the queue of a level has this priority. -/
def Placed (s : State) : Prop :=
  ∀ i < mlfqLevels, ∃ l, Holds s.nodes (s.mlfqQueue i) l ∧ ∀ a ∈ l, ∃ id t,
    tcbOf s.nodes a = some id ∧ s.tcbs id = some t ∧ t.priority = i

/-- The calls that take the processor from a thread that runs on. -/
def Label.leaves (l : Label) (s : State) : Prop :=
  l.call = .yield ∨ l.call = .preempt ∧ s.interruptDisabled = false

/-- The thread `id` has the processor, with the node `a`. -/
structure OnCpu (s : State) (a id : ℕ) (t : Tcb) : Prop where
  thread : s.runningThread = some id
  node : s.runningNode = some a
  tcb : s.tcbs id = some t
  status : t.status = .running

/-- The thread `id` is the last in the queue of its priority `p`. -/
structure QueuedAt (s : State) (a id p : ℕ) : Prop where
  last : ∃ l, Holds s.nodes (s.mlfqQueue p) (l ++ [a])
  node : tcbOf s.nodes a = some id
  priority : ∃ t, s.tcbs id = some t ∧ t.priority = p

/-- From `s`, in which the thread `id` has used the CPU for `time`, to `s'`: it sinks to the next
level when it has used up its quantum and there is a next level. -/
structure Follows (s s' : State) (a id : ℕ) (t : Tcb) : Prop where
  sinks : t.priority < mlfqLevels - 1 → timeSlice * (t.priority + 1) ≤ s.timeOnCpu id →
    QueuedAt s' a id (t.priority + 1) ∧ s'.timeOnCpu id = 0
  stays : ¬(t.priority < mlfqLevels - 1 ∧ timeSlice * (t.priority + 1) ≤ s.timeOnCpu id) →
    QueuedAt s' a id t.priority

/-- At a switch away from a running thread, `sched_mlfq` queues it as its time on the CPU says. -/
def PrioritiesFollow (s : State) (l : Label) : Prop :=
  l.leaves s → ∀ s₁ a id t, charge s l.now = some s₁ → OnCpu s₁ a id t →
    ∃ fuel s₂, retire fuel s₁ = some s₂ ∧ Follows s₁ s₂ a id t

/-- A running thread that leaves a level other than the last has not used up its quantum. -/
def BelowQuantum (s : State) (l : Label) : Prop :=
  l.leaves s → ∀ a id t, OnCpu s a id t → t.priority < mlfqLevels - 1 →
    s.timeOnCpu id + elapsedMs s.scheduleTimestamp l.now < timeSlice * (t.priority + 1)

/-! ## The invariant -/

/-- The queue 0 holds the nodes `l` of ready threads, the others hold none, and no thread has ever
been demoted. -/
structure Flat (s : State) (l : List ℕ) : Prop where
  bottom : Holds s.nodes (s.mlfqQueue 0) l
  above : ∀ i, 0 < i → s.mlfqQueue i = .empty
  ready : ∀ a ∈ l, ∃ id t, tcbOf s.nodes a = some id ∧ s.tcbs id = some t ∧ t.status = .ready
  ids : (l.map (tcbOf s.nodes)).Nodup
  fresh : ∀ id t, s.tcbs id = some t →
    t.priority = 0 ∧ t.waitingThread = -1 ∧ id < s.threadCount

/-- The thread `id` has the processor, and its node `a` is in no queue. -/
structure Busy (s : State) (l : List ℕ) (a id : ℕ) : Prop extends Flat s l where
  thread : s.runningThread = some id
  node : s.runningNode = some a
  unlinked : s.nodes a = some ⟨id, none⟩
  out : some id ∉ l.map (tcbOf s.nodes)

/-- The states of a program: before the first call, and with a thread on the processor. -/
def Levelled (s : State) : Prop :=
  s.threadCount = 0 ∧ s.runningThread = none ∧ Flat s [] ∨
    ∃ l a id t, Busy s l a id ∧ s.tcbs id = some t ∧ t.status = .running

/-- The threads are where their priorities say, since all of them are 0. -/
theorem Flat.placed (hf : Flat s l) : Placed s := by
  intro i hi
  rcases Nat.eq_zero_or_pos i with rfl | hpos
  · refine ⟨l, hf.bottom, fun a ha => ?_⟩
    obtain ⟨id, t, hid, ht, -⟩ := hf.ready a ha
    exact ⟨id, t, hid, ht, (hf.fresh id t ht).1⟩
  · refine ⟨[], ?_, by simp⟩
    rw [hf.above i hpos]
    exact ⟨rfl, rfl⟩

theorem Levelled.placed (hl : Levelled s) : Placed s := by
  rcases hl with ⟨-, -, hf⟩ | ⟨l, a, id, t, hb, -⟩
  · exact hf.placed
  · exact hb.toFlat.placed

theorem flat_start : Flat .start [] where
  bottom := ⟨rfl, rfl⟩
  above _ _ := rfl
  ready := by simp
  ids := List.nodup_nil
  fresh _ _ ht := nomatch ht

/-- What a state with the same nodes, queues and threads has in common. -/
theorem Flat.congr (hf : Flat s l) (hn : s'.nodes = s.nodes) (hq : s'.mlfqQueue = s.mlfqQueue)
    (ht : s'.tcbs = s.tcbs) (hc : s.threadCount ≤ s'.threadCount) : Flat s' l where
  bottom := by
    rw [hn, hq]
    exact hf.bottom
  above i hi := by
    rw [hq]
    exact hf.above i hi
  ready := by
    rw [hn, ht]
    exact hf.ready
  ids := by
    rw [hn]
    exact hf.ids
  fresh id t hid := by
    rw [ht] at hid
    obtain ⟨hp, hw, hlt⟩ := hf.fresh id t hid
    exact ⟨hp, hw, Nat.lt_of_lt_of_le hlt hc⟩

/-- The node of a new thread or of a thread that leaves goes to the end of the queue 0. -/
theorem enqueueLevel_flat (hf : Flat s l) (fuel : ℕ) (ha : s.nodes a = some ⟨id, none⟩)
    (hout : some id ∉ l.map (tcbOf s.nodes)) (ht : s.tcbs id = some t) (hst : t.status = .ready) :
    ∃ h q, enqueueLevel fuel s 0 a =
        some { s with nodes := h, mlfqQueue := Function.update s.mlfqQueue 0 q } ∧
      Flat { s with nodes := h, mlfqQueue := Function.update s.mlfqQueue 0 q } (l ++ [a]) ∧
      tcbOf h = tcbOf s.nodes ∧ ∀ b, b ∉ l → h b = s.nodes b := by
  have hid : tcbOf s.nodes a = some id := by simp [tcbOf, ha]
  have hal : a ∉ l := fun hmem => hout (hid ▸ List.mem_map_of_mem hmem)
  obtain ⟨h, q, henq, hholds, hrel⟩ := enqueue_spec fuel hf.bottom hal ha
  have hpoints : tcbOf h = tcbOf s.nodes := tcbOf_enqueue henq
  refine ⟨h, q, by simp [enqueueLevel, mlfqLevels, henq], ⟨?_, ?_, ?_, ?_, hf.fresh⟩, hpoints,
    hrel.same⟩
  · simpa using hholds
  · intro i hi
    change Function.update s.mlfqQueue 0 q i = _
    rw [Function.update_of_ne hi.ne']
    exact hf.above i hi
  · change ∀ b ∈ l ++ [a], ∃ id t, tcbOf h b = some id ∧ s.tcbs id = some t ∧ t.status = .ready
    rw [hpoints]
    intro b hb
    rcases List.mem_append.1 hb with hb | hb
    · exact hf.ready b hb
    · obtain rfl := List.mem_singleton.1 hb
      exact ⟨id, t, hid, ht, hst⟩
  · change ((l ++ [a]).map (tcbOf h)).Nodup
    rw [hpoints, List.map_append, List.map_singleton, hid, ← List.concat_eq_append]
    exact hf.ids.concat hout

/-- The control block of a thread that is not queued may change, if it keeps what never changes. -/
theorem Flat.update (hf : Flat s l) (hout : some id ∉ l.map (tcbOf s.nodes)) (x : Option Tcb)
    (hx : ∀ t, x = some t → t.priority = 0 ∧ t.waitingThread = -1 ∧ id < s.threadCount) :
    Flat { s with tcbs := Function.update s.tcbs id x } l where
  bottom := hf.bottom
  above := hf.above
  ready b hb := by
    obtain ⟨i, t, hi, ht, hst⟩ := hf.ready b hb
    have hne : i ≠ id := fun heq => hout (heq ▸ hi ▸ List.mem_map_of_mem hb)
    exact ⟨i, t, hi, (Function.update_of_ne hne _ _).trans ht, hst⟩
  ids := hf.ids
  fresh i t ht := by
    by_cases hi : i = id
    · subst hi
      refine hx t (Eq.trans ?_ ht)
      exact (Function.update_self i x s.tcbs).symm
    · exact hf.fresh i t ((Function.update_of_ne hi _ _).symm.trans ht)

/-! ## The scheduler -/

/-- **A thread that leaves keeps its level**, whatever time it has used. -/
theorem Busy.retire_running (hb : Busy s l a id) (ht : s.tcbs id = some t)
    (hst : t.status = .running) (fuel : ℕ) :
    ∃ s', retire fuel s = some s' ∧ Flat s' (l ++ [a]) ∧ QueuedAt s' a id 0 := by
  obtain ⟨hp, hw, hlt⟩ := hb.fresh id t ht
  let s₁ : State := { s with scheduleCycles := s.scheduleCycles + 1 }
  let t₁ : Tcb := { t with status := .ready }
  have hf : Flat (s₁.setTcb id t₁) l :=
    (hb.toFlat.update hb.out (some t₁) fun u hu => Option.some.inj hu ▸ ⟨hp, hw, hlt⟩).congr
      rfl rfl rfl le_rfl
  have ht₁ : (s₁.setTcb id t₁).tcbs id = some t₁ := Function.update_self ..
  obtain ⟨h, q, henq, hflat, hpoints, -⟩ := enqueueLevel_flat hf fuel hb.unlinked hb.out ht₁ rfl
  refine ⟨_, ?_, hflat, ⟨l, hflat.bottom⟩, ?_, t₁, ht₁, hp⟩
  · have hd : demotes (s.timeOnCpu id) 0 = false := by simp [demotes]
    simp only [retire, hb.thread, hb.node, ht, hst, hp, hd, Option.bind_eq_bind, Option.bind_some]
    exact hp ▸ henq
  · change tcbOf h a = some id
    rw [hpoints]
    simp [tcbOf, State.setTcb, s₁, hb.unlinked]

/-- The control block of a thread that exited is freed. -/
theorem Busy.retire_finished (hb : Busy s l a id) (ht : s.tcbs id = some t)
    (hst : t.status = .finished) (hr : retire fuel s = some s') : Flat s' l := by
  obtain ⟨-, hw, -⟩ := hb.fresh id t ht
  simp only [retire, hb.thread, hb.node, ht, hst, releaseThreads, hw, Option.bind_eq_bind,
    Option.bind_some] at hr
  cases hr
  exact (hb.toFlat.update hb.out none fun _ h => nomatch h).congr rfl rfl rfl le_rfl

/-- An empty level has nothing to boost. -/
theorem boostLevel_empty (hi : s.mlfqQueue i = .empty) {n : ℕ}
    (hb : boostLevel fuel n s i = some s') : s' = s := by
  cases n with
  | zero => cases hb
  | succ n =>
    have hpop : popLevel s i = some (s, none) := by
      rw [popLevel, popFromQueue_nil (by rw [hi]; rfl)]
      simp
    rw [boostLevel, hpop] at hb
    exact (Option.some.inj hb).symm

theorem boostLevels_empty {is : List ℕ} (his : ∀ i ∈ is, s.mlfqQueue i = .empty)
    (hb : is.foldlM (boostLevel fuel fuel) s = some s') : s' = s := by
  induction is with
  | nil => exact (Option.some.inj hb).symm
  | cons i is ih =>
    obtain ⟨u, hlevel, hrest⟩ := Option.bind_eq_some_iff.1 hb
    obtain rfl := boostLevel_empty (his i List.mem_cons_self) hlevel
    exact ih (fun j hj => his j (List.mem_cons_of_mem _ hj)) hrest

/-- A boost finds the upper levels empty. -/
theorem Flat.boost (hf : Flat s l) (hb : boost fuel s = some s') : Flat s' l := by
  unfold Mlfq.boost at hb
  by_cases hdue : s.scheduleCycles ≥ priorityBoostCycles
  · rw [if_pos hdue] at hb
    obtain ⟨u, hu, hreset⟩ := Option.bind_eq_some_iff.1 hb
    obtain rfl := boostLevels_empty (fun i hi => hf.above i (List.mem_range'_1.1 hi).1) hu
    cases hreset
    exact hf.congr rfl rfl rfl le_rfl
  · rw [if_neg hdue] at hb
    exact Option.some.inj hb ▸ hf

/-- With all threads in the queue 0, its front is the next thread. -/
theorem Flat.getNext_cons (hf : Flat s (a :: l)) : getNextThreadMlfq s = popLevel s 0 := by
  have hhead : (s.mlfqQueue 0).head = some a := hf.bottom.head
  have hfirst : (List.range mlfqLevels).find? (fun i => (s.mlfqQueue i).head.isSome) = some 0 := by
    change List.find? _ [0, 1, 2, 3] = _
    rw [List.find?_cons_of_pos (by rw [hhead]; rfl)]
  rw [getNextThreadMlfq, hfirst]

theorem Flat.getNext_nil (hf : Flat s []) : getNextThreadMlfq s = some (s, none) := by
  have hnone : (List.range mlfqLevels).find? (fun i => (s.mlfqQueue i).head.isSome) = none := by
    refine List.find?_eq_none.2 fun i _ => ?_
    rcases Nat.eq_zero_or_pos i with rfl | hpos
    · rw [hf.bottom.head]
      simp
    · rw [hf.above i hpos]
      simp [Queue.empty]
  rw [getNextThreadMlfq, hnone]

/-- The next thread gets the processor, and its level is the same as before. -/
theorem Flat.dispatch (hf : Flat s l) (hd : dispatch μ s stamp = some (.ok s' ret)) :
    Levelled s' := by
  unfold Mlfq.dispatch at hd
  cases l with
  | nil =>
    -- Nothing is queued, so that the main thread goes on.
    rw [hf.getNext_nil] at hd
    simp only [Option.bind_eq_bind, Option.bind_some] at hd
    cases hmain : s.mainThread with
    | none =>
      rw [hmain] at hd
      cases hd
    | some main =>
      rw [hmain] at hd
      obtain ⟨⟨w, b⟩, hnode, hd⟩ := Option.bind_eq_some_iff.1 hd
      obtain ⟨t, ht, hd⟩ := Option.bind_eq_some_iff.1 hd
      obtain ⟨-, rfl⟩ := createNode_eq hnode
      cases hd
      obtain ⟨hp, hw, hlt⟩ := hf.fresh main t ht
      have hupd : Flat { s with
          tcbs := Function.update s.tcbs main (some { t with status := .running }) } [] :=
        hf.update (by simp) _ fun u hu => Option.some.inj hu ▸ ⟨hp, hw, hlt⟩
      refine .inr ⟨[], b, main, { t with status := .running },
        ⟨⟨⟨hf.bottom.head, hf.bottom.tail⟩, hf.above, by simp, List.nodup_nil, hupd.fresh⟩, rfl,
          rfl, Function.update_self .., by simp⟩, Function.update_self .., rfl⟩
  | cons b l =>
    obtain ⟨h, q, n, hpop, hholds, hn, hcut, hrel⟩ := popFromQueue_spec hf.bottom
    rw [hf.getNext_cons, popLevel, hpop] at hd
    simp only [Option.bind_eq_bind, Option.bind_some] at hd
    obtain ⟨m, hm, hd⟩ := Option.bind_eq_some_iff.1 hd
    obtain rfl : { n with next := none } = m := Option.some.inj (hcut.symm.trans hm)
    obtain ⟨t, ht, hd⟩ := Option.bind_eq_some_iff.1 hd
    have hid : tcbOf s.nodes b = some n.tcb := by simp [tcbOf, hn]
    have hpoints : tcbOf h = tcbOf s.nodes := funext hrel.tcb
    have hnd := hf.ids
    rw [List.map_cons, List.nodup_cons, hid] at hnd
    obtain ⟨hp, hw, hlt⟩ := hf.fresh n.tcb t ht
    dsimp only at hd
    by_cases hblock : t.status = .blocked
    · rw [if_pos hblock] at hd
      cases hd
    rw [if_neg hblock] at hd
    cases hd
    have hrest : Flat { s with nodes := h, mlfqQueue := Function.update s.mlfqQueue 0 q } l := by
      refine ⟨by simpa using hholds, fun i hi => ?_, fun c hc => ?_, ?_, hf.fresh⟩
      · exact (Function.update_of_ne hi.ne' _ _).trans (hf.above i hi)
      · change ∃ id t, tcbOf h c = some id ∧ _
        rw [hpoints]
        exact hf.ready c (List.mem_cons_of_mem _ hc)
      · change (l.map (tcbOf h)).Nodup
        rw [hpoints]
        exact hnd.2
    have hout : some n.tcb ∉ l.map (tcbOf h) := by
      rw [hpoints]
      exact hnd.1
    have hflat := hrest.update hout (some { t with status := .running, firstSchedule := false })
      fun u hu => Option.some.inj hu ▸ ⟨hp, hw, hlt⟩
    refine .inr ⟨l, b, n.tcb, { t with status := .running, firstSchedule := false },
      ⟨hflat.congr ?_ ?_ ?_ ?_, rfl, rfl, hcut, hout⟩, Function.update_self .., rfl⟩
    all_goals rfl

theorem charge_eq (hc : charge s now = some s') : ∃ id, s.runningThread = some id ∧
    s' = { s with
      timeOnCpu := Function.update s.timeOnCpu id
        (s.timeOnCpu id + elapsedMs s.scheduleTimestamp now)
      interruptDisabled := false } := by
  obtain ⟨id, hid, hc⟩ := Option.bind_eq_some_iff.1 hc
  obtain ⟨t, -, hc⟩ := Option.bind_eq_some_iff.1 hc
  exact ⟨id, hid, (Option.some.inj hc).symm⟩

theorem Busy.charge (hb : Busy s l a id) (hc : charge s now = some s') :
    Busy s' l a id ∧ s'.tcbs = s.tcbs := by
  obtain ⟨i, -, rfl⟩ := charge_eq hc
  exact ⟨⟨hb.toFlat.congr rfl rfl rfl le_rfl, hb.thread, hb.node, hb.unlinked, hb.out⟩, rfl⟩

/-- A switch away from a thread that runs on or exits. -/
theorem Busy.workerYield (hb : Busy s l a id) (ht : s.tcbs id = some t)
    (hst : t.status = .running ∨ t.status = .finished)
    (hy : workerYield μ fuel s now stamp = some (.ok s' ret)) : Levelled s' := by
  obtain ⟨s₁, hcharge, hy⟩ := Option.bind_eq_some_iff.1 hy
  obtain ⟨s₂, hretire, hy⟩ := Option.bind_eq_some_iff.1 hy
  obtain ⟨s₃, hboost, hdispatch⟩ := Option.bind_eq_some_iff.1 hy
  obtain ⟨hb₁, htcbs⟩ := hb.charge hcharge
  rw [← htcbs] at ht
  have hflat : ∃ l, Flat s₂ l := by
    rcases hst with hrun | hfin
    · obtain ⟨u, hu, hflat, -⟩ := hb₁.retire_running ht hrun fuel
      obtain rfl : u = s₂ := Option.some.inj (hu.symm.trans hretire)
      exact ⟨_, hflat⟩
    · exact ⟨_, hb₁.retire_finished ht hfin hretire⟩
  obtain ⟨l', hflat⟩ := hflat
  exact (hflat.boost hboost).dispatch hdispatch

/-- With a thread in the queue 0, a thread gets the processor. -/
theorem Flat.dispatch_runs (hf : Flat s (a :: l)) (μ : Malloc Node) (stamp : Timeval) :
    ∃ s', Mlfq.dispatch μ s stamp = some (.ok s' none) := by
  obtain ⟨h, q, n, hpop, -, hn, hcut, -⟩ := popFromQueue_spec hf.bottom
  obtain ⟨id, t, hid, ht, hst⟩ := hf.ready a List.mem_cons_self
  obtain rfl : n.tcb = id := by simpa [tcbOf, hn] using hid
  have hblock : t.status ≠ .blocked := by simp [hst]
  simp [Mlfq.dispatch, hf.getNext_cons, popLevel, hpop, hcut, ht, hblock]

theorem Flat.boost_runs (hf : Flat s l) : ∃ s', Mlfq.boost 1 s = some s' := by
  have hempty : ∀ i, 0 < i → boostLevel 1 1 s i = some s := fun i hi => by
    have hpop := popFromQueue_nil (h := s.nodes) (q := s.mlfqQueue i) (by rw [hf.above i hi]; rfl)
    simp [boostLevel, popLevel, hpop]
  have hall : boostPriority 1 s = some s := by
    simp [boostPriority, mlfqLevels, List.range'_succ, hempty]
  unfold Mlfq.boost
  rw [hall]
  split_ifs
  · exact ⟨_, rfl⟩
  · exact ⟨_, rfl⟩

/-- **A switch away from a running thread ends**, with a thread on the processor. -/
theorem Busy.yield_runs (hb : Busy s l a id) (ht : s.tcbs id = some t) (hst : t.status = .running)
    (μ : Malloc Node) (now stamp : Timeval) :
    ∃ s', Mlfq.workerYield μ 1 s now stamp = some (.ok s' none) := by
  obtain ⟨s₁, hcharge⟩ : ∃ s₁, Mlfq.charge s now = some s₁ := by simp [Mlfq.charge, hb.thread, ht]
  obtain ⟨hb₁, htcbs⟩ := hb.charge hcharge
  obtain ⟨s₂, hretire, hflat, -⟩ := hb₁.retire_running (htcbs ▸ ht) hst 1
  obtain ⟨s₃, hboost⟩ := hflat.boost_runs
  obtain ⟨c, l', hcons⟩ := List.exists_cons_of_ne_nil (List.append_ne_nil_of_right_ne_nil l
    (List.cons_ne_nil a []))
  have hflat₃ := hflat.boost hboost
  rw [hcons] at hflat₃
  obtain ⟨s', hdispatch⟩ := hflat₃.dispatch_runs μ stamp
  exact ⟨s', by simp [Mlfq.workerYield, schedMlfq, hcharge, hretire, hboost, hdispatch]⟩

/-! ## Creation -/

/-- A new node is in no queue. -/
theorem Flat.alloc (hf : Flat s l) (hb : s.nodes b = none) (n : Node) :
    Flat { s with nodes := Function.update s.nodes b (some n) } l ∧ b ∉ l ∧
      l.map (tcbOf (Function.update s.nodes b (some n))) = l.map (tcbOf s.nodes) := by
  have hbl : b ∉ l := fun hmem => by
    obtain ⟨id, t, hid, -⟩ := hf.ready b hmem
    simp [tcbOf, hb] at hid
  have hsame : ∀ c ∈ l, tcbOf (Function.update s.nodes b (some n)) c = tcbOf s.nodes c :=
    fun c hc => by rw [tcbOf, Function.update_of_ne (ne_of_mem_of_not_mem hc hbl), tcbOf]
  have hmap := List.map_congr_left hsame
  refine ⟨⟨⟨hf.bottom.chain.update_of_notMem hbl _, hf.bottom.tail⟩, hf.above, fun c hc => ?_, ?_,
    hf.fresh⟩, hbl, hmap⟩
  · obtain ⟨id, t, hid, ht⟩ := hf.ready c hc
    exact ⟨id, t, (hsame c hc).trans hid, ht⟩
  · change (l.map (tcbOf (Function.update s.nodes b (some n)))).Nodup
    rw [hmap]
    exact hf.ids

/-- The id of the next thread is not in use. -/
theorem Flat.count_out (hf : Flat s l) : some s.threadCount ∉ l.map (tcbOf s.nodes) := by
  intro hmem
  obtain ⟨b, hb, hid⟩ := List.mem_map.1 hmem
  obtain ⟨i, t, hi, ht, -⟩ := hf.ready b hb
  obtain rfl : s.threadCount = i := Option.some.inj (hid.symm.trans hi)
  exact absurd (hf.fresh _ t ht).2.2 (lt_irrefl _)

/-- A control block for the next thread. -/
theorem Flat.newThread (hf : Flat s l) (status : Status) (first : Bool) :
    Flat { s with
      tcbs := Function.update s.tcbs s.threadCount (some (.new status first))
      threadCount := s.threadCount + 1 } l := by
  have hcount : Flat { s with threadCount := s.threadCount + 1 } l :=
    hf.congr rfl rfl rfl (Nat.le_succ _)
  exact hcount.update hf.count_out _ fun t ht =>
    Option.some.inj ht ▸ ⟨rfl, rfl, Nat.lt_succ_self _⟩

/-- The main thread starts on the processor. -/
theorem Flat.createMain (hf : Flat s []) (hm : createMain μ s stamp = some s') :
    ∃ a id t, Busy s' [] a id ∧ s'.tcbs id = some t ∧ t.status = .running := by
  obtain ⟨w, hw, hm⟩ := Option.bind_eq_some_iff.1 hm
  obtain ⟨⟨w₁, a⟩, hnode, hw⟩ := Option.bind_eq_some_iff.1 hw
  obtain ⟨-, rfl⟩ := createNode_eq hnode
  cases hw
  cases hm
  exact ⟨a, s.threadCount, .new .running false, ⟨⟨⟨hf.bottom.head, hf.bottom.tail⟩, hf.above,
    by simp, List.nodup_nil, (hf.newThread .running false).fresh⟩, rfl, rfl,
    Function.update_self .., by simp⟩, Function.update_self .., rfl⟩

/-- A new thread starts at the end of the queue 0. -/
theorem Busy.createThread (hb : Busy s l a id) (ht : s.tcbs id = some t)
    (hc : createThread μ fuel s = some (.ok s' ret)) :
    ∃ b, Busy s' (l ++ [b]) a id ∧ s'.tcbs id = some t := by
  obtain ⟨⟨w, b⟩, hnode, hc⟩ := Option.bind_eq_some_iff.1 hc
  obtain ⟨s₂, henq, hret⟩ := Option.bind_eq_some_iff.1 hc
  obtain ⟨hfree, rfl⟩ := createNode_eq hnode
  have hne : id ≠ s.threadCount := (hb.fresh id t ht).2.2.ne
  have hba : a ≠ b := fun heq => by
    have hnone : s.nodes a = none := heq ▸ hfree
    simp [hb.unlinked] at hnone
  obtain ⟨hf, hbl, hmap⟩ := (hb.newThread .ready true).alloc (b := b) hfree ⟨s.threadCount, none⟩
  have hf' : Flat { s with
      tcbs := Function.update s.tcbs s.threadCount (some (.new .ready true))
      threadCount := s.threadCount + 1
      activeThreads := s.activeThreads + 1
      timeOnCpu := Function.update s.timeOnCpu s.threadCount 0
      nodes := Function.update s.nodes b (some ⟨s.threadCount, none⟩)
      mallocs := s.mallocs + 1 } l := hf.congr rfl rfl rfl le_rfl
  obtain ⟨h, q, henq', hflat, hpoints, hsame⟩ := enqueueLevel_flat hf' fuel
    (Function.update_self ..) (hmap ▸ hb.count_out) (Function.update_self ..) rfl
  obtain rfl := Option.some.inj (henq.symm.trans henq')
  cases hret
  have hout : some id ∉ (l ++ [b]).map (tcbOf h) := by
    rw [hpoints, List.map_append, List.mem_append, not_or]
    refine ⟨fun hmem => hb.out (hmap ▸ hmem), ?_⟩
    simp [tcbOf, hne]
  have hal : a ∉ l := fun hmem => hb.out
    (List.mem_map.2 ⟨a, hmem, by simp [tcbOf, hb.unlinked]⟩)
  refine ⟨b, ⟨hflat, hb.thread, hb.node, ?_, hout⟩, (Function.update_of_ne hne _ _).trans ht⟩
  exact (hsame a hal).trans ((Function.update_of_ne hba _ _).trans hb.unlinked)

/-- `worker_create`, with the main thread before it if this is the first call. -/
theorem Levelled.workerCreate (hl : Levelled s)
    (hc : workerCreate μ fuel s stamp = some (.ok s' ret)) : Levelled s' := by
  obtain ⟨s₁, hmain, hc⟩ := Option.bind_eq_some_iff.1 hc
  unfold ensureMain at hmain
  have hbusy : ∃ l a id t, Busy s₁ l a id ∧ s₁.tcbs id = some t ∧ t.status = .running := by
    rcases hl with ⟨hzero, -, hf⟩ | hb
    · rw [if_pos hzero] at hmain
      exact ⟨[], hf.createMain hmain⟩
    · obtain ⟨l, a, id, t, hb, ht, hst⟩ := hb
      have hpos : s.threadCount ≠ 0 := Nat.ne_zero_of_lt (hb.fresh id t ht).2.2
      rw [if_neg hpos] at hmain
      obtain rfl := Option.some.inj hmain
      exact ⟨l, a, id, t, hb, ht, hst⟩
  obtain ⟨l, a, id, t, hb, ht, hst⟩ := hbusy
  obtain ⟨b, hb', ht'⟩ := hb.createThread ht hc
  exact .inr ⟨_, a, id, t, hb', ht', hst⟩

/-- `worker_exit`: the thread that exits is not queued again. -/
theorem Busy.workerExit {valuePtr : ℕ} (hb : Busy s l a id) (ht : s.tcbs id = some t)
    (he : workerExit μ fuel s valuePtr now stamp = some (.ok s' ret)) : Levelled s' := by
  obtain ⟨hp, hw, hlt⟩ := hb.fresh id t ht
  simp only [Mlfq.workerExit, hb.thread, ht, Option.bind_eq_bind, Option.bind_some] at he
  by_cases hrun : t.status ≠ .running
  · rw [if_pos hrun] at he
    cases he
  rw [if_neg hrun] at he
  by_cases hbig : valuePtr ≠ 0 ∧ numReturnValues ≤ id
  · rw [if_pos hbig] at he
    cases he
  rw [if_neg hbig] at he
  have hflat := hb.toFlat.update hb.out (some { t with status := .finished })
    fun u hu => Option.some.inj hu ▸ ⟨hp, hw, hlt⟩
  have hb' : Busy { s.setTcb id { t with status := .finished } with
      returnValues := if valuePtr = 0 then s.returnValues
        else Function.update s.returnValues id valuePtr
      interruptDisabled := true } l a id :=
    ⟨hflat.congr rfl rfl rfl le_rfl, hb.thread, hb.node, hb.unlinked, hb.out⟩
  exact hb'.workerYield (Function.update_self ..) (.inr rfl) he

/-! ## Runs -/

theorem Levelled.yield_runs (hl : Levelled s) (μ : Malloc Node) (now stamp : Timeval)
    (hcpu : OnCpu s a id t) :
    ∃ s', exec μ 1 s ⟨.yield, now, stamp⟩ = some (.ok s' none) := by
  rcases hl with ⟨-, hnone, -⟩ | ⟨l, b, i, u, hb, ht, hst⟩
  · exact nomatch hnone.symm.trans hcpu.thread
  · exact Busy.yield_runs (s := { s with interruptDisabled := true })
      ⟨hb.toFlat.congr rfl rfl rfl le_rfl, hb.thread, hb.node, hb.unlinked, hb.out⟩ ht hst μ now
      stamp

/-- What every step keeps. -/
theorem levelled_exec {e : Label} (hl : Levelled s) (he : exec μ fuel s e = some (.ok s' ret)) :
    Levelled s' := by
  unfold exec at he
  cases hcall : e.call with
  | create =>
    rw [hcall] at he
    exact hl.workerCreate he
  | yield =>
    rw [hcall] at he
    rcases hl with ⟨-, hnone, -⟩ | ⟨l, a, id, t, hb, ht, hst⟩
    · simp [workerYield, charge, hnone] at he
    · exact Busy.workerYield (s := { s with interruptDisabled := true })
        ⟨hb.toFlat.congr rfl rfl rfl le_rfl, hb.thread, hb.node, hb.unlinked, hb.out⟩ ht
        (.inl hst) he
  | exit valuePtr =>
    rw [hcall] at he
    rcases hl with ⟨-, hnone, -⟩ | ⟨l, a, id, t, hb, ht, -⟩
    · simp [workerExit, hnone] at he
    · exact hb.workerExit ht he
  | preempt =>
    rw [hcall] at he
    by_cases hint : s.interruptDisabled = true
    · simp only [interruptHandler, hint, if_true] at he
      cases he
      exact hl
    · simp only [interruptHandler, hint] at he
      rcases hl with ⟨-, hnone, -⟩ | ⟨l, a, id, t, hb, ht, hst⟩
      · simp [workerYield, charge, hnone] at he
      · exact hb.workerYield ht (.inl hst) he

/-- **All threads stay in the queue 0**, in every state reached. -/
theorem levelled_run {es : List Label} (hrun : Run (Step μ) .start es s) : Levelled s :=
  hrun.invariant (.inl ⟨rfl, rfl, flat_start⟩) fun _ _ _ hl ⟨_, _, he⟩ => levelled_exec hl he

/-! ## The time on the CPU -/

theorem OnCpu.unique {a' id' : ℕ} {t' : Tcb} (hc : OnCpu s a id t) (hc' : OnCpu s a' id' t') :
    a' = a ∧ id' = id ∧ t' = t := by
  obtain rfl := Option.some.inj (hc'.thread.symm.trans hc.thread)
  exact ⟨Option.some.inj (hc'.node.symm.trans hc.node), rfl,
    Option.some.inj (hc'.tcb.symm.trans hc.tcb)⟩

/-- **A switch follows the time on the CPU** exactly if the thread that leaves need not sink. -/
theorem Levelled.follows_iff (hl : Levelled s) (e : Label) :
    PrioritiesFollow s e ↔ BelowQuantum s e := by
  rcases hl with ⟨-, hnone, -⟩ | ⟨l, a, id, t, hb, ht, hst⟩
  · -- Nobody has the processor.
    refine ⟨fun _ _ a id t hcpu => ?_, fun _ _ s₁ a id t hcharge => ?_⟩
    · exact nomatch hnone.symm.trans hcpu.thread
    · obtain ⟨i, hi, -⟩ := charge_eq hcharge
      exact nomatch hnone.symm.trans hi
  have hcpu : OnCpu s a id t := ⟨hb.thread, hb.node, ht, hst⟩
  have hp : t.priority = 0 := (hb.fresh id t ht).1
  obtain ⟨s₁, hcharge⟩ : ∃ s₁, charge s e.now = some s₁ := by simp [charge, hb.thread, ht]
  obtain ⟨hb₁, htcbs⟩ := hb.charge hcharge
  have ht₁ : s₁.tcbs id = some t := by rw [htcbs, ht]
  have hcpu₁ : OnCpu s₁ a id t := ⟨hb₁.thread, hb₁.node, ht₁, hst⟩
  have htime : s₁.timeOnCpu id = s.timeOnCpu id + elapsedMs s.scheduleTimestamp e.now := by
    obtain ⟨i, hi, rfl⟩ := charge_eq hcharge
    obtain rfl := Option.some.inj (hb.thread.symm.trans hi)
    exact Function.update_self ..
  constructor
  · -- A thread that has used up its quantum is kept in the queue 0 all the same.
    intro hfollow hleaves a' id' t' hcpu' hlow
    obtain ⟨rfl, rfl, rfl⟩ := hcpu.unique hcpu'
    obtain ⟨fuel, s₂, hretire, hfol⟩ := hfollow hleaves s₁ a' id' t' hcharge hcpu₁
    obtain ⟨u, hu, -, hqueued⟩ := hb₁.retire_running ht₁ hst fuel
    obtain rfl : u = s₂ := Option.some.inj (hu.symm.trans hretire)
    rw [← htime]
    by_contra hover
    obtain ⟨hsunk, -⟩ := hfol.sinks hlow (not_lt.1 hover)
    obtain ⟨t₁, ht₁, hp₁⟩ := hsunk.priority
    obtain ⟨t₂, ht₂, hp₂⟩ := hqueued.priority
    obtain rfl : t₁ = t₂ := Option.some.inj (ht₁.symm.trans ht₂)
    rw [hp₁] at hp₂
    exact nomatch hp₂
  · intro hbelow hleaves s₁' a' id' t' hcharge' hcpu'
    obtain rfl : s₁ = s₁' := Option.some.inj (hcharge.symm.trans hcharge')
    obtain ⟨rfl, rfl, rfl⟩ := hcpu₁.unique hcpu'
    obtain ⟨s₂, hretire, -, hqueued⟩ := hb₁.retire_running ht₁ hst 0
    refine ⟨0, s₂, hretire, ⟨fun hlow hover => ?_, fun _ => hp ▸ hqueued⟩⟩
    rw [htime] at hover
    exact absurd (hbelow hleaves a' id' t' hcpu hlow) (not_lt.2 hover)

/-! ## Priorities follow CPU use -/

/-- **Priorities and the CPU.** In every state reached a queued thread is in the queue of its
priority, and a switch away from a running thread queues it as its time on the CPU says exactly if
that time is below the quantum of its level. -/
theorem priorities_follow_iff {es : List Label} (hrun : Run (Step μ) .start es s) :
    Placed s ∧ ∀ e, PrioritiesFollow s e ↔ BelowQuantum s e :=
  ⟨(levelled_run hrun).placed, (levelled_run hrun).follows_iff⟩

/-- The state in which the main thread has created a thread. -/
def created : State :=
  match exec (Malloc.bump Node) 0 .start ⟨.create, ⟨0, 0⟩, ⟨0, 0⟩⟩ with
  | some (.ok s _) => s
  | _ => .start

theorem created_run :
    Run (Step (Malloc.bump Node)) .start [⟨.create, ⟨0, 0⟩, ⟨0, 0⟩⟩] created :=
  .single ⟨0, code 1, rfl⟩

/-- The main thread has created a thread. -/
theorem priorities_follow_iff_created : Placed created ∧
    ∀ e, PrioritiesFollow created e ↔ BelowQuantum created e :=
  priorities_follow_iff created_run

/-- The main thread creates a thread and yields after 25 milliseconds. -/
theorem yield_keeps_priority : ¬∀ es s e s', Run (Step (Malloc.bump Node)) .start es s →
    Step (Malloc.bump Node) s e s' → Placed s ∧ PrioritiesFollow s e := by
  intro hall
  have hlevel := levelled_run created_run
  have hcpu : OnCpu created 1 0 (.new .running false) := ⟨rfl, rfl, rfl, rfl⟩
  obtain ⟨s', hyield⟩ := hlevel.yield_runs (Malloc.bump Node) ⟨0, 25000⟩ ⟨0, 25000⟩ hcpu
  have hfollow := (hall _ _ ⟨.yield, ⟨0, 25000⟩, ⟨0, 25000⟩⟩ s' created_run ⟨1, none, hyield⟩).2
  have hbelow := (hlevel.follows_iff _).1 hfollow (.inl rfl) _ _ _ hcpu (by decide)
  have htime : created.timeOnCpu 0 = 0 := rfl
  have hstamp : created.scheduleTimestamp = ⟨0, 0⟩ := rfl
  rw [htime, hstamp] at hbelow
  norm_num [elapsedMs, timeSlice, Tcb.new] at hbelow

end UserOS.Worker.Mlfq
