import UserOS.Worker.Preemption
import UserOS.Worker.Threads

/-!
# Wake-ups

A thread that finds the mutex locked is put into two queues with its one node, in statements that
the timer may separate from the test and from each other. Between the two enqueues the links are
those of one queue that is ahead of the other.

* `Awake`: the invariant. While threads wait, the mutex is locked or a thread that gave it up has
  yet to release them.
* `no_lost_wakeup`: in a run of steps that meet `WakeSafe`, nobody sleeps on a free mutex.
-/

namespace UserOS.Worker

open Lib

/-- The thread is in the wait queue and not yet in the waiting queue. -/
def Pc.linking : Pc → Bool
  | .lockStatus | .lockFor | .lockFrom | .lockFlag | .lockWaiting => true
  | _ => false

/-- The thread gave the mutex up and has yet to walk over the wait queue. -/
def Pc.waking : Pc → Bool
  | .unlockOwner | .unlockHead | .unlockThreads => true
  | _ => false

/-- The mutex is locked, or a thread that gave it up has yet to walk over the wait queue. -/
def Pending (mutex : ℕ) (f : Threaded) : Prop :=
  (∃ o, words f.mem mutex = some (true, o)) ∨ ∃ i, (f.pc i).waking = true

/-- The condition on the state before a step: the timer does not interrupt a thread that is in one
queue of the two; some thread is ready when a blocked one gives way; a thread goes into the wait
queue while `Pending`, and not behind threads that were released; no more than one thread waits when
the queue is walked over, and none when it is emptied. -/
def WakeSafe (mutex : ℕ) (f : Threaded) : Move → Prop
  | .switch => ∀ id, f.mem.runningThread = some id → (f.pc id).linking = false ∧
      (Blocked f.mem id → f.mem.readyQueue.head ≠ none)
  | .yield id => Blocked f.mem id → f.mem.readyQueue.head ≠ none
  | .statement id _ =>
    match f.pc id with
    | .lockQueue => Pending mutex f ∧ ∀ m q, f.mem.mutexes mutex = some m → m.waitQueue = some q →
        f.mem.waitingQueue.head = none → q.head = none
    | .unlockThreads => f.mem.waitingQueue.head = f.mem.waitingQueue.tail
    | .unlockEmpty => f.mem.waitingQueue.head = none
    | _ => True
  | _ => True

variable {μ : Malloc Node} {s s' : State} {X R W : List ℕ} {a b id mutex fuel : ℕ} {t : Tcb}
  {f g : Threaded} {e : Move} {es : List Move} {pc' : Pc} {ret : Option ℤ} {mem : State}
  {h : Nodes}

/-! ## The invariant -/

/-- The threads of `W` wait for the mutex. -/
structure Waiting (mutex : ℕ) (f : Threaded) (W : List ℕ) : Prop where
  queue : W ≠ [] →
    ∃ m, f.mem.mutexes mutex = some m ∧ m.waitQueue = some ⟨W.head?, W.getLast?⟩
  pending : W ≠ [] → Pending mutex f
  parked : ∀ b ∈ W, ∀ i, tcbOf f.mem.nodes b = some i → f.pc i = .lockTest ∨ f.pc i = .lockYield

/-- Thread `id` is in the wait queue and not yet in the waiting queue. `h` has the nodes as if it
were in none. -/
structure Linking (mutex : ℕ) (f : Threaded) (a id : ℕ) (R W : List ℕ) (h : Nodes) : Prop where
  queues : Queues { f.mem with nodes := h } [a] R W
  node : f.mem.runningNode = some a
  thread : f.mem.runningThread = some id
  points : tcbOf h a = some id
  blocked : f.pc id ≠ .lockStatus → Blocked f.mem id
  self : (f.pc id).linking = true
  others : ∀ i, i ≠ id → (f.pc i).linking = false
  pending : Pending mutex f
  both : ∀ fuel, enqueue fuel f.mem.nodes f.mem.waitingQueue a =
    enqueue fuel h f.mem.waitingQueue a
  queue : ∃ m, f.mem.mutexes mutex = some m ∧ m.waitQueue = some ⟨(W ++ [a]).head?, some a⟩
  parked : ∀ b ∈ W, ∀ i, tcbOf h b = some i → f.pc i = .lockTest ∨ f.pc i = .lockYield

/-- **The invariant.** No thread exists; one runs; one runs that is in both queues; or one is
between them. -/
inductive Awake (mutex : ℕ) (f : Threaded) : Prop
  | fresh : Queues f.mem [] [] [] → f.mem.runningThread = none → f.mem.threadCount = 0 →
      (∀ i, f.pc i = .idle) → Awake mutex f
  | running {a id : ℕ} {R W : List ℕ} : Scheduled f.mem a id R W → Waiting mutex f W →
      (∀ i, (f.pc i).linking = false) → Awake mutex f
  | parked {a id : ℕ} {R W : List ℕ} : Queues f.mem [] R W → f.mem.runningNode = some a →
      f.mem.runningThread = some id → tcbOf f.mem.nodes a = some id → a ∈ W →
      f.pc id = .lockYield → Waiting mutex f W → (∀ i, (f.pc i).linking = false) → Awake mutex f
  | linking {a id : ℕ} {R W : List ℕ} {h : Nodes} : Linking mutex f a id R W h → Awake mutex f

/-- The node of a blocked thread. -/
theorem Queues.blocked_cases (hq : Queues s X R W) (hb : Blocked s id) :
    (∃ b ∈ X, tcbOf s.nodes b = some id) ∨ ∃ b ∈ W, tcbOf s.nodes b = some id := by
  obtain ⟨t, ht, hst⟩ := hb
  obtain ⟨b, hmem, hid⟩ := (hq.people.live id).1 (by simp [State.live, ht])
  rcases List.mem_append.1 hmem with hX | hmem
  · exact .inl ⟨b, hX, hid⟩
  rcases List.mem_append.1 hmem with hR | hW
  · have hready := hq.isReady b hR
    rw [statusAt_eq hid ht, hst] at hready
    cases hready
  · exact .inr ⟨b, hW, hid⟩

theorem waking_of_parked {pc : Pc} (h : pc = .lockTest ∨ pc = .lockYield) : pc.waking = false := by
  rcases h with rfl | rfl <;> rfl

theorem waking_of_linking {pc : Pc} (h : pc.linking = true) : pc.waking = false := by
  cases pc <;> first | rfl | cases h

/-- Nobody sleeps on a free mutex while no call is in progress but those of blocked threads. -/
theorem Awake.no_sleeper (ha : Awake mutex f) {o : ℤ} (hfree : words f.mem mutex = some (false, o))
    (hquiet : ∀ i, f.pc i = .idle ∨ Blocked f.mem i) : ¬Blocked f.mem id := by
  have hwaker : Pending mutex f → ∃ i, (f.pc i).waking = true ∧ Blocked f.mem i := by
    rintro (⟨o', hlocked⟩ | ⟨i, hi⟩)
    · rw [hfree] at hlocked
      cases hlocked
    · refine ⟨i, hi, (hquiet i).resolve_left fun hidle => ?_⟩
      rw [hidle] at hi
      cases hi
  intro hb
  have hwaits : ∀ W, (∀ i, Blocked f.mem i → ∃ b ∈ W, tcbOf f.mem.nodes b = some i) →
      ¬Waiting mutex f W := by
    intro W hin hw
    obtain ⟨b, hbW, -⟩ := hin id hb
    obtain ⟨i, hi, hbi⟩ := hwaker (hw.pending (List.ne_nil_of_mem hbW))
    obtain ⟨c, hcW, hc⟩ := hin i hbi
    rw [waking_of_parked (hw.parked c hcW i hc)] at hi
    cases hi
  cases ha with
  | fresh hq _ _ _ => rcases hq.blocked_cases hb with ⟨b, hb, -⟩ | ⟨b, hb, -⟩ <;> cases hb
  | @running a _ R W hs hw _ =>
    refine hwaits W (fun i hbi => (hs.queues.blocked_cases hbi).resolve_left ?_) hw
    rintro ⟨c, hc, hid⟩
    obtain ⟨t, ht, hst⟩ := hbi
    rw [List.mem_singleton.1 hc] at hid
    have hrun := hs.status
    rw [statusAt_eq hid ht, hst] at hrun
    cases hrun
  | @parked a _ R W hq _ _ _ _ _ hw _ =>
    refine hwaits W (fun i hbi => (hq.blocked_cases hbi).resolve_left ?_) hw
    rintro ⟨c, hc, -⟩
    cases hc
  | @linking a j R W h hl =>
    obtain ⟨i, hi, hbi⟩ := hwaker hl.pending
    rcases hl.queues.blocked_cases hbi with ⟨c, hc, hid⟩ | ⟨c, hc, hid⟩
    · rw [List.mem_singleton.1 hc] at hid
      obtain rfl := Option.some.inj (hl.points.symm.trans hid)
      rw [waking_of_linking hl.self] at hi
      cases hi
    · rw [waking_of_parked (hl.parked c hc i hid)] at hi
      cases hi

/-! ## Steps -/

/-- A thread that does not wait goes on. -/
theorem Waiting.next (hw : Waiting mutex f W) (hself : ∀ b ∈ W, tcbOf f.mem.nodes b ≠ some id)
    (hids : ∀ b ∈ W, tcbOf g.mem.nodes b = tcbOf f.mem.nodes b)
    (hpc : g.pc = Function.update f.pc id pc')
    (hqueue : ∀ m q, f.mem.mutexes mutex = some m → m.waitQueue = some q →
      ∃ m', g.mem.mutexes mutex = some m' ∧ m'.waitQueue = some q)
    (hpend : W ≠ [] → Pending mutex f → Pending mutex g) : Waiting mutex g W where
  queue hne := by
    obtain ⟨m, hm, hq⟩ := hw.queue hne
    exact hqueue m _ hm hq
  pending hne := hpend hne (hw.pending hne)
  parked b hb i hi := by
    rw [hids b hb] at hi
    have hii : i ≠ id := fun heq => hself b hb (heq ▸ hi)
    rw [hpc, Function.update_of_ne hii]
    exact hw.parked b hb i hi

/-- The scheduler leaves the waiting threads alone. -/
theorem Waiting.congr (hw : Waiting mutex f W)
    (hids : ∀ b ∈ W, tcbOf g.mem.nodes b = tcbOf f.mem.nodes b) (hpc : g.pc = f.pc)
    (hm : g.mem.mutexes = f.mem.mutexes) : Waiting mutex g W where
  queue hne := by
    rw [hm]
    exact hw.queue hne
  pending hne := by
    rcases hw.pending hne with ⟨o, ho⟩ | hex
    · exact .inl ⟨o, by rw [words_congr hm, ho]⟩
    · exact .inr (by rw [hpc]; exact hex)
  parked b hb i hi := by
    rw [hids b hb] at hi
    rw [hpc]
    exact hw.parked b hb i hi

theorem Scheduled.not_waiting (hs : Scheduled s a id R W) : ∀ b ∈ W, tcbOf s.nodes b ≠ some id := by
  intro b hb heq
  obtain rfl := hs.queues.node_unique hs.points heq
  exact (hs.queues.apart.1 a List.mem_cons_self).2 hb

/-- After a statement the threads that wait still have someone to release them. -/
theorem pending_statement
    (hs : statement fuel mutex f.mem id (f.pc id) = some (mem, pc', ret)) (hp : Pending mutex f)
    (hhead : f.pc id = .unlockHead → pc' ≠ .idle) (hwalk : f.pc id ≠ .unlockThreads)
    (hmem : g.mem = mem) (hpc : g.pc = Function.update f.pc id pc') : Pending mutex g := by
  have hflow := statement_flow hs
  have hself : g.pc id = pc' := by rw [hpc, Function.update_self]
  rcases hp with ⟨o, ho⟩ | ⟨i, hi⟩
  · obtain ⟨⟨b', o'⟩, hw, hm⟩ := statement_moves hs ho
    cases b' with
    | true => exact .inl ⟨o', hmem ▸ hw⟩
    | false =>
      refine .inr ⟨id, ?_⟩
      rw [hself]
      generalize f.pc id = pc at hm
      cases hm with
      | clear => rfl
  · refine .inr ?_
    by_cases hii : i = id
    · subst hii
      refine ⟨i, ?_⟩
      rw [hself]
      cases hpci : f.pc i with
      | unlockOwner | unlockHead =>
        rw [hpci] at hflow
        simp only [Pc.flow, List.mem_cons, Prod.mk.injEq, List.not_mem_nil, or_false] at hflow
        grind [Pc.waking]
      | unlockThreads => exact absurd hpci hwalk
      | _ =>
        rw [hpci] at hi
        cases hi
    · exact ⟨i, by rw [hpc, Function.update_of_ne hii, hi]⟩

/-- The statements that change at most the words of the mutex. -/
def Pc.quiet : Pc → Bool
  | .lockTest | .lockSame | .takeOwner | .takeLocked | .takeCheck | .unlockTest | .unlockSame
  | .unlockClear | .unlockOwner | .unlockHead => true
  | _ => false

theorem statement_quiet {pc : Pc} (hs : statement fuel mutex s id pc = some (s', pc', ret))
    (hpc : pc.quiet = true) : ∃ ms, s' = { s with mutexes := ms } ∧
      ∀ m q, s.mutexes mutex = some m → m.waitQueue = some q →
        ∃ m', ms mutex = some m' ∧ m'.waitQueue = some q := by
  have hset : ∀ m' : Mutex, (∀ m, s.mutexes mutex = some m → m'.waitQueue = m.waitQueue) →
      ∀ m q, s.mutexes mutex = some m → m.waitQueue = some q →
        ∃ m'', Function.update s.mutexes mutex (some m') mutex = some m'' ∧
          m''.waitQueue = some q := fun m' hm' m q hm hq =>
    ⟨m', Function.update_self .., (hm' m hm).trans hq⟩
  cases pc with
  | lockTest | takeOwner | takeLocked | unlockClear | unlockOwner =>
    obtain ⟨m, hm, hs⟩ := Option.bind_eq_some_iff.1 hs
    cases hs
    refine ⟨_, rfl, hset _ fun m' hm' => ?_⟩
    rw [Option.some.inj (hm.symm.trans hm')]
  | lockSame | takeCheck | unlockTest | unlockSame =>
    obtain ⟨m, hm, hs⟩ := Option.bind_eq_some_iff.1 hs
    split_ifs at hs <;> cases hs <;> exact ⟨_, rfl, fun m q hm hq => ⟨m, hm, hq⟩⟩
  | unlockHead =>
    obtain ⟨m, hm, hs⟩ := Option.bind_eq_some_iff.1 hs
    obtain ⟨q, -, hs⟩ := Option.bind_eq_some_iff.1 hs
    split_ifs at hs <;> cases hs <;> exact ⟨_, rfl, fun m q hm hq => ⟨m, hm, hq⟩⟩
  | _ => cases hpc

/-- No thread is between the queues after a statement other than the enqueue. -/
theorem linking_next {pc : Pc} (hflow : (pc', ret) ∈ pc.flow) (hpc : pc.linking = false)
    (hne : pc ≠ .lockQueue) : pc'.linking = false := by
  cases pc with
  | lockQueue => exact absurd rfl hne
  | lockStatus | lockFor | lockFrom | lockFlag | lockWaiting => cases hpc
  | idle | lockYield => cases hflow
  | _ =>
    simp only [Pc.flow, List.mem_cons, Prod.mk.injEq, List.not_mem_nil, or_false] at hflow
    grind [Pc.linking]

theorem linking_self {pc : ℕ → Pc} (hpc' : pc'.linking = true) :
    (Function.update pc id pc' id).linking = true := by
  rw [Function.update_self, hpc']

theorem linking_update {pc : ℕ → Pc} (hall : ∀ i, (pc i).linking = false)
    (hpc' : pc'.linking = false) (i : ℕ) : (Function.update pc id pc' i).linking = false := by
  by_cases hi : i = id
  · subst hi
    rw [Function.update_self, hpc']
  · rw [Function.update_of_ne hi, hall]

/-- What is empty when the wait queue has no head: no thread waits. -/
theorem Waiting.eq_nil (hw : Waiting mutex f W) {m : Mutex} {q : Queue}
    (hm : f.mem.mutexes mutex = some m) (hq : m.waitQueue = some q) (hhead : q.head = none) :
    W = [] := by
  by_contra hne
  obtain ⟨m', hm', hq'⟩ := hw.queue hne
  obtain rfl := Option.some.inj (hm.symm.trans hm')
  obtain rfl := Option.some.inj (hq.symm.trans hq')
  exact hne (List.head?_eq_none_iff.1 hhead)

variable {holds : ℕ → Bool}

/-- A statement that changes at most the words of the mutex. -/
theorem Awake.quiet (hs : Scheduled f.mem a id R W) (hw : Waiting mutex f W)
    (hlink : ∀ i, (f.pc i).linking = false)
    (hst : statement fuel mutex f.mem id (f.pc id) = some (mem, pc', ret))
    (hpc : (f.pc id).quiet = true) :
    Awake mutex ⟨mem, Function.update f.pc id pc', holds⟩ := by
  obtain ⟨ms, rfl, hqueue⟩ := statement_quiet hst hpc
  refine .running (hs.congr rfl rfl rfl rfl rfl rfl rfl)
    (hw.next hs.not_waiting (fun _ _ => rfl) rfl hqueue fun hne hp =>
      pending_statement hst hp (fun hhead hidle => ?_) (fun h => by rw [h] at hpc; cases hpc)
        rfl rfl)
    (linking_update hlink (linking_next (statement_flow hst) (hlink id) fun h => by
      rw [h] at hpc
      cases hpc))
  -- The unlock returns only if the wait queue is empty.
  rw [hhead, hidle] at hst
  obtain ⟨m, hm, hst⟩ := Option.bind_eq_some_iff.1 hst
  obtain ⟨q, hq, hst⟩ := Option.bind_eq_some_iff.1 hst
  split_ifs at hst with hnone
  · exact hne (hw.eq_nil hm hq hnone)
  · simp at hst

/-- The last statements of a lock that took the mutex. -/
theorem Awake.clean (hs : Scheduled f.mem a id R W) (hw : Waiting mutex f W)
    (hlink : ∀ i, (f.pc i).linking = false)
    (hst : statement fuel mutex f.mem id (f.pc id) = some (mem, pc', ret))
    (hpc : f.pc id = .takeFrom ∨ f.pc id = .takeFlag) :
    Awake mutex ⟨mem, Function.update f.pc id pc', holds⟩ := by
  have hmem : ∃ t t', f.mem.tcbs id = some t ∧ t'.status = t.status ∧
      mem = f.mem.setTcb id t' := by
    rcases hpc with hpc | hpc
    all_goals
      rw [hpc] at hst
      obtain ⟨t, ht, hst⟩ := Option.bind_eq_some_iff.1 hst
      cases hst
      refine ⟨t, _, ht, ?_, rfl⟩
      rfl
  obtain ⟨t, t', ht, hstatus, rfl⟩ := hmem
  have hs' : Scheduled (f.mem.setTcb id t') a id R W :=
    ⟨hs.queues.setTcb_of_status ht t' hstatus, hs.node, hs.thread, hs.points, by
      rw [statusAt_setTcb_of_status ht t' hstatus, hs.status]⟩
  have hne : ∀ pc'', f.pc id = pc'' → pc'' ≠ .takeFrom → pc'' ≠ .takeFlag → False := by
    rintro pc'' rfl h h'
    rcases hpc with hpc | hpc
    · exact h hpc
    · exact h' hpc
  refine .running hs' (hw.next hs.not_waiting (fun _ _ => rfl) rfl (fun m q hm hq => ⟨m, hm, hq⟩)
    fun _ hp => pending_statement hst hp (fun h => (hne _ h (by decide) (by decide)).elim)
      (fun h => hne _ h (by decide) (by decide)) rfl rfl)
    (linking_update hlink (linking_next (statement_flow hst) (hlink id) fun h =>
      hne _ h (by decide) (by decide)))

/-- The walk over the wait queue releases the thread that waits. -/
theorem Awake.walk (hs : Scheduled f.mem a id R W) (hw : Waiting mutex f W)
    (hlink : ∀ i, (f.pc i).linking = false)
    (hst : statement fuel mutex f.mem id .unlockThreads = some (mem, pc', ret))
    (hone : f.mem.waitingQueue.head = f.mem.waitingQueue.tail) :
    Awake mutex ⟨mem, Function.update f.pc id pc', holds⟩ := by
  obtain ⟨m, hm, hst⟩ := Option.bind_eq_some_iff.1 hst
  obtain ⟨q, hq, hst⟩ := Option.bind_eq_some_iff.1 hst
  obtain ⟨⟨s', ids⟩, hu, hst⟩ := Option.bind_eq_some_iff.1 hst
  cases hst
  have hreleased : Queues mem [a] (R ++ W) [] ∧ statusAt mem a = statusAt f.mem a := by
    rcases W with - | ⟨b, W⟩
    · obtain ⟨W₁, W₂, hnil, hq', hst'⟩ := unblockThreads_spec hu hs.queues (.inr hone)
      obtain ⟨rfl, rfl⟩ := List.append_eq_nil_iff.1 hnil.symm
      exact ⟨hq', hst'⟩
    · have hlast := hs.queues.waiting.tail
      rw [← hone, hs.queues.waiting.head] at hlast
      obtain rfl := eq_nil_of_getLast hs.queues.waiting.chain.nodup hlast.symm
      obtain ⟨m', hm', hq'⟩ := hw.queue (List.cons_ne_nil _ _)
      obtain rfl := Option.some.inj (hm.symm.trans hm')
      obtain rfl := Option.some.inj (hq.symm.trans hq')
      have hqueues : Queues f.mem [a] R ([] ++ [b]) := hs.queues
      obtain ⟨hq', hst', -⟩ := unblockLoop_waiting [b] hqueues rfl (.inr (by simp)) hu
      exact ⟨hq', hst' a List.mem_cons_self⟩
  obtain ⟨l, -, hrel⟩ := unblockLoop_releases hu
  have hpoints := hrel.points
  obtain ⟨h, r, w, u, rfl⟩ := hrel.rest
  refine .running (W := []) ⟨hreleased.1, hs.node, hs.thread, ?_, hreleased.2.trans hs.status⟩
    ⟨fun h => absurd rfl h, fun h => absurd rfl h, fun b hb => nomatch hb⟩
    (linking_update hlink rfl)
  exact (congrFun hpoints a).trans hs.points

/-- The wait queue is emptied when no thread waits. -/
theorem Awake.empty (hs : Scheduled f.mem a id R W) (hlink : ∀ i, (f.pc i).linking = false)
    (hst : statement fuel mutex f.mem id .unlockEmpty = some (mem, pc', ret))
    (hnone : f.mem.waitingQueue.head = none) :
    Awake mutex ⟨mem, Function.update f.pc id pc', holds⟩ := by
  obtain ⟨m, hm, hst⟩ := Option.bind_eq_some_iff.1 hst
  obtain ⟨q, hq, hst⟩ := Option.bind_eq_some_iff.1 hst
  cases hst
  obtain rfl := hs.queues.waiting.chain.eq_nil_iff.2 hnone
  exact .running (W := []) (hs.congr rfl rfl rfl rfl rfl rfl rfl)
    ⟨fun h => absurd rfl h, fun h => absurd rfl h, fun b hb => nomatch hb⟩
    (linking_update hlink rfl)

/-! ## Blocking -/

/-- An enqueue behind a known tail does not walk. -/
theorem enqueue_fuel {q : Queue} {fuel' : ℕ} (htail : q.tail ≠ none) :
    enqueue fuel h q a = enqueue fuel' h q a := by
  obtain ⟨t, ht⟩ := Option.ne_none_iff_exists'.1 htail
  simp only [enqueue, ht, Option.some_or]

/-- A thread goes into the wait queue. -/
theorem Awake.enqueue (hs : Scheduled f.mem a id R W) (hw : Waiting mutex f W)
    (hlink : ∀ i, (f.pc i).linking = false) (hpc : f.pc id = .lockQueue)
    (hst : statement fuel mutex f.mem id .lockQueue = some (mem, pc', ret))
    (hpend : Pending mutex f)
    (hempty : ∀ m q, f.mem.mutexes mutex = some m → m.waitQueue = some q →
      f.mem.waitingQueue.head = none → q.head = none) :
    Awake mutex ⟨mem, Function.update f.pc id pc', holds⟩ := by
  have hpend' : Pending mutex ⟨mem, Function.update f.pc id pc', holds⟩ :=
    pending_statement (hpc ▸ hst) hpend (fun h => by rw [hpc] at h; cases h)
      (by rw [hpc]; decide) rfl rfl
  obtain ⟨m, hm, hst⟩ := Option.bind_eq_some_iff.1 hst
  obtain ⟨q, hq, hst⟩ := Option.bind_eq_some_iff.1 hst
  obtain ⟨node, hnode, hst⟩ := Option.bind_eq_some_iff.1 hst
  obtain ⟨⟨h', q'⟩, henq, hmem⟩ := Option.bind_eq_some_iff.1 hst
  cases hmem
  obtain rfl := Option.some.inj (hs.node.symm.trans hnode)
  obtain ⟨rfl, hsame⟩ := enqueue_ends henq
  have hqueue : q.head ≠ none → q = f.mem.waitingQueue ∧ W ≠ [] := by
    intro hne
    have hW : W ≠ [] := fun hnil => hne (hempty m q hm hq (by
      rw [hs.queues.waiting.head, hnil]
      rfl))
    obtain ⟨m', hm', hq'⟩ := hw.queue hW
    obtain rfl := Option.some.inj (hm.symm.trans hm')
    exact ⟨(Option.some.inj (hq.symm.trans hq')).trans hs.queues.waiting.eq.symm, hW⟩
  refine .linking (h := f.mem.nodes) {
    queues := hs.queues.congr rfl rfl rfl rfl rfl
    node := hs.node
    thread := hs.thread
    points := hs.points
    blocked := fun h => absurd (Function.update_self ..) h
    self := linking_self rfl
    others := fun i hi => (congrArg Pc.linking (Function.update_of_ne hi _ _)).trans (hlink i)
    pending := hpend'
    both := fun fuel' => ?_
    queue := ⟨_, Function.update_self .., congrArg some (congrArg₂ Queue.mk ?_ rfl)⟩
    parked := fun b hb i hi => ?_ }
  · by_cases hhead : q.head = none
    · obtain rfl := hsame hhead
      rfl
    · obtain ⟨rfl, hW⟩ := hqueue hhead
      have htail : f.mem.waitingQueue.tail ≠ none := by
        rw [hs.queues.waiting.tail]
        exact fun h => hW (List.getLast?_eq_none_iff.1 h)
      exact enqueue_twice ⟨htail, rfl⟩ hhead hhead ((enqueue_fuel htail).trans henq)
  · by_cases hhead : q.head = none
    · rw [hhead, hw.eq_nil hm hq hhead]
      rfl
    · obtain ⟨rfl, hW⟩ := hqueue hhead
      obtain ⟨c, V, rfl⟩ := List.exists_cons_of_ne_nil hW
      rw [hs.queues.waiting.head]
      rfl
  · have hii : i ≠ id := fun heq => hs.not_waiting b hb (heq ▸ hi)
    change Function.update f.pc id _ i = _ ∨ Function.update f.pc id _ i = _
    rw [Function.update_of_ne hii]
    exact hw.parked b hb i hi

/-- The statements of a thread between the queues. -/
theorem linking_tcb {pc : Pc} (hst : statement fuel mutex s id pc = some (s', pc', ret))
    (hpc : pc.linking = true) (hb : pc ≠ .lockStatus → Blocked s id) (hne : pc ≠ .lockWaiting) :
    ∃ t, t.status = .blocked ∧ s' = s.setTcb id t ∧ pc'.linking = true := by
  have hblocked : ∀ t, s.tcbs id = some t → pc ≠ .lockStatus → t.status = .blocked := by
    intro t ht hne
    obtain ⟨t', ht', hst'⟩ := hb hne
    rw [Option.some.inj (ht.symm.trans ht'), hst']
  cases pc with
  | lockStatus =>
    obtain ⟨t, ht, hst⟩ := Option.bind_eq_some_iff.1 hst
    cases hst
    exact ⟨_, rfl, rfl, rfl⟩
  | lockFrom | lockFlag =>
    obtain ⟨t, ht, hst⟩ := Option.bind_eq_some_iff.1 hst
    cases hst
    refine ⟨_, ?_, rfl, rfl⟩
    exact hblocked t ht (by decide)
  | lockFor =>
    obtain ⟨m, -, hst⟩ := Option.bind_eq_some_iff.1 hst
    obtain ⟨t, ht, hst⟩ := Option.bind_eq_some_iff.1 hst
    cases hst
    refine ⟨_, ?_, rfl, rfl⟩
    exact hblocked t ht (by decide)
  | lockWaiting => exact absurd rfl hne
  | _ => cases hpc

/-- A thread between the queues becomes blocked. -/
theorem Linking.tcb (hl : Linking mutex f a id R W h)
    (hst : statement fuel mutex f.mem id (f.pc id) = some (mem, pc', ret))
    (hne : f.pc id ≠ .lockWaiting) :
    Linking mutex ⟨mem, Function.update f.pc id pc', holds⟩ a id R W h := by
  have hpend : Pending mutex ⟨mem, Function.update f.pc id pc', holds⟩ :=
    pending_statement hst hl.pending (fun hpc => by have h := hl.self; rw [hpc] at h; cases h)
      (fun hpc => by have h := hl.self; rw [hpc] at h; cases h) rfl rfl
  obtain ⟨t, ht, rfl, hpc'⟩ := linking_tcb hst hl.self hl.blocked hne
  exact {
    queues := (hl.queues.setTcb List.mem_cons_self hl.points t).congr rfl rfl rfl rfl rfl
    node := hl.node
    thread := hl.thread
    points := hl.points
    blocked := fun _ => ⟨t, Function.update_self .., ht⟩
    self := linking_self hpc'
    others := fun i hi =>
      (congrArg Pc.linking (Function.update_of_ne hi _ _)).trans (hl.others i hi)
    pending := hpend
    both := hl.both
    queue := hl.queue
    parked := fun b hb i hi => by
      have hii : i ≠ id := fun heq => by
        obtain rfl := hl.queues.node_unique (heq ▸ hi) hl.points
        exact (hl.queues.apart.1 b List.mem_cons_self).2 hb
      change Function.update f.pc id _ i = _ ∨ Function.update f.pc id _ i = _
      rw [Function.update_of_ne hii]
      exact hl.parked b hb i hi }

/-- A thread goes into the waiting queue. -/
theorem Awake.block (hl : Linking mutex f a id R W h) (hpc : f.pc id = .lockWaiting)
    (hst : statement fuel mutex f.mem id .lockWaiting = some (mem, pc', ret)) :
    Awake mutex ⟨mem, Function.update f.pc id pc', holds⟩ := by
  have hpend : Pending mutex ⟨mem, Function.update f.pc id pc', holds⟩ :=
    pending_statement (hpc ▸ hst) hl.pending (fun h => by rw [hpc] at h; cases h)
      (by rw [hpc]; decide) rfl rfl
  obtain ⟨node, hnode, hst⟩ := Option.bind_eq_some_iff.1 hst
  obtain ⟨s', henq, hmem⟩ := Option.bind_eq_some_iff.1 hst
  cases hmem
  obtain rfl := Option.some.inj (hl.node.symm.trans hnode)
  obtain ⟨⟨h₁, q₁⟩, henq₁, hs'⟩ := Option.bind_eq_some_iff.1 henq
  rw [hl.both] at henq₁
  obtain rfl := Option.some.inj hs'
  have henq' : enqueueWaiting fuel { f.mem with nodes := h } a =
      some { f.mem with nodes := h₁, waitingQueue := q₁ } := by
    unfold enqueueWaiting
    dsimp only
    rw [henq₁]
    rfl
  have hblocked : statusAt { f.mem with nodes := h } a = some .blocked := by
    obtain ⟨t, ht, hst⟩ := hl.blocked (by rw [hpc]; decide)
    rw [← hst]
    exact statusAt_eq hl.points ht
  have hq := hl.queues.enqueueWaiting hblocked henq'
  have hids : tcbOf h₁ = tcbOf h := (enqueueWaiting_moved henq').points
  refine .parked hq hl.node hl.thread ?_ (by simp) (Function.update_self ..)
    ⟨fun _ => ?_, fun _ => hpend, fun b hb i hi => ?_⟩ fun i => ?_
  · exact (congrFun hids a).trans hl.points
  · obtain ⟨m, hm, hmq⟩ := hl.queue
    exact ⟨m, hm, by rw [hmq, List.getLast?_concat]⟩
  · by_cases hii : i = id
    · exact .inr (hii ▸ Function.update_self ..)
    · have hbW : b ∈ W := (List.mem_append.1 hb).resolve_right fun hba => by
        have hi' := (congrFun hids b).symm.trans hi
        rw [List.mem_singleton.1 hba] at hi'
        exact hii (Option.some.inj (hi'.symm.trans hl.points))
      change Function.update f.pc id _ i = _ ∨ Function.update f.pc id _ i = _
      rw [Function.update_of_ne hii]
      exact hl.parked b hbW i ((congrFun hids b).symm.trans hi)
  · change (Function.update f.pc id .lockYield i).linking = false
    by_cases hii : i = id
    · rw [hii, Function.update_self]
      rfl
    · rw [Function.update_of_ne hii, hl.others i hii]

/-! ## Runs -/

/-- A statement of a thread that is in no queue. -/
theorem Awake.statement (hs : Scheduled f.mem a id R W) (hw : Waiting mutex f W)
    (hlink : ∀ i, (f.pc i).linking = false) (hsafe : WakeSafe mutex f (.statement id ret))
    (hst : statement fuel mutex f.mem id (f.pc id) = some (mem, pc', ret)) :
    Awake mutex ⟨mem, Function.update f.pc id pc', holds⟩ := by
  have hlinkid := hlink id
  cases hpc : f.pc id with
  | idle | lockYield =>
    rw [hpc] at hst
    cases hst
  | lockTest | lockSame | takeOwner | takeLocked | takeCheck | unlockTest | unlockSame
  | unlockClear | unlockOwner | unlockHead => exact .quiet hs hw hlink hst (by rw [hpc]; rfl)
  | takeFrom => exact .clean hs hw hlink hst (.inl hpc)
  | takeFlag => exact .clean hs hw hlink hst (.inr hpc)
  | lockQueue =>
    rw [hpc] at hst
    simp only [WakeSafe, hpc] at hsafe
    exact .enqueue hs hw hlink hpc hst hsafe.1 hsafe.2
  | unlockThreads =>
    rw [hpc] at hst
    simp only [WakeSafe, hpc] at hsafe
    exact .walk hs hw hlink hst hsafe
  | unlockEmpty =>
    rw [hpc] at hst
    simp only [WakeSafe, hpc] at hsafe
    exact .empty hs hlink hst hsafe
  | lockStatus | lockFor | lockFrom | lockFlag | lockWaiting =>
    rw [hpc] at hlinkid
    cases hlinkid

variable {r : Option Ret}

/-- A switch. -/
theorem Awake.switch (hs : ∃ s' c i R', Outcome.ok mem r = .ok s' none ∧ Scheduled s' c i R' W ∧
    tcbOf s'.nodes = tcbOf f.mem.nodes) (hm : mem.mutexes = f.mem.mutexes) (hw : Waiting mutex f W)
    (hlink : ∀ i, (f.pc i).linking = false) : Awake mutex { f with mem := mem } := by
  obtain ⟨s', c, i, R', heq, hs', hids⟩ := hs
  cases heq
  exact .running hs' (hw.congr (fun b _ => congrFun hids b) rfl hm) hlink

/-- A thread that blocked goes on at the loop when it is scheduled again. -/
theorem Waiting.resume (hw : Waiting mutex f W) (hpc : f.pc id = .lockYield) :
    Waiting mutex { f with pc := Function.update f.pc id .lockTest } W := by
  refine ⟨hw.queue, fun hne => ?_, fun b hb i hi => ?_⟩
  · refine (hw.pending hne).imp_right fun ⟨i, hi⟩ => ⟨i, ?_⟩
    have hii : i ≠ id := fun heq => by
      rw [heq, hpc] at hi
      cases hi
    exact (congrArg Pc.waking (Function.update_of_ne hii _ _)).trans hi
  · change Function.update f.pc id _ i = _ ∨ Function.update f.pc id _ i = _
    by_cases hii : i = id
    · exact .inl (by rw [hii, Function.update_self])
    · rw [Function.update_of_ne hii]
      exact hw.parked b hb i hi

/-- A thread that is inside no call starts one. -/
theorem Awake.call (ha : Awake mutex f) (hid : f.mem.runningThread = some id)
    (hpc : f.pc id = .idle) (hpc' : pc' = .lockTest ∨ pc' = .unlockTest) :
    Awake mutex { f with pc := Function.update f.pc id pc' } := by
  have hlinking : pc'.linking = false := by rcases hpc' with rfl | rfl <;> rfl
  cases ha with
  | fresh _ hnone _ _ =>
    rw [hnone] at hid
    cases hid
  | running hs hw hlink =>
    obtain rfl := Option.some.inj (hs.thread.symm.trans hid)
    refine .running hs (hw.next hs.not_waiting (fun _ _ => rfl) rfl (fun m q hm hq => ⟨m, hm, hq⟩)
      fun _ hp => ?_) (linking_update hlink hlinking)
    refine hp.imp_right fun ⟨i, hi⟩ => ⟨i, ?_⟩
    have hii : i ≠ _ := fun heq => by
      rw [heq, hpc] at hi
      cases hi
    exact (congrArg Pc.waking (Function.update_of_ne hii _ _)).trans hi
  | parked _ _ hthread _ _ hyield _ _ =>
    obtain rfl := Option.some.inj (hthread.symm.trans hid)
    rw [hpc] at hyield
    cases hyield
  | linking hl =>
    obtain rfl := Option.some.inj (hl.thread.symm.trans hid)
    have hself := hl.self
    rw [hpc] at hself
    cases hself

/-- A thread that is inside no call creates one. -/
theorem Awake.create (ha : Awake mutex f)
    (hidle : ∀ id, f.mem.runningThread = some id → f.pc id = .idle)
    (hc : workerCreate μ fuel f.mem = some (.ok mem r)) : Awake mutex { f with mem := mem } := by
  have hm := (workerCreate_kept hc).mutexes
  obtain ⟨s₁, hmain, hc⟩ := Option.bind_eq_some_iff.1 hc
  unfold ensureMain at hmain
  cases ha with
  | fresh hq _ hcount hpc =>
    rw [if_pos hcount] at hmain
    obtain ⟨a, id, hs₁⟩ := createMain_spec hq hmain
    obtain ⟨s', ret, b, heq, hs', -⟩ := createThread_scheduled hs₁ hc
    cases heq
    refine .running hs' ⟨fun h => absurd rfl h, fun h => absurd rfl h, fun b hb => nomatch hb⟩
      fun i => ?_
    rw [hpc i]
    rfl
  | @running a id R W hs hw hlink =>
    obtain ⟨t, ht, -⟩ := hs.exists_tcb
    have hlt := hs.queues.bound id (by simp [State.live, ht])
    rw [if_neg (Nat.ne_of_gt (Nat.lt_of_le_of_lt (Nat.zero_le id) hlt)), Option.some.injEq] at hmain
    obtain ⟨s', ret, b, heq, hs', hids, -⟩ := createThread_scheduled hs (hmain ▸ hc)
    cases heq
    refine .running hs' (hw.congr (fun c hcW => hids c ?_) rfl hm) hlink
    exact (hs.queues.people.alloc c).2 (by simp [hcW])
  | parked _ _ hthread _ _ hyield _ _ =>
    rw [hidle _ hthread] at hyield
    cases hyield
  | linking hl =>
    have hself := hl.self
    rw [hidle _ hl.thread] at hself
    cases hself

/-- **One step** keeps the invariant. -/
theorem preempt_awake (ha : Awake mutex f)
    (hp : Guarded (WakeSafe mutex) (Preempt μ mutex) f e g) : Awake mutex g := by
  obtain ⟨hsafe, hp⟩ := hp
  cases hp with
  | create hidle hc => exact ha.create hidle hc
  | @switch _ _ _ hi =>
    have hm := (interruptHandler_kept hi).mutexes
    unfold interruptHandler at hi
    split_ifs at hi
    · cases hi
      exact ha
    · cases ha with
      | fresh _ hnone _ _ =>
        obtain ⟨s₁, hr, -⟩ := Option.bind_eq_some_iff.1 hi
        obtain ⟨id, hid, -⟩ := Option.bind_eq_some_iff.1 hr
        rw [hnone] at hid
        cases hid
      | running hs hw hlink => exact .switch (hs.switch hi) hm hw hlink
      | @parked a id R W hq hnode hthread hid haW _ hw hlink =>
        obtain ⟨t, ht, hst⟩ := hq.exists_blocked haW hid
        exact .switch (hq.switch hnode hthread hid haW ((hsafe id hthread).2 ⟨t, ht, hst⟩) hi) hm hw
          hlink
      | linking hl =>
        have hself := (hsafe _ hl.thread).1
        rw [hl.self] at hself
        cases hself
  | @yield id _ _ _ hid hpc hy =>
    have hm := (workerYield_kept hy).mutexes
    cases ha with
    | fresh _ hnone _ _ =>
      rw [hnone] at hid
      cases hid
    | running hs hw hlink =>
      exact .switch (f := { f with pc := Function.update f.pc id .lockTest }) (hs.switch hy) hm
        (hw.resume hpc) (linking_update hlink rfl)
    | @parked a i R W hq hnode hthread hai haW _ hw hlink =>
      obtain rfl := Option.some.inj (hthread.symm.trans hid)
      obtain ⟨t, ht, hst⟩ := hq.exists_blocked haW hai
      exact .switch (f := { f with pc := Function.update f.pc i .lockTest })
        (hq.switch hnode hthread hai haW (hsafe ⟨t, ht, hst⟩) hy) hm (hw.resume hpc)
        (linking_update hlink rfl)
    | linking hl =>
      obtain rfl := Option.some.inj (hl.thread.symm.trans hid)
      have hself := hl.self
      rw [hpc] at hself
      cases hself
  | advance hadv =>
    cases hadv with
    | call hid hpc hpc' => exact ha.call hid hpc hpc'
    | @statement id _ _ _ ret hid hst =>
      cases ha with
      | fresh _ hnone _ _ =>
        rw [hnone] at hid
        cases hid
      | running hs hw hlink =>
        obtain rfl := Option.some.inj (hs.thread.symm.trans hid)
        exact .statement hs hw hlink hsafe hst
      | parked _ _ hthread _ _ hyield _ _ =>
        obtain rfl := Option.some.inj (hthread.symm.trans hid)
        rw [hyield] at hst
        cases hst
      | @linking a i R W h hl =>
        obtain rfl := Option.some.inj (hl.thread.symm.trans hid)
        by_cases hpc : f.pc i = .lockWaiting
        · exact .block hl hpc (hpc ▸ hst)
        · exact .linking (hl.tcb hst hpc)

theorem awake_start : Awake mutex (.start mutex) := by
  refine .fresh ?_ rfl rfl fun _ => rfl
  cases threads_start with
  | fresh hq _ _ => exact hq.congr rfl rfl rfl rfl rfl
  | scheduled hs => cases hs.thread

/-- **No lost wake-up.** After a run of safe steps: when the mutex is free and no call is in
progress but those of blocked threads, no thread is blocked on the mutex. -/
theorem no_lost_wakeup (hr : Run (Guarded (WakeSafe mutex) (Preempt μ mutex)) (.start mutex) es f)
    (hfree : ∃ o, words f.mem mutex = some (false, o))
    (hquiet : ∀ i, f.pc i = .idle ∨ Blocked f.mem i) (id : ℕ) (t : Tcb)
    (ht : f.mem.tcbs id = some t) (hst : t.status = .blocked) :
    t.blockedFromMutex ≠ some mutex := by
  have ha : Awake mutex f := hr.invariant awake_start fun _ _ _ ha hp => preempt_awake ha hp
  obtain ⟨o, ho⟩ := hfree
  exact absurd ⟨t, ht, hst⟩ (ha.no_sleeper ho hquiet)

/-- A check for `WakeSafe`. -/
def wakeCheck (mutex : ℕ) (f : Threaded) : Move → Bool
  | .switch => f.mem.readyQueue.head.isSome &&
      f.mem.runningThread.all fun id => !(f.pc id).linking
  | .yield _ => f.mem.readyQueue.head.isSome
  | .statement id _ =>
    match f.pc id with
    | .lockQueue => (words f.mem mutex).any Prod.fst && (f.mem.waitingQueue.head.isSome ||
        ((f.mem.mutexes mutex).bind Mutex.waitQueue).all fun q => q.head.isNone)
    | .unlockThreads => f.mem.waitingQueue.head = f.mem.waitingQueue.tail
    | .unlockEmpty => f.mem.waitingQueue.head = none
    | _ => true
  | _ => true

theorem wakeSafe_of_check (hc : wakeCheck mutex f e = true) : WakeSafe mutex f e := by
  have hhead : f.mem.readyQueue.head.isSome = true → f.mem.readyQueue.head ≠ none :=
    fun h hnone => by
    rw [hnone] at h
    cases h
  cases e with
  | create | call => trivial
  | yield id => exact fun _ => hhead hc
  | switch =>
    rw [wakeCheck, Bool.and_eq_true] at hc
    refine fun id hid => ⟨?_, fun _ => hhead hc.1⟩
    have h := hc.2
    rw [hid] at h
    simpa using h
  | statement id ret =>
    simp only [wakeCheck, WakeSafe] at hc ⊢
    cases hpc : f.pc id with
    | unlockThreads | unlockEmpty =>
      rw [hpc] at hc
      exact of_decide_eq_true hc
    | lockQueue =>
      rw [hpc] at hc
      obtain ⟨hlocked, hempty⟩ := Bool.and_eq_true_iff.1 hc
      obtain ⟨⟨b, o⟩, hw, hb⟩ := (Option.any_eq_true _ _).1 hlocked
      obtain rfl : b = true := hb
      refine ⟨.inl ⟨o, hw⟩, fun m q hm hq hnone => ?_⟩
      rw [hnone, hm, Option.bind_some, hq] at hempty
      simpa using hempty
    | _ => trivial

/-- The main thread takes the mutex, thread 1 waits for it, is released and takes it. -/
def handOver : List Move :=
  [.create, .call 0 .lockTest, .statement 0 none, .statement 0 none, .statement 0 none,
    .statement 0 none, .statement 0 none, .statement 0 (some 0), .switch, .call 1 .lockTest,
    .statement 1 none, .statement 1 none, .statement 1 none, .statement 1 none, .statement 1 none,
    .statement 1 none, .statement 1 none, .statement 1 none, .yield 1, .call 0 .unlockTest,
    .statement 0 none, .statement 0 none, .statement 0 none, .statement 0 none, .statement 0 none,
    .statement 0 none, .statement 0 (some 0), .switch, .statement 1 none, .statement 1 none,
    .statement 1 none, .statement 1 none, .statement 1 none, .statement 1 (some 0),
    .call 1 .unlockTest, .statement 1 none, .statement 1 none, .statement 1 none,
    .statement 1 none, .statement 1 (some 0)]

theorem no_lost_wakeup_hand_over : ∃ t, (played 0 handOver).mem.tcbs 1 = some t ∧
    (t.status = .blocked → t.blockedFromMutex ≠ some 0) := by
  have hr : Run (Guarded (WakeSafe 0) (Preempt (Malloc.bump Node) 0)) (.start 0) handOver
      (played 0 handOver) :=
    run_of_play 9 (wakeCheck 0) (fun _ _ hc => wakeSafe_of_check hc) rfl
  have hidle : ∀ i, (played 0 handOver).pc i = .idle := fun i =>
    match i with
    | 0 => rfl
    | 1 => rfl
    | n + 2 => rfl
  obtain ⟨t, ht⟩ : ∃ t, (played 0 handOver).mem.tcbs 1 = some t := ⟨_, rfl⟩
  exact ⟨t, ht, no_lost_wakeup hr ⟨_, rfl⟩ (fun i => .inl (hidle i)) 1 t ht⟩

/-- The main thread gives the mutex up while thread 1 has seen it locked and is not in the wait
queue yet. -/
def missedWakeup : List Move :=
  [.create, .call 0 .lockTest, .statement 0 none, .statement 0 none, .statement 0 none,
    .statement 0 none, .statement 0 none, .statement 0 (some 0), .switch, .call 1 .lockTest,
    .statement 1 none, .statement 1 none, .switch, .call 0 .unlockTest, .statement 0 none,
    .statement 0 none, .statement 0 none, .statement 0 none, .statement 0 (some 0), .switch,
    .statement 1 none, .statement 1 none, .statement 1 none, .statement 1 none, .statement 1 none,
    .statement 1 none, .yield 1]

/-- Thread 1 sleeps on a free mutex. -/
theorem wakeup_lost : ¬∀ es f, Run (Preempt (Malloc.bump Node) 0) (.start 0) es f →
    (∃ o, words f.mem 0 = some (false, o)) → (∀ i, f.pc i = .idle ∨ Blocked f.mem i) →
    ∀ id t, f.mem.tcbs id = some t → t.status = .blocked → t.blockedFromMutex ≠ some 0 := by
  intro hall
  have hquiet : ∀ i, (played 0 missedWakeup).pc i = .idle ∨
      Blocked (played 0 missedWakeup).mem i := fun i =>
    match i with
    | 0 => .inl rfl
    | 1 => .inr ⟨_, rfl, rfl⟩
    | n + 2 => .inl rfl
  exact hall missedWakeup _ (run_played rfl) ⟨_, rfl⟩ hquiet 1 _ rfl rfl rfl

end UserOS.Worker
