import UserOS.Worker.Queues
import UserOS.Worker.Steps

/-!
# No thread is lost

* `unblockLoop_waiting`: the threads from the head of a mutex queue to the end of the waiting queue
  become ready.
* `exec_threads`: a step that meets `Safe` keeps each thread in one place and does not end the
  process.
* `threads_in_one_place`: so in every run of such steps no thread is lost or duplicated.
-/

namespace UserOS.Worker

open Lib

variable {μ : Malloc Node} {s s' : State} {X R W W₁ W₂ L : List ℕ} {a b id : ℕ} {t : Tcb}
  {fuel : ℕ} {h' : Nodes} {q : Queue}

/-! ## Releasing threads -/

/-- The node released goes to the end of the ready queue. -/
theorem makeReady_spec (hq : Queues s (a :: X) R W) (hm : makeReady fuel s a = some s') :
    Queues s' X (R ++ [a]) W ∧ ∀ b ∈ X, statusAt s' b = statusAt s b := by
  obtain ⟨n, hn, hm⟩ := Option.bind_eq_some_iff.1 hm
  obtain ⟨t, ht, hm⟩ := Option.bind_eq_some_iff.1 hm
  have hid : tcbOf s.nodes a = some n.tcb := by simp [tcbOf, hn]
  refine ⟨(hq.setTcb List.mem_cons_self hid _).enqueueReady (Queues.statusAt_setTcb hid) hm,
    fun b hb => ?_⟩
  have hba : b ≠ a := fun heq => by
    have hnd := hq.people.nodup
    rw [List.cons_append, List.nodup_cons] at hnd
    exact hnd.1 (heq ▸ List.mem_append_left _ hb)
  rw [(enqueueReady_moved hm).statusAt, hq.statusAt_setTcb_of_ne hid hba]

/-- **Unblock.** From a thread of the waiting queue on, all are released in order. -/
theorem unblockLoop_waiting (W₂ : List ℕ) : ∀ {s : State} {R : List ℕ} {n : ℕ}
    {head : Option ℕ} {released ids : List ℕ},
    Queues s X R (W₁ ++ W₂) → head = W₂.head? → (W₁ ≠ [] ∨ W₂.length ≤ 1) →
    unblockLoop fuel n s head released = some (s', ids) →
    Queues s' X (R ++ W₂) W₁ ∧ (∀ b ∈ X, statusAt s' b = statusAt s b) ∧
      ∃ l, ids = released ++ l ∧ W₂.map (tcbOf s.nodes) = l.map some := by
  induction W₂ with
  | nil =>
    rintro s R n head released ids hq rfl - hu
    rw [List.head?_nil, unblockLoop, Option.some.injEq, Prod.mk.injEq] at hu
    obtain ⟨rfl, rfl⟩ := hu
    rw [List.append_nil] at hq ⊢
    exact ⟨hq, fun _ _ => rfl, [], by simp, rfl⟩
  | cons a W₂ ih =>
    rintro s R n head released ids hq rfl hne hu
    rw [List.head?_cons] at hu
    cases n with
    | zero => cases hu
    | succ n =>
      obtain ⟨node, hn, hu⟩ := Option.bind_eq_some_iff.1 hu
      obtain ⟨-, -, hu⟩ := Option.bind_eq_some_iff.1 hu
      obtain ⟨⟨s₁, r⟩, hdel, hu⟩ := Option.bind_eq_some_iff.1 hu
      have hid : tcbOf s.nodes a = some node.tcb := by simp [tcbOf, hn]
      have hnext : node.next = W₂.head? := by
        obtain ⟨-, m, hm, hrest⟩ := hq.waiting.chain.suffix
        rw [hn, Option.some.injEq] at hm
        exact hm ▸ Chain.head?_eq hrest
      have hone : W₁ ≠ [] ∨ W₂ = [] := hne.imp_right fun h =>
        List.length_eq_zero_iff.1 (by simpa using h)
      obtain ⟨rfl, hq₁⟩ := hq.deleteWaiting_mem hid hone hdel
      obtain ⟨s₂, hready, hu⟩ := Option.bind_eq_some_iff.1 hu
      obtain ⟨-, -, hu⟩ := Option.bind_eq_some_iff.1 hu
      obtain ⟨hq₂, hst₂⟩ := makeReady_spec hq₁ hready
      obtain ⟨hq', hst, l, hl, hids⟩ := ih hq₂ hnext (hone.imp_right fun h => by simp [h]) hu
      rw [List.append_assoc, List.singleton_append] at hq'
      obtain ⟨hmoved, -⟩ := deleteWaiting_moved hdel
      have hpoints : tcbOf s₂.nodes = tcbOf s.nodes :=
        (makeReady_releases ((congrFun hmoved.points a).trans hid) hready).points.trans
        hmoved.points
      refine ⟨hq', fun b hb => ?_, node.tcb :: l, by simp [hl], ?_⟩
      · rw [hst b hb, hst₂ b hb, hmoved.statusAt]
      · rw [List.map_cons, List.map_cons, hid, ← hpoints, hids]

/-- Nodes that are not waiting change nothing. -/
theorem unblockLoop_absent (l : List ℕ) : ∀ {n : ℕ} {head : Option ℕ} {released ids : List ℕ},
    Queues s X R W → Chain s.nodes Node.next head l → (∀ a ∈ l, a ∉ W) →
    unblockLoop fuel n s head released = some (s', ids) → s' = s := by
  induction l with
  | nil =>
    rintro n head released ids - rfl - hu
    rw [unblockLoop, Option.some.injEq, Prod.mk.injEq] at hu
    exact hu.1.symm
  | cons a l ih =>
    rintro n head released ids hq ⟨rfl, node, hn, hrest⟩ hW hu
    cases n with
    | zero => cases hu
    | succ n =>
      obtain ⟨node', hn', hu⟩ := Option.bind_eq_some_iff.1 hu
      obtain rfl := Option.some.inj (hn.symm.trans hn')
      obtain ⟨-, -, hu⟩ := Option.bind_eq_some_iff.1 hu
      obtain ⟨⟨s₁, r⟩, hdel, hloop⟩ := Option.bind_eq_some_iff.1 hu
      obtain ⟨rfl, rfl, -⟩ | ⟨W₁, b, W₂, rfl, -, hb, -⟩ :=
        hq.deleteWaiting hdel
      · exact ih hq hrest (fun b hb => hW b (List.mem_cons_of_mem _ hb)) hloop
      · have hab : a = b := hq.node_unique (by simp [tcbOf, hn]) hb
        exact absurd (by simp [hab]) (hW a List.mem_cons_self)

/-- A list whose last element is its first has no other. -/
theorem eq_nil_of_getLast (hnd : (a :: L).Nodup) (hlast : (a :: L).getLast? = some a) : L = [] := by
  rcases List.eq_nil_or_concat L with rfl | ⟨L, b, rfl⟩
  · rfl
  · rw [List.concat_eq_append, ← List.cons_append, List.getLast?_concat,
      Option.some.injEq] at hlast
    simp [hlast] at hnd

/-- `unblock_threads` on a queue whose head is not the first of several waiting threads: it
releases a part of the waiting queue, from some thread to the end. -/
theorem unblockThreads_spec {ids : List ℕ} (hu : unblockThreads fuel s q = some (s', ids))
    (hq : Queues s [a] R W)
    (hhead : q.head ≠ s.waitingQueue.head ∨ s.waitingQueue.head = s.waitingQueue.tail) :
    ∃ W₁ W₂, W = W₁ ++ W₂ ∧ Queues s' [a] (R ++ W₂) W₁ ∧
      statusAt s' a = statusAt s a := by
  have hnone : s' = s → ∃ W₁ W₂, W = W₁ ++ W₂ ∧ Queues s' [a] (R ++ W₂) W₁ ∧
      statusAt s' a = statusAt s a := by
    rintro rfl
    exact ⟨W, [], by simp, by simpa using hq, rfl⟩
  unfold unblockThreads at hu
  cases hb : q.head with
  | none =>
    rw [hb] at hu
    exact hnone (unblockLoop_absent [] hq rfl (by simp) hu)
  | some b =>
    rw [hb] at hu hhead
    -- The head is a node, so that it is in one of the lists.
    have hmem : b ∈ [a] ++ (R ++ W) := by
      cases fuel with
      | zero => cases hu
      | succ n =>
        obtain ⟨node, hn, -⟩ := Option.bind_eq_some_iff.1 hu
        exact (hq.people.alloc b).1 (by simp [tcbOf, hn])
    have hapart := hq.apart
    rcases List.mem_append.1 hmem with hba | hmem
    · obtain rfl := List.mem_singleton.1 hba
      obtain ⟨id, hid⟩ := hq.hand_eq List.mem_cons_self
      refine hnone (unblockLoop_absent [b] hq ⟨rfl, _, hid, rfl⟩ ?_ hu)
      intro c hc
      rw [List.mem_singleton.1 hc]
      exact (hapart.1 b List.mem_cons_self).2
    rcases List.mem_append.1 hmem with hbR | hbW
    · obtain ⟨R₁, R₂, rfl⟩ := List.append_of_mem hbR
      refine hnone (unblockLoop_absent _ hq hq.ready.chain.suffix ?_ hu)
      intro c hc
      exact hapart.2 c (List.mem_append_right _ hc)
    · obtain ⟨W₁, W₂, rfl⟩ := List.append_of_mem hbW
      have hne : W₁ ≠ [] ∨ (b :: W₂).length ≤ 1 := by
        rcases W₁ with - | ⟨c, W₁⟩
        · right
          have hwhead : s.waitingQueue.head = some b := hq.waiting.head
          have hone := hhead.resolve_left fun h => h hwhead.symm
          rw [hwhead, hq.waiting.tail] at hone
          simp [eq_nil_of_getLast hq.waiting.chain.nodup hone.symm]
        · exact .inl (List.cons_ne_nil _ _)
      obtain ⟨hq', hst, -⟩ := unblockLoop_waiting (b :: W₂) hq rfl hne hu
      exact ⟨W₁, b :: W₂, rfl, hq', hst a List.mem_cons_self⟩

/-- A blocked thread is waiting. -/
theorem Queues.blocked_mem (hq : Queues s [a] R W) (hst : statusAt s a ≠ some .blocked)
    (ht : s.tcbs id = some t) (hb : t.status = .blocked) : ∃ b ∈ W, tcbOf s.nodes b = some id := by
  have hlive : s.live id = true := by simp [State.live, ht]
  obtain ⟨b, hmem, hid⟩ := (hq.people.live id).1 hlive
  have hblocked : statusAt s b = some .blocked := by rw [statusAt_eq hid ht, hb]
  rcases List.mem_append.1 hmem with hba | hmem
  · rw [List.mem_singleton.1 hba] at hblocked
    exact absurd hblocked hst
  rcases List.mem_append.1 hmem with hbR | hbW
  · rw [hq.isReady b hbR] at hblocked
    cases hblocked
  · exact ⟨b, hbW, hid⟩

/-- The node is not one of the joiner that the control block names. -/
def stays (s : State) (t : Tcb) (b : ℕ) : Bool :=
  !(decide (0 ≤ t.waitingThread) && decide (tcbOf s.nodes b = some t.waitingThread.toNat))

/-- The joiner of the exiting thread becomes ready, if it is waiting and not the first of several.
-/
theorem releaseThreads_spec (hq : Queues s [a] R W)
    (hjoiner : 0 ≤ t.waitingThread → ∀ b, s.waitingQueue.head = some b →
      tcbOf s.nodes b = some t.waitingThread.toNat → s.waitingQueue.head = s.waitingQueue.tail)
    (hr : releaseThreads fuel s t = some s') :
    ∃ R', Queues s' [a] R' (W.filter (stays s t)) ∧ ((R ≠ [] ∨ 0 ≤ t.waitingThread ∧
      ∃ b ∈ W, tcbOf s.nodes b = some t.waitingThread.toNat) → R' ≠ []) := by
  unfold releaseThreads at hr
  split_ifs at hr with hw
  · obtain ⟨⟨s₁, r⟩, hdel, hready⟩ := Option.bind_eq_some_iff.1 hr
    obtain ⟨rfl, rfl, habs⟩ | ⟨W₁, b, W₂, rfl, rfl, hb, hq₁⟩ := hq.deleteWaiting hdel
    · obtain rfl := Option.some.inj hready
      refine ⟨R, ?_, fun hne => hne.elim (fun h => h) ?_⟩
      · rw [List.filter_eq_self.2 fun c hc => by simp [stays, habs c hc]]
        exact hq
      · rintro ⟨-, c, hc, hid⟩
        exact absurd hid (habs c hc)
    · have hne : W₁ ≠ [] ∨ W₂ = [] := by
        rcases W₁ with - | ⟨c, W₁⟩
        · right
          have hhead : s.waitingQueue.head = some b := hq.waiting.head
          have hone := hjoiner hw b hhead hb
          rw [hhead, hq.waiting.tail] at hone
          exact eq_nil_of_getLast hq.waiting.chain.nodup hone.symm
        · exact .inl (List.cons_ne_nil _ _)
      have hother : ∀ c ∈ W₁ ++ W₂, stays s t c = true := by
        intro c hc
        have hcb : c ≠ b := fun heq =>
          (List.nodup_middle.1 hq.waiting.chain.nodup).notMem (heq ▸ hc)
        have hid : tcbOf s.nodes c ≠ some t.waitingThread.toNat := fun h =>
          hcb (hq.node_unique h hb)
        simp [stays, hid]
      have hfilter : (W₁ ++ b :: W₂).filter (stays s t) = W₁ ++ W₂ := by
        rw [List.filter_append, List.filter_cons_of_neg (by simp [stays, hw, hb]),
          ← List.filter_append, List.filter_eq_self.2 hother]
      have hq₂ := (makeReady_spec (hq₁ hne) hready).1
      exact ⟨_, hfilter.symm ▸ hq₂, fun _ => by simp⟩
  · obtain rfl := Option.some.inj hr
    refine ⟨R, ?_, fun hne => hne.elim (fun h => h) fun h => absurd h.1 hw⟩
    rw [List.filter_eq_self.2 fun c _ => by simp [stays, Int.not_le.1 hw]]
    exact hq

/-! ## The scheduler -/

/-- Thread `id` runs, with the node `a`. -/
structure Scheduled (s : State) (a id : ℕ) (R W : List ℕ) : Prop where
  queues : Queues s [a] R W
  node : s.runningNode = some a
  thread : s.runningThread = some id
  points : tcbOf s.nodes a = some id
  status : statusAt s a = some .running

/-- Before the first call, or when a thread runs. -/
inductive Threads (s : State) : Prop
  | fresh : Queues s [] [] [] → s.runningThread = none → s.threadCount = 0 → Threads s
  | scheduled {a id : ℕ} {R W : List ℕ} : Scheduled s a id R W → Threads s

theorem Scheduled.exists_tcb (hs : Scheduled s a id R W) :
    ∃ t, s.tcbs id = some t ∧ t.status = .running := by
  obtain ⟨i, t, hi, ht⟩ := hs.queues.exists_tcb (a := a) (by simp)
  obtain rfl := Option.some.inj (hi.symm.trans hs.points)
  refine ⟨t, ht, ?_⟩
  have hst := hs.status
  rwa [statusAt_eq hi ht, Option.some.injEq] at hst

/-- What `sched_rr` does with a thread that did not block. -/
theorem retire_running (hr : retire fuel s = some s') (hq : Queues s [a] R W)
    (hnode : s.runningNode = some a) (hthread : s.runningThread = some id)
    (hid : tcbOf s.nodes a = some id) (ht : s.tcbs id = some t) (hst : t.status = .running) :
    Queues s' [] (R ++ [a]) W := by
  unfold retire at hr
  simp only [hthread, hnode, ht, hst, Option.bind_eq_bind, Option.bind_some] at hr
  exact (hq.setTcb List.mem_cons_self hid _).enqueueReady (Queues.statusAt_setTcb hid) hr

theorem retire_blocked (hr : retire fuel s = some s') (hnode : s.runningNode = some a)
    (hthread : s.runningThread = some id) (ht : s.tcbs id = some t) (hst : t.status = .blocked) :
    s' = s := by
  unfold retire at hr
  simp only [hthread, hnode, ht, hst, Option.bind_eq_bind, Option.bind_some,
    Option.some.injEq] at hr
  exact hr.symm

/-- What `sched_rr` does with a finished thread. -/
theorem retire_finished (hr : retire fuel s = some s') (hq : Queues s [a] R W)
    (hnode : s.runningNode = some a) (hthread : s.runningThread = some id)
    (hid : tcbOf s.nodes a = some id) (ht : s.tcbs id = some t) (hst : t.status = .finished)
    (hjoiner : 0 ≤ t.waitingThread → ∀ b, s.waitingQueue.head = some b →
      tcbOf s.nodes b = some t.waitingThread.toNat → s.waitingQueue.head = s.waitingQueue.tail)
    (hnext : R ≠ [] ∨ 0 ≤ t.waitingThread ∧
      ∃ b ∈ W, tcbOf s.nodes b = some t.waitingThread.toNat) :
    ∃ R', Queues s' [] R' (W.filter (stays s t)) ∧ R' ≠ [] ∧
      ∀ b, b ≠ a → tcbOf s'.nodes b = tcbOf s.nodes b := by
  unfold retire at hr
  simp only [hthread, hnode, ht, hst, Option.bind_eq_bind, Option.bind_some] at hr
  obtain ⟨s₁, hrel, hr⟩ := Option.bind_eq_some_iff.1 hr
  obtain ⟨R', hq', hne⟩ := releaseThreads_spec hq hjoiner hrel
  cases hr
  have hpoints := (releaseThreads_releases hrel).1.points
  have hid₁ : tcbOf s₁.nodes a = some id := by rw [hpoints, hid]
  refine ⟨R', hq'.free hid₁, hne hnext, fun b hb => ?_⟩
  rw [← hpoints]
  simp [tcbOf, Function.update_of_ne hb]

/-- The first ready thread runs next. In particular it is not blocked. -/
theorem dispatch_scheduled {o : Outcome} (hq : Queues s [] (a :: R) W)
    (hd : dispatch μ s = some o) : ∃ s' id, o = .ok s' none ∧ Scheduled s' a id R W ∧
      tcbOf s'.nodes = tcbOf s.nodes := by
  obtain ⟨h', q, hpop, hq', hids⟩ := hq.pop
  unfold dispatch at hd
  simp only [hpop, Option.bind_eq_bind, Option.bind_some] at hd
  obtain ⟨n, hn, hd⟩ := Option.bind_eq_some_iff.1 hd
  obtain ⟨t, ht, hd⟩ := Option.bind_eq_some_iff.1 hd
  have hid : tcbOf h' a = some n.tcb := by simp [tcbOf, hn]
  have hready : t.status = .ready := by
    have hst := hq.isReady a List.mem_cons_self
    have hid' := hid
    rw [hids] at hid'
    rwa [statusAt_eq hid' ht, Option.some.injEq] at hst
  rw [if_neg (by rw [hready]; exact Status.noConfusion), Option.some.injEq] at hd
  refine ⟨_, n.tcb, hd.symm, ⟨(hq'.setTcb List.mem_cons_self hid _).congr rfl rfl rfl rfl rfl,
    rfl, rfl, hid, ?_⟩, hids⟩
  simp [statusAt, State.setTcb, hid]

/-- The thread is `BLOCKED`. -/
def Blocked (s : State) (id : ℕ) : Prop := ∃ t, s.tcbs id = some t ∧ t.status = .blocked

theorem Queues.exists_blocked (hq : Queues s X R W) (ha : a ∈ W) (hid : tcbOf s.nodes a = some id) :
    Blocked s id := by
  obtain ⟨i, t, hi, ht⟩ := hq.exists_tcb (a := a) (by simp [ha])
  obtain rfl := Option.some.inj (hi.symm.trans hid)
  have hst := hq.isBlocked a ha
  exact ⟨t, ht, by rwa [statusAt_eq hi ht, Option.some.injEq] at hst⟩

/-- A thread that is not blocked goes to the end of the ready queue, and the head of it runs. -/
theorem Scheduled.rotate {o : Outcome} (hs : Scheduled s a id R W)
    (hy : workerYield μ fuel s = some o) : ∃ s' c i R', o = .ok s' none ∧ R ++ [a] = c :: R' ∧
      Scheduled s' c i R' W ∧ tcbOf s'.nodes = tcbOf s.nodes := by
  obtain ⟨s₁, hr, hd⟩ := Option.bind_eq_some_iff.1 hy
  obtain ⟨t, ht, hst⟩ := hs.exists_tcb
  have hq := retire_running hr hs.queues hs.node hs.thread hs.points ht hst
  have hids : tcbOf s₁.nodes = tcbOf s.nodes := by
    unfold retire at hr
    simp only [hs.thread, hs.node, ht, hst, Option.bind_eq_bind, Option.bind_some] at hr
    exact (enqueueReady_moved hr).points
  obtain ⟨c, R', hR⟩ := List.exists_cons_of_ne_nil (List.append_ne_nil_of_right_ne_nil R
    (List.cons_ne_nil a []))
  obtain ⟨s₂, i, ho, hs₂, hids₂⟩ := dispatch_scheduled (hR ▸ hq) hd
  exact ⟨s₂, c, i, R', ho, hR, hs₂, hids₂.trans hids⟩

/-- A thread that is not blocked gives way to the first that is ready. -/
theorem Scheduled.switch {o : Outcome} (hs : Scheduled s a id R W)
    (hy : workerYield μ fuel s = some o) : ∃ s' c i R', o = .ok s' none ∧
      Scheduled s' c i R' W ∧ tcbOf s'.nodes = tcbOf s.nodes := by
  obtain ⟨s', c, i, R', ho, -, hs', hids⟩ := hs.rotate hy
  exact ⟨s', c, i, R', ho, hs', hids⟩

/-- A blocked thread gives way to the first that is ready. -/
theorem Queues.switch {o : Outcome} (hq : Queues s [] R W) (hnode : s.runningNode = some a)
    (hthread : s.runningThread = some id) (hid : tcbOf s.nodes a = some id) (ha : a ∈ W)
    (hhead : s.readyQueue.head ≠ none) (hy : workerYield μ fuel s = some o) :
    ∃ s' c i R', o = .ok s' none ∧ Scheduled s' c i R' W ∧ tcbOf s'.nodes = tcbOf s.nodes := by
  obtain ⟨s₁, hr, hd⟩ := Option.bind_eq_some_iff.1 hy
  obtain ⟨t, ht, hst⟩ := hq.exists_blocked ha hid
  obtain rfl := retire_blocked hr hnode hthread ht hst
  obtain ⟨c, R', rfl⟩ := List.exists_cons_of_ne_nil fun h =>
    hhead (hq.ready.chain.eq_nil_iff.1 h)
  obtain ⟨s₂, j, ho, hs₂, hids₂⟩ := dispatch_scheduled hq hd
  exact ⟨s₂, c, j, R', ho, hs₂, hids₂⟩

/-! ## Safe steps -/

/-- The exit of a thread releases its joiner without a cut in the waiting queue, and some thread is
ready then. -/
structure ExitSafe (s : State) (t : Tcb) : Prop where
  joiner : 0 ≤ t.waitingThread → ∀ b, s.waitingQueue.head = some b →
    tcbOf s.nodes b = some t.waitingThread.toNat → s.waitingQueue.head = s.waitingQueue.tail
  next : s.readyQueue.head ≠ none ∨ 0 ≤ t.waitingThread ∧
    ∃ w, s.tcbs t.waitingThread.toNat = some w ∧ w.status = .blocked

/-- Some thread is ready, and the queue of the mutex is empty or ends where the waiting queue
does. -/
structure LockSafe (s : State) (m : Mutex) : Prop where
  next : s.readyQueue.head ≠ none
  tail : ∀ q, m.waitQueue = some q →
    q.head = none ∨ q.tail ≠ none ∧ q.tail = s.waitingQueue.tail

/-- The queue of the mutex does not start with the first of several waiting threads. -/
def UnlockSafe (s : State) (q : Queue) : Prop :=
  q.head ≠ s.waitingQueue.head ∨ s.waitingQueue.head = s.waitingQueue.tail

/-- The condition on the state before a call under which it loses no thread: an exit is `ExitSafe`,
a lock that blocks `LockSafe`, an unlock that releases `UnlockSafe`. -/
def Safe (s : State) : Call → Prop
  | .exit _ => ∀ id t, s.runningThread = some id → s.tcbs id = some t → ExitSafe s t
  | .lock mutex => ∀ id m, s.runningThread = some id → s.mutexes mutex = some m →
      m.isLocked = true → m.owner ≠ id → LockSafe s m
  | .unlock mutex => ∀ id m q, s.runningThread = some id → s.mutexes mutex = some m →
      m.isLocked = true → m.owner = id → m.waitQueue = some q → UnlockSafe s q
  | _ => True

/-- The queue of a mutex that ends where the waiting queue does: one link serves both. -/
theorem enqueue_twice {q₁ q₂ q₁' : Queue} (htail : q₁.tail ≠ none ∧ q₁.tail = q₂.tail)
    (hhead : q₁.head ≠ none) (hhead₂ : q₂.head ≠ none)
    (he : enqueue fuel s.nodes q₁ a = some (h', q₁')) :
    enqueue fuel h' q₂ a = enqueue fuel s.nodes q₂ a := by
  obtain ⟨t, ht⟩ := Option.ne_none_iff_exists'.1 htail.1
  obtain ⟨b, hb⟩ := Option.ne_none_iff_exists'.1 hhead
  obtain ⟨c, hc⟩ := Option.ne_none_iff_exists'.1 hhead₂
  have ht₂ : q₂.tail = some t := by rw [← htail.2, ht]
  simp only [enqueue, hb, ht, Option.some_or, Option.bind_eq_bind, Option.bind_some] at he
  obtain ⟨h₁, hset, he⟩ := Option.bind_eq_some_iff.1 he
  cases he
  have hagain : setNext h' t (some a) = some h' := by
    obtain ⟨n, hn, hset⟩ := Option.bind_eq_some_iff.1 hset
    obtain rfl := Option.some.inj hset
    simp [setNext]
  simp only [enqueue, hc, ht₂, Option.some_or, Option.bind_eq_bind, Option.bind_some, hset, hagain]

namespace Scheduled

variable {o : Outcome}

theorem ready_ne_nil (hs : Scheduled s a id R W) (hhead : s.readyQueue.head ≠ none) : R ≠ [] :=
  fun h => hhead (hs.queues.ready.chain.eq_nil_iff.1 h)

theorem yield (hy : workerYield μ fuel s = some o) (hs : Scheduled s a id R W) :
    ∃ s', o = .ok s' none ∧ Threads s' := by
  obtain ⟨s', c, i, R', ho, hs', -⟩ := hs.switch hy
  exact ⟨s', ho, .scheduled hs'⟩

theorem congr (hs : Scheduled s a id R W) (hn : s'.nodes = s.nodes)
    (hr : s'.readyQueue = s.readyQueue) (hw : s'.waitingQueue = s.waitingQueue)
    (ht : s'.tcbs = s.tcbs) (hc : s'.threadCount = s.threadCount)
    (hnode : s'.runningNode = s.runningNode) (hthread : s'.runningThread = s.runningThread) :
    Scheduled s' a id R W where
  queues := hs.queues.congr hn hr hw ht hc
  node := hnode.trans hs.node
  thread := hthread.trans hs.thread
  points := by rw [hn, hs.points]
  status := by rw [statusAt_congr (by rw [hn]) ht, hs.status]

/-- A thread that exits releases its joiner and switches. -/
theorem finish {valuePtr : ℕ} (hs : Scheduled s a id R W) (ht : s.tcbs id = some t)
    (hsafe : ExitSafe s t) (he : workerExit μ fuel s valuePtr = some o) :
    ∃ s' c i R', o = .ok s' none ∧ Scheduled s' c i R' (W.filter (stays s t)) ∧
      ∀ b, b ≠ a → tcbOf s'.nodes b = tcbOf s.nodes b := by
  obtain ⟨hjoiner, hnext⟩ := hsafe
  obtain ⟨u, hu, hst⟩ := hs.exists_tcb
  obtain rfl := Option.some.inj (ht.symm.trans hu)
  unfold workerExit at he
  rw [hs.thread, Option.bind_eq_bind, Option.bind_some, ht, Option.bind_eq_bind, Option.bind_some,
    if_neg (fun h => h hst)] at he
  have hv : ¬(valuePtr ≠ 0 ∧ numReturnValues ≤ id) := fun h => by
    rw [if_pos h] at he
    cases he
  rw [if_neg hv] at he
  have hmem : R ≠ [] ∨ 0 ≤ t.waitingThread ∧
      ∃ b ∈ W, tcbOf s.nodes b = some t.waitingThread.toNat := by
    rcases hnext with hhead | ⟨hw, w, hwt, hb⟩
    · exact .inl (hs.ready_ne_nil hhead)
    · refine .inr ⟨hw, hs.queues.blocked_mem ?_ hwt hb⟩
      rw [hs.status]
      exact fun h => Status.noConfusion (Option.some.inj h)
  have hq := hs.queues.setTcb List.mem_cons_self hs.points { t with status := .finished }
  obtain ⟨s₁, hr, hd⟩ := Option.bind_eq_some_iff.1 he
  obtain ⟨R', hq', hne, hids⟩ := retire_finished hr (hq.congr rfl rfl rfl rfl rfl) hs.node hs.thread
    hs.points (Function.update_self ..) rfl hjoiner hmem
  obtain ⟨c, R'', rfl⟩ := List.exists_cons_of_ne_nil hne
  obtain ⟨s', i, ho, hs', hids'⟩ := dispatch_scheduled hq' hd
  exact ⟨s', c, i, R'', ho, hs', fun b hb => (congrFun hids' b).trans (hids b hb)⟩

theorem exit {valuePtr : ℕ} (hs : Scheduled s a id R W) (hsafe : Safe s (.exit valuePtr))
    (he : workerExit μ fuel s valuePtr = some o) : ∃ s' ret, o = .ok s' ret ∧ Threads s' := by
  obtain ⟨t, ht, -⟩ := hs.exists_tcb
  obtain ⟨s', c, i, R', ho, hs', -⟩ := hs.finish ht (hsafe id t hs.thread ht) he
  exact ⟨s', none, ho, .scheduled hs'⟩

/-- A thread that blocked itself is put into the waiting queue and switches. -/
theorem block (hw : Worker.enqueueWaiting fuel s a = some s') (hy : workerYield μ fuel s' = some o)
    (hq : Queues s [a] R W) (hnode : s.runningNode = some a) (hthread : s.runningThread = some id)
    (hid : tcbOf s.nodes a = some id) (ht : s.tcbs id = some t) (hst : t.status = .blocked)
    (hhead : s.readyQueue.head ≠ none) : ∃ s'' c i R', o = .ok s'' none ∧
      Scheduled s'' c i R' (W ++ [a]) ∧ tcbOf s''.nodes = tcbOf s.nodes := by
  have hq' := hq.enqueueWaiting (by rw [statusAt_eq hid ht, hst]) hw
  have hids := (enqueueWaiting_moved hw).points
  obtain ⟨⟨h, q⟩, -, hs'⟩ := Option.bind_eq_some_iff.1 hw
  obtain rfl := Option.some.inj hs'
  obtain ⟨s'', c, i, R', ho, hs'', hids'⟩ := hq'.switch hnode hthread
    ((congrFun hids a).trans hid) (by simp) hhead hy
  exact ⟨s'', c, i, R', ho, hs'', hids'.trans hids⟩

/-- A thread that is ready is not the one that runs, and some thread runs next. -/
theorem found {thread : ℕ} (hs : Scheduled s a id R W)
    (hfound : findReadyThreads fuel s thread = some true) :
    thread ≠ id ∧ s.readyQueue.head ≠ none := by
  obtain ⟨⟨prev, b⟩, hfind, hb⟩ := Option.bind_eq_some_iff.1 hfound
  obtain ⟨hnone, -⟩ | ⟨R₁, c, R₂, n, rfl, hn, rfl, -⟩ :=
    findNode_spec hs.queues.ready hs.queues.ready_live hs.queues.ids_ready hfind
  · dsimp only at hnone
    subst hnone
    cases hb
  · have hc : tcbOf s.nodes c = some n.tcb := by simp [tcbOf, hn]
    refine ⟨fun heq => ?_, fun hnone => ?_⟩
    · have hac := hs.queues.node_unique (heq ▸ hc) hs.points
      exact (hs.queues.apart.1 a List.mem_cons_self).1 (by simp [← hac])
    · exact absurd (hs.queues.ready.chain.eq_nil_iff.2 hnone) (by simp)

theorem join {thread : ℕ} {wantsValue : Bool} (hs : Scheduled s a id R W)
    (hj : workerJoin μ fuel s thread wantsValue = some o) :
    ∃ s' ret, o = .ok s' ret ∧ Threads s' := by
  unfold workerJoin at hj
  rw [hs.thread, hs.node, Option.bind_eq_bind, Option.bind_some, Option.bind_eq_bind,
    Option.bind_some] at hj
  obtain ⟨found, hfound, hj⟩ := Option.bind_eq_some_iff.1 hj
  have hquiet : ∀ b, Threads { s with interruptDisabled := b } := fun b =>
    .scheduled (hs.congr rfl rfl rfl rfl rfl rfl rfl)
  cases found with
  | false =>
    rw [if_pos Bool.not_false] at hj
    unfold joinFinished at hj
    dsimp only at hj
    split_ifs at hj <;> cases hj <;> exact ⟨_, _, rfl, hquiet false⟩
  | true =>
    rw [if_neg (by simp)] at hj
    obtain ⟨w, hw, hj⟩ := Option.bind_eq_some_iff.1 hj
    unfold joinReady at hj
    split_ifs at hj
    · cases hj
      exact ⟨_, _, rfl, hquiet true⟩
    obtain ⟨hne, hhead⟩ := hs.found hfound
    dsimp only at hj
    obtain ⟨t, ht, hj⟩ := Option.bind_eq_some_iff.1 hj
    obtain ⟨s₁, henq, hy⟩ := Option.bind_eq_some_iff.1 hj
    have hq := (hs.queues.setTcb_of_status hw { w with waitingThread := id } rfl).setTcb
      List.mem_cons_self hs.points { t with status := .blocked, waitingFor := thread }
    obtain ⟨s', c, i, R', rfl, hs', -⟩ := block henq hy (hq.congr rfl rfl rfl rfl rfl) hs.node
      hs.thread hs.points (Function.update_self ..) rfl hhead
    exact ⟨s', none, rfl, .scheduled hs'⟩

/-- A thread that finds the mutex taken goes into both queues and switches. -/
theorem lockBlock {mutex : ℕ} {m : Mutex} (hs : Scheduled s a id R W) (hsafe : LockSafe s m)
    (hl : Worker.lockBlock μ fuel s mutex m id a t = some o) :
    ∃ s' c i R', o = .ok s' none ∧ Scheduled s' c i R' (W ++ [a]) ∧
      tcbOf s'.nodes = tcbOf s.nodes := by
  obtain ⟨hnext, htail⟩ := hsafe
  obtain ⟨q, hmq, hl⟩ := Option.bind_eq_some_iff.1 hl
  obtain ⟨⟨h', q'⟩, henq, hl⟩ := Option.bind_eq_some_iff.1 hl
  obtain ⟨s₁, hw, hy⟩ := Option.bind_eq_some_iff.1 hl
  have hq := hs.queues.setTcb List.mem_cons_self hs.points { t with
    status := .blocked, waitingFor := m.owner, blockedFromMutex := some mutex,
    mutexBlocked := true }
  have hboth : enqueue fuel h' s.waitingQueue a = enqueue fuel s.nodes s.waitingQueue a := by
    by_cases hhead : q.head = none
    · unfold enqueue at henq
      rw [hhead] at henq
      cases henq
      rfl
    · have hend := (htail q hmq).resolve_left hhead
      refine enqueue_twice hend hhead (fun hnil => ?_) henq
      have hW := hs.queues.waiting.chain.eq_nil_iff.2 hnil
      have hlast := hs.queues.waiting.tail
      rw [hW, ← hend.2] at hlast
      exact hend.1 hlast
  have hw' : Worker.enqueueWaiting fuel { s.setTcb id { t with
      status := .blocked, waitingFor := m.owner, blockedFromMutex := some mutex,
      mutexBlocked := true } with
      mutexes := Function.update s.mutexes mutex (some { m with waitQueue := some q' })
      cont := Function.update s.cont id (.locking mutex) } a = some s₁ := by
    obtain ⟨⟨h₁, q₁⟩, henq₁, hw⟩ := Option.bind_eq_some_iff.1 hw
    obtain rfl := Option.some.inj hw
    unfold Worker.enqueueWaiting
    dsimp only [State.setTcb] at henq₁ ⊢
    rw [← hboth, henq₁]
    rfl
  have hblock := block hw' hy (hq.congr rfl rfl rfl rfl rfl) hs.node hs.thread hs.points
    (Function.update_self ..) rfl hnext
  exact hblock

theorem lock {mutex : ℕ} (hs : Scheduled s a id R W) (hsafe : Safe s (.lock mutex))
    (hl : workerMutexLock μ fuel s mutex = some o) : ∃ s' ret, o = .ok s' ret ∧ Threads s' := by
  obtain ⟨i, hi, hl⟩ := Option.bind_eq_some_iff.1 hl
  obtain rfl := Option.some.inj (hs.thread.symm.trans hi)
  obtain ⟨b, hb, hl⟩ := Option.bind_eq_some_iff.1 hl
  obtain rfl := Option.some.inj (hs.node.symm.trans hb)
  obtain ⟨m, hm, hl⟩ := Option.bind_eq_some_iff.1 hl
  obtain ⟨t, ht, hl⟩ := Option.bind_eq_some_iff.1 hl
  split_ifs at hl with hlocked howner
  · cases hl
    exact ⟨_, _, rfl, .scheduled (hs.congr rfl rfl rfl rfl rfl rfl rfl)⟩
  · obtain ⟨s', c, i, R', ho, hs', -⟩ := hs.lockBlock (hsafe id m hs.thread hm hlocked howner) hl
    exact ⟨s', none, ho, .scheduled hs'⟩
  · cases hl
    have hst := statusAt_setTcb_of_status ht
      { t with blockedFromMutex := none, mutexBlocked := false } rfl
    have hq := hs.queues.setTcb_of_status ht
      { t with blockedFromMutex := none, mutexBlocked := false } rfl
    exact ⟨_, _, rfl, .scheduled ⟨hq.congr rfl rfl rfl rfl rfl, hs.node, hs.thread, hs.points,
      (congrFun hst a).trans hs.status⟩⟩

theorem unlock {mutex : ℕ} (hs : Scheduled s a id R W) (hsafe : Safe s (.unlock mutex))
    (hu : workerMutexUnlock fuel s mutex = some o) : ∃ s' ret, o = .ok s' ret ∧ Threads s' := by
  obtain ⟨i, hi, hu⟩ := Option.bind_eq_some_iff.1 hu
  obtain rfl := Option.some.inj (hs.thread.symm.trans hi)
  obtain ⟨m, hm, hu⟩ := Option.bind_eq_some_iff.1 hu
  split_ifs at hu with hnot
  · cases hu
    exact ⟨_, _, rfl, .scheduled hs⟩
  rw [Bool.or_eq_true, not_or] at hnot
  obtain ⟨q, hq, hu⟩ := Option.bind_eq_some_iff.1 hu
  have hs₁ : Scheduled (s.setMutex mutex m.unlocked) a id R W :=
    hs.congr rfl rfl rfl rfl rfl rfl rfl
  cases hhead : q.head with
  | none =>
    simp only [hhead] at hu
    cases hu
    exact ⟨_, _, rfl, .scheduled hs₁⟩
  | some b =>
    simp only [hhead] at hu
    obtain ⟨⟨s₁, ids⟩, hloop, hu⟩ := Option.bind_eq_some_iff.1 hu
    cases hu
    have hsafe' : UnlockSafe s q :=
      hsafe id m q hs.thread hm (by simpa using hnot.1) (by simpa using hnot.2) hq
    obtain ⟨W₁, W₂, -, hq₁, hst⟩ := unblockThreads_spec hloop hs₁.queues hsafe'
    obtain ⟨l, -, hrel⟩ := unblockLoop_releases hloop
    obtain ⟨h, r, w, u, rfl⟩ := hrel.rest
    refine ⟨_, _, rfl, .scheduled ⟨hq₁.congr rfl rfl rfl rfl rfl, hs.node, hs.thread, ?_, ?_⟩⟩
    · exact (congrFun hrel.points a).trans hs.points
    · exact hst.trans hs.status

end Scheduled

/-! ## Creation -/

theorem createMain_spec (hq : Queues s [] [] []) (hm : createMain μ s = some s') :
    ∃ a id, Scheduled s' a id [] [] := by
  obtain ⟨⟨s₁, a⟩, hnode, hm⟩ := Option.bind_eq_some_iff.1 hm
  obtain ⟨hfree, rfl⟩ := createNode_eq hnode
  cases hm
  have hnew := hq.addThread hfree (.new .running false)
  have hids := (tcbOf_addThread (s := s) (a := a) (t := .new .running false)).trans rfl
  have hready : s.readyQueue = .empty := by
    have h := hq.ready
    cases hr : s.readyQueue
    rw [hr] at h
    exact congrArg₂ Queue.mk h.chain h.tail
  have hwaiting : s.waitingQueue = .empty := by
    have h := hq.waiting
    cases hr : s.waitingQueue
    rw [hr] at h
    exact congrArg₂ Queue.mk h.chain h.tail
  refine ⟨a, s.threadCount, hnew.congr rfl hready.symm hwaiting.symm rfl rfl, rfl, rfl, ?_, ?_⟩
  · exact (congrFun hids a).trans (Function.update_self ..)
  · exact statusAt_eq ((congrFun hids a).trans (Function.update_self ..)) (Function.update_self ..)

/-- The new thread is the last of those that are ready. -/
theorem createThread_scheduled {o : Outcome} (hs : Scheduled s a id R W)
    (hc : createThread μ fuel s = some o) : ∃ s' ret b, o = .ok s' ret ∧
      Scheduled s' a id (R ++ [b]) W ∧
      (∀ c, tcbOf s.nodes c ≠ none → tcbOf s'.nodes c = tcbOf s.nodes c) ∧
      tcbOf s'.nodes b = some s.threadCount := by
  obtain ⟨⟨s₁, b⟩, hnode, hc⟩ := Option.bind_eq_some_iff.1 hc
  obtain ⟨s₂, henq, hret⟩ := Option.bind_eq_some_iff.1 hc
  obtain ⟨hfree, hs₁⟩ := createNode_eq hnode
  obtain rfl := Option.some.inj hret
  change s.nodes b = none at hfree
  have hids := tcbOf_addThread (s := s) (a := b) (t := .new .ready true)
  have hmoved := enqueueReady_moved henq
  have hkeep : ∀ c, tcbOf s.nodes c ≠ none → tcbOf s₂.nodes c = tcbOf s.nodes c := by
    intro c hc
    have hcb : c ≠ b := fun heq => hc (by rw [heq, tcbOf, hfree]; rfl)
    rw [hmoved.points]
    subst hs₁
    exact (congrFun hids c).trans (Function.update_of_ne hcb _ _)
  have hab : a ≠ b := fun heq => by
    have hp := hs.points
    rw [heq, tcbOf, hfree] at hp
    cases hp
  have hnew := hs.queues.addThread hfree (.new .ready true)
  have hq₁ : Queues s₁ [b, a] R W := by
    subst hs₁
    exact hnew.congr rfl rfl rfl rfl rfl
  have hst₁ : statusAt s₁ = statusAt (s.addThread b (.new .ready true)) := by
    subst hs₁
    exact statusAt_congr rfl rfl
  have hb : statusAt s₁ b = some .ready := by
    rw [hst₁]
    exact statusAt_eq ((congrFun hids b).trans (Function.update_self ..)) (Function.update_self ..)
  have hrest : s₂.runningNode = s.runningNode ∧ s₂.runningThread = s.runningThread := by
    obtain ⟨h, r, w, rfl⟩ := hmoved.rest
    subst hs₁
    exact ⟨rfl, rfl⟩
  refine ⟨s₂, _, b, rfl, ⟨hq₁.enqueueReady hb henq, hrest.1.trans hs.node,
    hrest.2.trans hs.thread, ?_, ?_⟩, hkeep, ?_⟩
  · rw [hkeep a (by rw [hs.points]; exact Option.some_ne_none _), hs.points]
  · rw [hmoved.statusAt, hst₁]
    exact hs.queues.statusAt_addThread hab hs.status
  · rw [hmoved.points]
    subst hs₁
    exact (congrFun hids b).trans (Function.update_self ..)

theorem createThread_spec {o : Outcome} (hs : Scheduled s a id R W)
    (hc : createThread μ fuel s = some o) : ∃ s' ret, o = .ok s' ret ∧ Threads s' := by
  obtain ⟨s', ret, b, ho, hs', -⟩ := createThread_scheduled hs hc
  exact ⟨s', ret, ho, .scheduled hs'⟩

theorem workerCreate_spec {o : Outcome} (hs : Threads s) (hc : workerCreate μ fuel s = some o) :
    ∃ s' ret, o = .ok s' ret ∧ Threads s' := by
  obtain ⟨s₁, hmain, hc⟩ := Option.bind_eq_some_iff.1 hc
  unfold ensureMain at hmain
  cases hs with
  | fresh hq _ hcount =>
    rw [if_pos hcount] at hmain
    obtain ⟨a, id, hs₁⟩ := createMain_spec hq hmain
    exact createThread_spec hs₁ hc
  | @scheduled a id R W hs =>
    obtain ⟨t, ht, -⟩ := hs.exists_tcb
    have hlt := hs.queues.bound id (by simp [State.live, ht])
    rw [if_neg (Nat.ne_of_gt (Nat.lt_of_le_of_lt (Nat.zero_le id) hlt)), Option.some.injEq] at hmain
    exact createThread_spec hs (hmain ▸ hc)

/-! ## Runs -/

theorem Threads.congr (hs : Threads s) (hn : s'.nodes = s.nodes)
    (hr : s'.readyQueue = s.readyQueue) (hw : s'.waitingQueue = s.waitingQueue)
    (ht : s'.tcbs = s.tcbs) (hc : s'.threadCount = s.threadCount)
    (hnode : s'.runningNode = s.runningNode) (hthread : s'.runningThread = s.runningThread) :
    Threads s' := by
  cases hs with
  | fresh hq hnone hcount =>
    exact .fresh (hq.congr hn hr hw ht hc) (hthread.trans hnone) (hc.trans hcount)
  | scheduled hs => exact .scheduled (hs.congr hn hr hw ht hc hnode hthread)

/-- The calls that do not touch a queue. -/
theorem mutexInit_spec {mutex : ℕ} (hs : Threads s) :
    ∃ s' ret, workerMutexInit s mutex = .ok s' ret ∧ Threads s' :=
  ⟨_, _, rfl, hs.congr rfl rfl rfl rfl rfl rfl rfl⟩

theorem mutexDestroy_spec {mutex : ℕ} {o : Outcome} (hs : Threads s)
    (hd : workerMutexDestroy s mutex = some o) : ∃ s' ret, o = .ok s' ret ∧ Threads s' := by
  obtain ⟨m, -, hd⟩ := Option.bind_eq_some_iff.1 hd
  split_ifs at hd
  · cases hd
    exact ⟨_, _, rfl, hs⟩
  · cases hd
    exact ⟨_, _, rfl, hs.congr rfl rfl rfl rfl rfl rfl rfl⟩

/-- A safe step keeps each thread in one place and does not end the process. -/
theorem exec_threads {o : Outcome} {call : Call} (hs : Threads s) (hsafe : Safe s call)
    (he : exec μ fuel s call = some o) : ∃ s' ret, o = .ok s' ret ∧ Threads s' := by
  rcases exec_cases he with ⟨hcall, -⟩ | ⟨thread, v, rfl, -, hj⟩
  · cases hs with
    | fresh hq hnone hcount =>
      have hs : Threads s := .fresh hq hnone hcount
      rcases startCall_none hnone hcall with rfl | ⟨mutex, rfl | rfl⟩ | ⟨rfl, rfl⟩
      · exact workerCreate_spec hs hcall
      · obtain rfl := Option.some.inj hcall
        exact mutexInit_spec hs
      · exact mutexDestroy_spec hs hcall
      · exact ⟨s, none, rfl, hs⟩
    | @scheduled a id R W hs =>
      cases call with
      | create => exact workerCreate_spec (.scheduled hs) hcall
      | yield =>
        obtain ⟨s', rfl, hthreads⟩ :=
          Scheduled.yield hcall (hs.congr rfl rfl rfl rfl rfl rfl rfl)
        exact ⟨s', none, rfl, hthreads⟩
      | exit valuePtr => exact hs.exit hsafe hcall
      | join thread v => exact hs.join hcall
      | lock mutex => exact hs.lock hsafe hcall
      | unlock mutex => exact hs.unlock hsafe hcall
      | mutexInit mutex =>
        obtain rfl := Option.some.inj hcall
        exact mutexInit_spec (.scheduled hs)
      | mutexDestroy mutex => exact mutexDestroy_spec (.scheduled hs) hcall
      | preempt =>
        change interruptHandler μ fuel s = some o at hcall
        unfold interruptHandler at hcall
        split_ifs at hcall
        · cases hcall
          exact ⟨s, none, rfl, .scheduled hs⟩
        · obtain ⟨s', rfl, hthreads⟩ := Scheduled.yield hcall hs
          exact ⟨s', none, rfl, hthreads⟩
  · obtain ⟨i, -, hj⟩ := Option.bind_eq_some_iff.1 hj
    cases hj
    exact ⟨_, _, rfl, hs.congr rfl rfl rfl rfl rfl rfl rfl⟩

/-- How often a list has a node of the thread. -/
def occurrences (h : Nodes) (l : List ℕ) (id : ℕ) : ℕ := (l.map (tcbOf h)).count (some id)

/-- The thread is in one place only: it runs, or the ready queue or the waiting queue has one node
of it, the lists being read from the head on; and its status says which. -/
def InOnePlace (s : State) (id : ℕ) : Prop :=
  ∃ R W t, Chain s.nodes Node.next s.readyQueue.head R ∧
    Chain s.nodes Node.next s.waitingQueue.head W ∧ s.tcbs id = some t ∧
    ((t.status = .running ∧ s.runningThread = some id ∧
        occurrences s.nodes R id = 0 ∧ occurrences s.nodes W id = 0) ∨
      (t.status = .ready ∧ s.runningThread ≠ some id ∧
        occurrences s.nodes R id = 1 ∧ occurrences s.nodes W id = 0) ∨
      (t.status = .blocked ∧ s.runningThread ≠ some id ∧
        occurrences s.nodes R id = 0 ∧ occurrences s.nodes W id = 1))

theorem occurrences_pos (hb : b ∈ L) (hid : tcbOf s.nodes b = some id) :
    0 < occurrences s.nodes L id :=
  List.count_pos_iff.2 (hid ▸ List.mem_map_of_mem hb)

theorem Scheduled.inOnePlace (hs : Scheduled s a id R W) {i : ℕ} (hi : s.live i = true) :
    InOnePlace s i := by
  have hq := hs.queues
  obtain ⟨b, hb, hbi⟩ := (hq.people.live i).1 hi
  obtain ⟨t, ht⟩ := Option.isSome_iff_exists.1 hi
  -- The thread has one node in the three lists together.
  have hone : occurrences s.nodes [a] i + (occurrences s.nodes R i + occurrences s.nodes W i) =
      1 := by
    unfold occurrences
    rw [← List.count_append, ← List.map_append, ← List.count_append, ← List.map_append]
    exact List.count_eq_one_of_mem hq.people.ids (hbi ▸ List.mem_map_of_mem hb)
  have hst := statusAt_eq hbi ht
  refine ⟨R, W, t, hq.ready.chain, hq.waiting.chain, ht, ?_⟩
  have hrun : b ≠ a → s.runningThread ≠ some i := fun hba h => by
    rw [hs.thread] at h
    exact hba (hq.node_unique hbi ((Option.some.inj h) ▸ hs.points))
  rcases List.mem_append.1 hb with hba | hb
  · have hpos := occurrences_pos hba hbi
    obtain rfl := List.mem_singleton.1 hba
    rw [hs.status, Option.some.injEq] at hst
    have hid : id = i := Option.some.inj (hs.points.symm.trans hbi)
    exact .inl ⟨hst.symm, hid ▸ hs.thread, by omega, by omega⟩
  rcases List.mem_append.1 hb with hbR | hbW
  · have hpos := occurrences_pos hbR hbi
    have hba : b ≠ a := fun h => (hq.apart.1 a List.mem_cons_self).1 (h ▸ hbR)
    rw [hq.isReady b hbR, Option.some.injEq] at hst
    exact .inr (.inl ⟨hst.symm, hrun hba, by omega, by omega⟩)
  · have hpos := occurrences_pos hbW hbi
    have hba : b ≠ a := fun h => (hq.apart.1 a List.mem_cons_self).2 (h ▸ hbW)
    rw [hq.isBlocked b hbW, Option.some.injEq] at hst
    exact .inr (.inr ⟨hst.symm, hrun hba, by omega, by omega⟩)

/-- Nothing has happened. -/
theorem queues_start : Queues State.start [] [] [] := by
  refine ⟨⟨rfl, rfl⟩, ⟨rfl, rfl⟩, ⟨List.nodup_nil, List.nodup_nil, fun a => ?_, fun id => ?_⟩,
    ?_, ?_, ?_, ?_⟩
  · simp [tcbOf, State.start]
  · simp [State.live, State.start]
  · simp
  · simp
  · simp
  · simp [State.live, State.start]

theorem threads_start : Threads State.start := .fresh queues_start rfl rfl

/-- **No thread is lost.** After a run of safe steps, every thread that was created and has not
exited is in one place, and no safe step ends the process. -/
theorem threads_in_one_place {es : List Label}
    (hr : Run (Guarded (fun u l => Safe u l.call) (Step μ)) State.start es s) :
    (∀ id, id < s.threadCount → ¬Exited es id → InOnePlace s id) ∧
      ∀ fuel call c, Safe s call → exec μ fuel s call ≠ some (.exit c) := by
  have hs : Threads s := by
    refine Run.invariant threads_start (fun t l u ht hstep => ?_) hr
    obtain ⟨hsafe, -, fuel, he⟩ := hstep
    obtain ⟨s', ret, heq, hs'⟩ := exec_threads ht hsafe he
    cases heq
    exact hs'
  refine ⟨fun id hid hlive => ?_, fun fuel call c hsafe he => ?_⟩
  · have hacc := run_accounted (hr.mono fun _ _ _ h => h.2)
    have hlive := (hacc.created id hid).resolve_right hlive
    cases hs with
    | fresh _ _ hcount => exact absurd (hcount ▸ hid) (Nat.not_lt_zero id)
    | scheduled hs => exact hs.inOnePlace hlive
  · obtain ⟨s', ret, heq, -⟩ := exec_threads hs hsafe he
    cases heq

/-- The main thread joins thread 1, which exits and releases it. -/
theorem threads_in_one_place_join :
    InOnePlace (after [.create, .join 1 false, .exit 0]) 0 := by
  have hr : Run (Guarded (fun u l => Safe u l.call) (Step (Malloc.bump Node))) .start
      [⟨0, .create, code 1⟩, ⟨0, .join 1 false, none⟩] (after [.create, .join 1 false]) :=
    run_of_follow (fun u l => Safe u l.call) 9 [.create, .join 1 false] rfl fun u l hl => by
      rcases List.mem_pair.1 hl with h | h <;> rw [h] <;> trivial
  have hsafe : Safe (after [.create, .join 1 false]) (.exit 0) := by
    intro id t hid ht
    cases hid
    cases ht
    exact ⟨fun _ _ _ _ => rfl, .inr ⟨Int.le_refl 0, _, rfl, rfl⟩⟩
  have hstep : Guarded (fun u l => Safe u l.call) (Step (Malloc.bump Node))
      (after [.create, .join 1 false]) ⟨1, .exit 0, none⟩
      (after [.create, .join 1 false, .exit 0]) := ⟨hsafe, rfl, 9, rfl⟩
  refine (threads_in_one_place (hr.snoc hstep)).1 0 (by decide) ?_
  rintro ⟨l, hl, hl0, v, hcall⟩
  simp only [List.cons_append, List.nil_append, List.mem_cons, List.not_mem_nil, or_false] at hl
  rcases hl with rfl | rfl | rfl
  · cases hcall
  · cases hcall
  · cases hl0

/-- Thread 2, which joins thread 3, is lost when thread 1 releases the main thread, which is the
first of the two in the waiting queue. -/
theorem thread_lost : ¬∀ es s, Run (Step (Malloc.bump Node)) State.start es s →
    ∀ id, id < s.threadCount → ¬Exited es id → InOnePlace s id := by
  intro hall
  have hr : Run (Guarded (fun _ _ => True) (Step (Malloc.bump Node))) .start
      [⟨0, .create, code 1⟩, ⟨0, .create, code 2⟩, ⟨0, .create, code 3⟩, ⟨0, .join 1 false, none⟩,
        ⟨1, .yield, none⟩, ⟨2, .join 3 false, none⟩, ⟨3, .yield, none⟩, ⟨1, .exit 0, none⟩]
      (after [.create, .create, .create, .join 1 false, .yield, .join 3 false, .yield, .exit 0]) :=
    run_of_follow (fun _ _ => True) 9 [.create, .create, .create, .join 1 false, .yield,
      .join 3 false, .yield, .exit 0] rfl fun _ _ _ => trivial
  obtain ⟨R, W, t, -, hW, ht, hplace⟩ := hall _ _ (hr.mono fun _ _ _ h => h.2) 2 (by decide) (by
    rintro ⟨l, hl, hthread, v, hcall⟩
    simp only [List.mem_cons, List.not_mem_nil, or_false] at hl
    rcases hl with rfl | rfl | rfl | rfl | rfl | rfl | rfl | rfl
    all_goals first | exact absurd hthread (by decide) | exact nomatch hcall)
  have hnil : W = [] := hW.eq_nil_iff.2 rfl
  have hst : t.status = .blocked := by
    cases ht
    rfl
  rw [hst, hnil] at hplace
  rcases hplace with ⟨h, -⟩ | ⟨h, -⟩ | ⟨-, -, -, h⟩ <;> cases h

end UserOS.Worker
