import UserOS.Worker.Join
import UserOS.Worker.Threads

/-!
# The wait lists of the mutexes

A thread that blocks on a mutex goes into the wait queue of the mutex and into the waiting queue
with one link, so that following a wait queue visits whatever blocked later. It visits the right
threads as long as those of one mutex are the last that wait.

* `Exact`: the waiting queue holds joiners first, and then the threads of one mutex.
* `wait_lists_exact`: in a run of steps that meet `ListSafe`, the list of each mutex visits the
  threads that are blocked on it, and an unlock makes ready these.
-/

namespace UserOS.Worker

open Lib

/-- The thread is `BLOCKED` on the mutex `k`. -/
def BlockedOn (s : State) (id k : ℕ) : Prop :=
  ∃ t, s.tcbs id = some t ∧ t.status = .blocked ∧ t.blockedFromMutex = some k

/-- The condition on the state before a call under which it keeps the wait lists exact: a join that
blocks finds no thread blocked on a mutex, a lock that blocks finds none blocked on another one and
some thread ready, and a mutex is not initialised while a thread is blocked on it; an exit is
`ExitSafe`, an unlock that releases `UnlockSafe`. -/
def ListSafe (s : State) : Call → Prop
  | .join thread _ => s.cont s.caller = .idle → ∀ fuel w,
      findReadyThreads fuel s thread = some true →
      s.tcbs thread = some w → w.waitingThread ≤ 0 → ∀ i k, ¬BlockedOn s i k
  | .lock mutex => ∀ id m, s.runningThread = some id → s.mutexes mutex = some m →
      m.isLocked = true → m.owner ≠ id →
      s.readyQueue.head ≠ none ∧ ∀ i k, BlockedOn s i k → k = mutex
  | .mutexInit mutex => ∀ i, ¬BlockedOn s i mutex
  | call => Safe s call

/-- The list of the wait queue `q` ends, and visits the threads that are blocked on the mutex, each
once. -/
def ListExact (s : State) (mutex : ℕ) (q : Queue) : Prop :=
  ∃ V, Chain s.nodes Node.next q.head V ∧ (V.map (tcbOf s.nodes)).Nodup ∧
    ∀ id, some id ∈ V.map (tcbOf s.nodes) ↔ BlockedOn s id mutex

variable {μ : Malloc Node} {s s' : State} {X R W J J' V : List ℕ} {a b id k mutex fuel : ℕ}
  {t : Tcb} {o : Outcome} {call : Call} {ret : Option Ret} {es : List Label} {l : Label}

/-! ## The invariant -/

/-- What `blocked_from_mutex` is for the thread of a node. -/
def originAt (s : State) (a : ℕ) : Option (Option ℕ) := do
  let id ← tcbOf s.nodes a
  let t ← s.tcbs id
  some t.blockedFromMutex

/-- The nodes `J` belong to joiners and the nodes `V` to threads that wait for the mutex `k`, whose
wait queue has their ends. No other wait queue has a node. -/
structure Exact (s : State) (J V : List ℕ) (k : ℕ) : Prop where
  joiners : ∀ a ∈ J, originAt s a = some none
  waiters : ∀ a ∈ V, originAt s a = some (some k)
  queue : V ≠ [] → ∃ m, s.mutexes k = some m ∧ m.isLocked = true ∧
    m.waitQueue = some ⟨V.head?, V.getLast?⟩
  others : ∀ i m q, s.mutexes i = some m → m.waitQueue = some q → i ≠ k ∨ V = [] → q.head = none
  idle : ∀ i t, s.tcbs i = some t → (∀ k, s.cont i ≠ .locking k) → t.blockedFromMutex = none
  owner : ∀ i k m, s.cont i = .locking k → s.mutexes k = some m → m.owner ≠ i

/-- Before the first call, or when a thread runs. -/
inductive WaitLists (s : State) : Prop
  | fresh : Queues s [] [] [] → s.runningThread = none → s.threadCount = 0 →
      Exact s [] [] 0 → WaitLists s
  | scheduled {a id k : ℕ} {R J V : List ℕ} : Scheduled s a id R (J ++ V) → Exact s J V k →
      WaitLists s

theorem originAt_eq (hid : tcbOf s.nodes a = some id) (ht : s.tcbs id = some t) :
    originAt s a = some t.blockedFromMutex := by
  simp [originAt, hid, ht]

theorem originAt_congr (hids : tcbOf s'.nodes a = tcbOf s.nodes a)
    (ht : ∀ i, tcbOf s.nodes a = some i →
      (s'.tcbs i).map Tcb.blockedFromMutex = (s.tcbs i).map Tcb.blockedFromMutex) :
    originAt s' a = originAt s a := by
  have hmap : ∀ u : State, originAt u a =
      (tcbOf u.nodes a).bind fun i => (u.tcbs i).map Tcb.blockedFromMutex := fun u => by
    unfold originAt
    cases tcbOf u.nodes a with
    | none => rfl
    | some i => cases h : u.tcbs i <;> simp [h]
  rw [hmap, hmap, hids]
  cases hid : tcbOf s.nodes a with
  | none => rfl
  | some i => exact ht i hid

/-- The mutexes are among the links. -/
theorem origin_of_links {x y : Option Tcb} (h : x.map Tcb.links = y.map Tcb.links) :
    x.map Tcb.blockedFromMutex = y.map Tcb.blockedFromMutex := by
  have hsnd := congrArg (Option.map Prod.snd) h
  rwa [Option.map_map, Option.map_map] at hsnd

theorem origin_update {f : ℕ → Option Tcb} {t : Tcb} (ht : f id = some t) (t' : Tcb)
    (hsame : t'.blockedFromMutex = t.blockedFromMutex) (i : ℕ) :
    (Function.update f id (some t') i).map Tcb.blockedFromMutex =
      (f i).map Tcb.blockedFromMutex := by
  by_cases hi : i = id
  · subst hi
    simp [ht, hsame]
  · rw [Function.update_of_ne hi]

theorem locking_of_update {c : Cont} {i j : ℕ} (hc : ∀ j, c ≠ .locking j)
    (h : Function.update s.cont id c i = .locking j) : s.cont i = .locking j := by
  by_cases hi : i = id
  · rw [hi, Function.update_self] at h
    exact absurd h (hc j)
  · rwa [Function.update_of_ne hi] at h

/-- The threads that wait for a mutex are blocked on it. -/
theorem Scheduled.blockedOn (hs : Scheduled s a id R (J ++ V)) (he : Exact s J V k) {i j : ℕ} :
    BlockedOn s i j ↔ ∃ b ∈ V, tcbOf s.nodes b = some i ∧ j = k := by
  constructor
  · rintro ⟨t, ht, hst, hj⟩
    obtain ⟨b, hb, hid⟩ := hs.queues.blocked_mem
      (by rw [hs.status]; exact fun h => Status.noConfusion (Option.some.inj h)) ht hst
    have horigin := originAt_eq hid ht
    rw [hj] at horigin
    rcases List.mem_append.1 hb with hJ | hV
    · rw [he.joiners b hJ] at horigin
      cases horigin
    · rw [he.waiters b hV] at horigin
      cases horigin
      exact ⟨b, hV, hid, rfl⟩
  · rintro ⟨b, hb, hid, rfl⟩
    obtain ⟨t, ht, hst⟩ := hs.queues.exists_blocked (List.mem_append_right J hb) hid
    have horigin := originAt_eq hid ht
    rw [he.waiters b hb] at horigin
    exact ⟨t, ht, hst, (Option.some.inj horigin).symm⟩

/-- The end of a list is a list. -/
theorem chain_append_right {h : Nodes} {p : Option ℕ} (hc : Chain h Node.next p (J ++ V)) :
    Chain h Node.next V.head? V := by
  obtain ⟨r, -, hr⟩ := Seg.append_iff.1 hc
  have hhead : r = V.head? := Chain.head?_eq hr
  exact hhead ▸ hr

/-- **Exactness** of a state. -/
theorem WaitLists.exact (hw : WaitLists s) {m : Mutex} {q : Queue} (hm : s.mutexes mutex = some m)
    (hq : m.waitQueue = some q) : ListExact s mutex q := by
  cases hw with
  | fresh hqs _ _ he =>
    refine ⟨[], he.others mutex m q hm hq (.inr rfl), List.nodup_nil, fun id => ?_⟩
    refine iff_of_false (by simp) ?_
    rintro ⟨t, ht, -⟩
    obtain ⟨b, hb, -⟩ := (hqs.people.live id).1 (by simp [State.live, ht])
    cases hb
  | @scheduled a id k R J V hs he =>
    by_cases hV : mutex = k ∧ V ≠ []
    · obtain ⟨rfl, hV⟩ := hV
      obtain ⟨m', hm', -, hq'⟩ := he.queue hV
      obtain rfl := Option.some.inj (hm.symm.trans hm')
      obtain rfl := Option.some.inj (hq.symm.trans hq')
      refine ⟨V, chain_append_right hs.queues.waiting.chain, ?_, fun i => ?_⟩
      · have hids := hs.queues.ids_waiting
        rw [List.map_append] at hids
        exact (List.nodup_append.1 hids).2.1
      · rw [hs.blockedOn he, List.mem_map]
        simp
    · have hV' : mutex ≠ k ∨ V = [] := by
        by_cases hk : mutex = k
        · exact .inr (not_not.1 fun hne => hV ⟨hk, hne⟩)
        · exact .inl hk
      refine ⟨[], he.others mutex m q hm hq hV', List.nodup_nil, fun i => ?_⟩
      refine iff_of_false (by simp) fun hb => ?_
      obtain ⟨b, hbV, -, hk⟩ := (hs.blockedOn he).1 hb
      exact hV ⟨hk, List.ne_nil_of_mem hbV⟩

/-! ## Calls -/

/-- What a call that leaves the mutexes alone keeps. -/
theorem Exact.frame (he : Exact s J V k) (hsub : ∀ a ∈ J', a ∈ J)
    (hat : ∀ a ∈ J' ++ V, originAt s' a = originAt s a) (hm : s'.mutexes = s.mutexes)
    (hcont : ∀ i k, s'.cont i = .locking k → s.cont i = .locking k)
    (hidle : ∀ i t', s'.tcbs i = some t' → (∀ k, s'.cont i ≠ .locking k) →
      t'.blockedFromMutex = none ∨ ((∀ k, s.cont i ≠ .locking k) ∧
        (s'.tcbs i).map Tcb.blockedFromMutex = (s.tcbs i).map Tcb.blockedFromMutex)) :
    Exact s' J' V k where
  joiners a ha := by
    rw [hat a (List.mem_append_left _ ha)]
    exact he.joiners a (hsub a ha)
  waiters a ha := by
    rw [hat a (List.mem_append_right _ ha)]
    exact he.waiters a ha
  queue := hm ▸ he.queue
  others := hm ▸ he.others
  idle i t' ht' hi := by
    rcases hidle i t' ht' hi with hnone | ⟨hi', hsame⟩
    · exact hnone
    · rw [ht', Option.map_some] at hsame
      obtain ⟨t, ht, heq⟩ := Option.map_eq_some_iff.1 hsame.symm
      rw [← heq]
      exact he.idle i t ht hi'
  owner i j m hi hj := he.owner i j m (hcont i j hi) (hm ▸ hj)

theorem Exact.congr (he : Exact s J V k) (hn : s'.nodes = s.nodes) (ht : s'.tcbs = s.tcbs)
    (hm : s'.mutexes = s.mutexes) (hc : s'.cont = s.cont) : Exact s' J V k :=
  he.frame (fun _ h => h) (fun a _ => originAt_congr (by rw [hn]) fun i _ => by rw [ht]) hm
    (fun i k h => hc ▸ h) fun i t' ht' hi => .inr ⟨fun k => hc ▸ hi k, by rw [ht]⟩

/-- A thread that is not blocked gives way. -/
theorem WaitLists.switch (hs : Scheduled s a id R (J ++ V)) (he : Exact s J V k)
    (hy : workerYield μ fuel s = some (.ok s' ret)) : WaitLists s' := by
  obtain ⟨s'', c, i, R', heq, hs', hids⟩ := hs.switch hy
  cases heq
  obtain ⟨t, ht, hst⟩ := hs.exists_tcb
  obtain ⟨-, next, hsw⟩ := workerYield_effect hy hs.thread ht
  have horigin : ∀ i, (s'.tcbs i).map Tcb.blockedFromMutex =
      (s.tcbs i).map Tcb.blockedFromMutex := fun i =>
    origin_of_links (hsw.links i (.inr (by rw [hst]; exact Status.noConfusion)))
  refine .scheduled hs' (he.frame (fun _ h => h)
    (fun b _ => originAt_congr (congrFun hids b) fun i _ => horigin i) (workerYield_kept hy).mutexes
    (fun i j h => hsw.cont ▸ h) fun i t' ht' hi => .inr ⟨fun j => hsw.cont ▸ hi j, horigin i⟩)

/-- The joiner that a thread names waits in `worker_join`. -/
theorem Exact.joiner (he : Exact s J V k) (hj : Joins s) (ht : s.tcbs id = some t)
    (hw : 0 ≤ t.waitingThread) : ∀ b ∈ V, tcbOf s.nodes b ≠ some t.waitingThread.toNat := by
  intro b hb hid
  obtain ⟨v, hv⟩ := hj.joiner id t ht hw
  obtain ⟨i, hi, horigin⟩ := Option.bind_eq_some_iff.1 (he.waiters b hb)
  obtain ⟨u, hu, hk⟩ := Option.bind_eq_some_iff.1 horigin
  obtain rfl := Option.some.inj (hi.symm.trans hid)
  rw [he.idle _ u hu fun j hc => by rw [hv] at hc; cases hc] at hk
  cases hk

/-- The switch of a thread that exits. -/
theorem exit_yield {valuePtr : ℕ} (hid : s.runningThread = some id) (ht : s.tcbs id = some t)
    (hx : workerExit μ fuel s valuePtr = some (.ok s' ret)) : ∃ rv, workerYield μ fuel
      { s.setTcb id { t with status := .finished } with
        returnValues := rv, interruptDisabled := true } = some (.ok s' ret) := by
  unfold workerExit at hx
  rw [hid, Option.bind_eq_bind, Option.bind_some, ht, Option.bind_eq_bind, Option.bind_some] at hx
  split_ifs at hx <;> first | exact ⟨_, hx⟩ | cases hx

/-- A thread exits. -/
theorem WaitLists.exit {valuePtr : ℕ} (hs : Scheduled s a id R (J ++ V)) (he : Exact s J V k)
    (hj : Joins s) (hsafe : Safe s (.exit valuePtr))
    (hx : workerExit μ fuel s valuePtr = some (.ok s' ret)) : WaitLists s' := by
  obtain ⟨t, ht, -⟩ := hs.exists_tcb
  obtain ⟨s'', c, i, R', heq, hs', hids⟩ := hs.finish ht (hsafe id t hs.thread ht) hx
  cases heq
  have hstay : ∀ b ∈ V, stays s t b = true := by
    intro b hb
    by_cases hw : 0 ≤ t.waitingThread
    · simp [stays, he.joiner hj ht hw b hb]
    · simp [stays, Int.not_le.1 hw]
  rw [List.filter_append, List.filter_eq_self.2 hstay] at hs'
  obtain ⟨rv, hy⟩ := exit_yield hs.thread ht hx
  obtain ⟨-, next, hsw⟩ := workerYield_effect hy hs.thread (Function.update_self ..)
  have hyield := (workerYield_kept hy).mutexes
  have hm : s'.mutexes = s.mutexes := hyield
  have horigin : ∀ i, i ≠ id → (s'.tcbs i).map Tcb.blockedFromMutex =
      (s.tcbs i).map Tcb.blockedFromMutex := by
    intro i hi
    rw [origin_of_links (hsw.links i (.inl hi))]
    exact congrArg _ (Function.update_of_ne hi _ _)
  refine .scheduled hs' (he.frame (fun b hb => (List.mem_filter.1 hb).1) (fun b hb => ?_)
    hm (fun i j h => hsw.cont ▸ h) fun i t' ht' hi => ?_)
  · have hb' : b ∈ J ++ V := by
      rcases List.mem_append.1 hb with hb | hb
      · exact List.mem_append_left _ (List.mem_filter.1 hb).1
      · exact List.mem_append_right _ hb
    have hba : b ≠ a := fun heq => (hs.queues.apart.1 a List.mem_cons_self).2 (heq ▸ hb')
    refine originAt_congr (hids b hba) fun i hi => horigin i fun heq => hba ?_
    exact hs.queues.node_unique (heq ▸ hi) hs.points
  · have hii : i ≠ id := fun heq => by
      rw [heq, hsw.gone rfl] at ht'
      cases ht'
    exact .inr ⟨fun j => hsw.cont ▸ hi j, horigin i hii⟩

/-- A thread blocks in `worker_join`. -/
theorem WaitLists.join {thread : ℕ} {v : Bool} {w : Tcb} (hs : Scheduled s a id R (J ++ V))
    (he : Exact s J V k) (hidle : s.cont id = .idle) (hnone : V = [])
    (hw : s.tcbs thread = some w) (hne : thread ≠ id) (hhead : s.readyQueue.head ≠ none)
    (hpos : ¬w.waitingThread > 0)
    (hj : joinReady μ fuel s thread v id a w = some (.ok s' ret)) : WaitLists s' := by
  unfold joinReady at hj
  rw [if_neg hpos] at hj
  dsimp only at hj
  obtain ⟨t, ht, hj⟩ := Option.bind_eq_some_iff.1 hj
  obtain ⟨s₁, henq, hy⟩ := Option.bind_eq_some_iff.1 hj
  have hq := (hs.queues.setTcb_of_status hw { w with waitingThread := id } rfl).setTcb
    List.mem_cons_self hs.points { t with status := .blocked, waitingFor := thread }
  obtain ⟨s'', c, i, R', heq, hs', hids⟩ := Scheduled.block henq hy
    (hq.congr rfl rfl rfl rfl rfl) hs.node hs.thread hs.points (Function.update_self ..) rfl hhead
  cases heq
  have hids : tcbOf s'.nodes = tcbOf s.nodes := hids
  obtain ⟨⟨h, q⟩, -, hs₁⟩ := Option.bind_eq_some_iff.1 henq
  obtain rfl := Option.some.inj hs₁
  obtain ⟨-, next, hsw⟩ := workerYield_effect hy hs.thread (Function.update_self ..)
  have hyield := (workerYield_kept hy).mutexes
  have hm : s'.mutexes = s.mutexes := hyield
  have ht' : s.tcbs id = some t := (Function.update_of_ne (Ne.symm hne) _ _).symm.trans ht
  have horigin : ∀ i, (s'.tcbs i).map Tcb.blockedFromMutex =
      (s.tcbs i).map Tcb.blockedFromMutex := by
    intro i
    rw [origin_of_links (hsw.links i (.inr Status.noConfusion)),
      ← origin_update hw { w with waitingThread := id } rfl i]
    refine origin_update ht _ ?_ i
    rfl
  subst hnone
  rw [List.append_nil] at hs'
  have hcont : ∀ i j, s'.cont i = .locking j → s.cont i = .locking j := by
    intro i j h
    rw [hsw.cont] at h
    exact locking_of_update (fun _ => Cont.noConfusion) h
  have hself : originAt s' a = some none := by
    rw [originAt_congr (congrFun hids a) fun i _ => horigin i]
    exact (originAt_eq hs.points ht').trans
      (congrArg some (he.idle id t ht' fun j h => by rw [hidle] at h; cases h))
  have he' : Exact s' J [] k := he.frame (fun _ h => h)
    (fun b _ => originAt_congr (congrFun hids b) fun i _ => horigin i) hm hcont
    fun i t' ht' hi => .inr ⟨fun j h => ?_, horigin i⟩
  · refine .scheduled (J := J ++ [a]) (V := []) (by rwa [List.append_nil]) { he' with
      joiners := fun b hb => ?_ }
    rcases List.mem_append.1 hb with hb | hb
    · exact he'.joiners b hb
    · exact List.mem_singleton.1 hb ▸ hself
  · -- The caller was in no lock.
    have hii : i ≠ id := fun heq => by
      rw [heq, hidle] at h
      cases h
    refine hi j ?_
    rw [hsw.cont]
    exact (Function.update_of_ne hii _ _).trans h

/-- A thread finds the mutex taken and blocks on it. -/
theorem WaitLists.block {m : Mutex} (hs : Scheduled s a id R (J ++ V)) (he : Exact s J V k)
    (hmutex : s.mutexes mutex = some m) (hlocked : m.isLocked = true) (howner : m.owner ≠ id)
    (hhead : s.readyQueue.head ≠ none) (hsafe : ∀ i j, BlockedOn s i j → j = mutex)
    (hl : lockBlock μ fuel s mutex m id a t = some (.ok s' ret)) : WaitLists s' := by
  have hk : V ≠ [] → k = mutex := by
    intro hV
    obtain ⟨b, hb⟩ := List.exists_mem_of_ne_nil V hV
    obtain ⟨i, u, hi, hu⟩ := hs.queues.exists_tcb (a := b) (by simp [hb])
    exact hsafe i k ((hs.blockedOn he).2 ⟨b, hb, hi, rfl⟩)
  have hqueue : ∀ q, m.waitQueue = some q → q.head = V.head? ∧ (V ≠ [] → q.tail = V.getLast?) := by
    intro q hq
    by_cases hV : V = []
    · refine ⟨?_, fun hne => absurd hV hne⟩
      rw [he.others mutex m q hmutex hq (.inr hV), hV]
      rfl
    · obtain ⟨m', hm', -, hq'⟩ := he.queue hV
      obtain rfl := Option.some.inj ((hk hV ▸ hmutex).symm.trans hm')
      obtain rfl := Option.some.inj (hq.symm.trans hq')
      exact ⟨rfl, fun _ => rfl⟩
  have hlockSafe : LockSafe s m := by
    refine ⟨hhead, fun q hq => ?_⟩
    by_cases hV : V = []
    · exact .inl ((hqueue q hq).1.trans (by rw [hV]; rfl))
    · refine .inr ?_
      rw [(hqueue q hq).2 hV, hs.queues.waiting.tail, List.getLast?_append_of_ne_nil _ hV]
      exact ⟨fun h => hV (List.getLast?_eq_none_iff.1 h), rfl⟩
  obtain ⟨s'', c, i, R', heq, hs', hids⟩ := hs.lockBlock hlockSafe hl
  cases heq
  unfold lockBlock at hl
  obtain ⟨q, hq, hl⟩ := Option.bind_eq_some_iff.1 hl
  obtain ⟨⟨h', q'⟩, henq, hl⟩ := Option.bind_eq_some_iff.1 hl
  obtain ⟨s₁, henq₁, hy⟩ := Option.bind_eq_some_iff.1 hl
  obtain ⟨⟨h, w⟩, -, hs₁⟩ := Option.bind_eq_some_iff.1 henq₁
  obtain rfl := Option.some.inj hs₁
  obtain ⟨rfl, -⟩ := enqueue_ends henq
  obtain ⟨-, next, hsw⟩ := workerYield_effect hy hs.thread (Function.update_self ..)
  have hyield := (workerYield_kept hy).mutexes
  have hm : s'.mutexes = Function.update s.mutexes mutex
      (some { m with waitQueue := some ⟨q.head.or (some a), some a⟩ }) := hyield
  have horigin : ∀ i, i ≠ id → (s'.tcbs i).map Tcb.blockedFromMutex =
      (s.tcbs i).map Tcb.blockedFromMutex := by
    intro i hi
    exact (origin_of_links (hsw.links i (.inr Status.noConfusion))).trans
      (congrArg (Option.map Tcb.blockedFromMutex) (Function.update_of_ne hi _ _))
  have hself : originAt s' a = some (some mutex) := by
    have hlinks := (origin_of_links (hsw.links id (.inr Status.noConfusion))).trans
      (congrArg (Option.map Tcb.blockedFromMutex) (Function.update_self ..))
    obtain ⟨u, hu, hk⟩ := Option.map_eq_some_iff.1 hlinks
    have hk : u.blockedFromMutex = some mutex := hk
    exact (originAt_eq ((congrFun hids a).trans hs.points) hu).trans (congrArg some hk)
  have hother : ∀ b ∈ J ++ V, originAt s' b = originAt s b := fun b hb =>
    originAt_congr (congrFun hids b) fun i hi => horigin i fun heq => by
      have hba := hs.queues.node_unique (heq ▸ hi) hs.points
      exact (hs.queues.apart.1 a List.mem_cons_self).2 (hba ▸ hb)
  have hcont : s'.cont = Function.update s.cont id (.locking mutex) := hsw.cont
  refine .scheduled (J := J) (V := V ++ [a]) (k := mutex) (by rwa [← List.append_assoc]) {
    joiners := fun b hb => (hother b (List.mem_append_left _ hb)).trans (he.joiners b hb)
    waiters := fun b hb => ?_
    queue := fun _ => ⟨_, (congrFun hm mutex).trans (Function.update_self ..), hlocked, ?_⟩
    others := fun i m' q'' hm' hq'' hi => ?_
    idle := fun i t' ht' hi => ?_
    owner := fun i j m' hi hj => ?_ }
  · rcases List.mem_append.1 hb with hb | hb
    · rw [hother b (List.mem_append_right _ hb), he.waiters b hb, hk (List.ne_nil_of_mem hb)]
    · rw [List.mem_singleton.1 hb, hself]
  · rw [(hqueue q hq).1, List.getLast?_concat]
    cases V <;> rfl
  · have hi' : i ≠ mutex := hi.resolve_right (by simp)
    rw [hm, Function.update_of_ne hi'] at hm'
    refine he.others i m' q'' hm' hq'' ?_
    by_cases hV : V = []
    · exact .inr hV
    · exact .inl fun heq => hi' (heq.trans (hk hV))
  · have hii : i ≠ id := fun heq => hi mutex (by rw [hcont, heq, Function.update_self])
    have hsame := horigin i hii
    rw [ht', Option.map_some] at hsame
    obtain ⟨u, hu, heq⟩ := Option.map_eq_some_iff.1 hsame.symm
    rw [← heq]
    refine he.idle i u hu fun j h => hi j ?_
    rw [hcont, Function.update_of_ne hii, h]
  · rw [hm] at hj
    rw [hcont] at hi
    by_cases hj' : j = mutex
    · subst hj'
      rw [Function.update_self] at hj
      rw [← Option.some.inj hj]
      by_cases hii : i = id
      · exact hii ▸ howner
      · rw [Function.update_of_ne hii] at hi
        exact he.owner i j m hi hmutex
    · rw [Function.update_of_ne hj'] at hj
      by_cases hii : i = id
      · rw [hii, Function.update_self] at hi
        cases hi
        exact absurd rfl hj'
      · rw [Function.update_of_ne hii] at hi
        exact he.owner i j m' hi hj

/-- A mutex whose queue is empty is stored. -/
theorem Exact.setMutex {m : Mutex} (he : Exact s J V k) (hne : mutex ≠ k ∨ V = [])
    (hq : ∀ q, m.waitQueue = some q → q.head = none)
    (howner : ∀ i, s.cont i = .locking mutex → m.owner ≠ i) :
    Exact (s.setMutex mutex m) J V k where
  joiners := he.joiners
  waiters := he.waiters
  queue hV := by
    obtain ⟨m', hm', hrest⟩ := he.queue hV
    have hk : k ≠ mutex := fun heq => hne.elim (fun h => h heq.symm) hV
    exact ⟨m', (Function.update_of_ne hk _ _).trans hm', hrest⟩
  others i m' q hm' hq' hi := by
    by_cases him : i = mutex
    · rw [him] at hm'
      obtain rfl : m = m' := by simpa [State.setMutex] using hm'
      exact hq q hq'
    · exact he.others i m' q ((Function.update_of_ne him _ _).symm.trans hm') hq' hi
  idle := he.idle
  owner i j m' hi hj := by
    by_cases hjm : j = mutex
    · rw [hjm] at hi hj
      obtain rfl : m = m' := by simpa [State.setMutex] using hj
      exact howner i hi
    · exact he.owner i j m' hi ((Function.update_of_ne hjm _ _).symm.trans hj)

/-- The running thread leaves its call. -/
theorem Exact.leave {b : Bool} (he : Exact s J V k)
    (hno : ∀ t, s.tcbs id = some t → t.blockedFromMutex = none) :
    Exact { s with interruptDisabled := b, cont := Function.update s.cont id .idle } J V k := by
  refine he.frame (fun _ h => h) (fun _ _ => rfl) rfl
    (fun i j hc => locking_of_update (fun _ => Cont.noConfusion) hc) fun i t ht hi => ?_
  by_cases hid : i = id
  · exact .inl (hno t (hid ▸ ht))
  · exact .inr ⟨fun j hc => hi j ((Function.update_of_ne hid _ _).trans hc), rfl⟩

/-- A thread finds the mutex free and takes it. -/
theorem Exact.take {m : Mutex} (hs : Scheduled s a id R (J ++ V)) (he : Exact s J V k)
    (hmutex : s.mutexes mutex = some m) (hfree : m.isLocked = false)
    (htake : lockTake s mutex m id t = .ok s' ret) : Exact s' J V k := by
  cases htake
  have hne : mutex ≠ k ∨ V = [] := by
    by_cases hV : V = []
    · exact .inr hV
    · obtain ⟨m', hm', hlocked, -⟩ := he.queue hV
      refine .inl fun heq => ?_
      obtain rfl := Option.some.inj ((heq ▸ hmutex).symm.trans hm')
      rw [hfree] at hlocked
      cases hlocked
  have he₁ : Exact { s.setTcb id { t with blockedFromMutex := none, mutexBlocked := false } with
      cont := Function.update s.cont id .idle } J V k := by
    refine he.frame (fun _ h => h) (fun b hb => ?_) rfl
      (fun i j hc => locking_of_update (fun _ => Cont.noConfusion) hc) fun i u hu hi => ?_
    · refine originAt_congr rfl fun i hi => ?_
      have hid : i ≠ id := fun heq => by
        have hba := hs.queues.node_unique (heq ▸ hi) hs.points
        exact (hs.queues.apart.1 a List.mem_cons_self).2 (hba ▸ hb)
      exact congrArg (Option.map Tcb.blockedFromMutex) (Function.update_of_ne hid _ _)
    · by_cases hid : i = id
      · rw [hid] at hu
        obtain rfl : { t with blockedFromMutex := none, mutexBlocked := false } = u := by
          simpa [State.setTcb] using hu
        exact .inl rfl
      · refine .inr ⟨fun j hc => hi j ((Function.update_of_ne hid _ _).trans hc), ?_⟩
        exact congrArg (Option.map Tcb.blockedFromMutex) (Function.update_of_ne hid _ _)
  refine he₁.setMutex (m := { m with isLocked := true, owner := id }) hne
    (fun q hq => he.others mutex m q hmutex hq hne) fun i hi howner => ?_
  -- The thread itself is in no lock any more.
  have hii : (i : ℤ) = id := howner.symm
  rw [Int.natCast_inj.1 hii] at hi
  cases (Function.update_self ..).symm.trans hi

/-- `worker_mutex_lock`. -/
theorem WaitLists.lock (hs : Scheduled s a id R (J ++ V)) (he : Exact s J V k)
    (hcont : s.cont id = .idle ∨ s.cont id = .locking mutex) (hsafe : ListSafe s (.lock mutex))
    (hl : workerMutexLock μ fuel s mutex = some (.ok s' ret)) : WaitLists s' := by
  obtain ⟨i, hi, hl⟩ := Option.bind_eq_some_iff.1 hl
  obtain rfl := Option.some.inj (hs.thread.symm.trans hi)
  obtain ⟨b, hb, hl⟩ := Option.bind_eq_some_iff.1 hl
  obtain rfl := Option.some.inj (hs.node.symm.trans hb)
  obtain ⟨m, hm, hl⟩ := Option.bind_eq_some_iff.1 hl
  obtain ⟨t, ht, hl⟩ := Option.bind_eq_some_iff.1 hl
  split_ifs at hl with hlocked howner
  · cases hl
    have hidle : s.cont id = .idle :=
      hcont.resolve_right fun hc => he.owner id mutex m hc hm howner
    refine .scheduled (hs.congr rfl rfl rfl rfl rfl rfl rfl) (he.leave fun u hu => ?_)
    exact he.idle id u hu fun j hc => by rw [hidle] at hc; cases hc
  · obtain ⟨hhead, hsame⟩ := hsafe id m hs.thread hm hlocked howner
    exact WaitLists.block hs he hm hlocked howner hhead hsame hl
  · have hst := statusAt_setTcb_of_status ht
      { t with blockedFromMutex := none, mutexBlocked := false } rfl
    have hq := hs.queues.setTcb_of_status ht
      { t with blockedFromMutex := none, mutexBlocked := false } rfl
    have he' := Exact.take hs he hm (by simpa using hlocked) (Option.some.inj hl)
    cases hl
    exact .scheduled ⟨hq.congr rfl rfl rfl rfl rfl, hs.node, hs.thread, hs.points,
      (congrFun hst a).trans hs.status⟩ he'

/-- What an unlock does to the threads: those that are blocked on the mutex become ready, and no
other one changes. -/
def UnlockExact (s : State) (mutex : ℕ) (s' : State) : Prop :=
  ∀ id, (BlockedOn s id mutex → (s'.tcbs id).map Tcb.status = some .ready) ∧
    (¬BlockedOn s id mutex → s'.tcbs id = s.tcbs id)

/-- The loop of an unlock takes the threads that wait for the mutex. -/
theorem Scheduled.release {m : Mutex} {q : Queue} {s₁ : State} {ids : List ℕ}
    (hs : Scheduled s a id R (J ++ V)) (hV : V ≠ []) (hq : q.head = V.head?)
    (hsafe : UnlockSafe s q)
    (hloop : unblockThreads fuel (s.setMutex mutex m) q = some (s₁, ids)) :
    Scheduled s₁ a id (R ++ V) J ∧ Releases ids (s.setMutex mutex m) s₁ ∧
      V.map (tcbOf s.nodes) = ids.map some := by
  have hs₁ : Scheduled (s.setMutex mutex m) a id R (J ++ V) :=
    hs.congr rfl rfl rfl rfl rfl rfl rfl
  have hne : J ≠ [] ∨ V.length ≤ 1 := by
    by_cases hJ : J = []
    · right
      have hnd := hs.queues.waiting.chain.nodup
      have hhead := hs.queues.waiting.chain.head?_eq
      have hlast := hs.queues.waiting.tail
      rw [hJ, List.nil_append] at hnd hhead hlast
      have hone := hsafe.resolve_left fun h => h (hq.trans hhead.symm)
      obtain ⟨b, V, rfl⟩ := List.exists_cons_of_ne_nil hV
      rw [hhead, hlast, List.head?_cons] at hone
      simp [eq_nil_of_getLast hnd hone.symm]
    · exact .inl hJ
  unfold unblockThreads at hloop
  obtain ⟨hq', hst, l, hl, hids⟩ := unblockLoop_waiting V hs₁.queues hq hne hloop
  obtain ⟨l', hl', hrel⟩ := unblockLoop_releases hloop
  rw [List.nil_append] at hl hl'
  subst hl' hl
  obtain ⟨h, r, w, u, heq⟩ := hrel.rest
  refine ⟨⟨hq', ?_, ?_, (congrFun hrel.points a).trans hs.points,
    (hst a List.mem_cons_self).trans hs₁.status⟩, hrel, hids⟩
  · rw [heq]
    exact hs.node
  · rw [heq]
    exact hs.thread

/-- A thread that waits for a mutex joins none. -/
theorem Exact.not_joins (he : Exact s J V k) (hb : b ∈ V) (hid : tcbOf s.nodes b = some id)
    (thread : ℕ) : ¬JoinsLive s id thread := by
  rintro ⟨⟨v, hv⟩, -⟩
  obtain ⟨i, hi, horigin⟩ := Option.bind_eq_some_iff.1 (he.waiters b hb)
  obtain ⟨u, hu, hk⟩ := Option.bind_eq_some_iff.1 horigin
  obtain rfl := Option.some.inj (hi.symm.trans hid)
  rw [he.idle _ u hu fun j hc => by rw [hv] at hc; cases hc] at hk
  cases hk

/-- After an unlock no thread waits for a mutex. -/
theorem Exact.release {m : Mutex} {s₁ : State} {ids : List ℕ} (he : Exact s J V mutex)
    (hrel : Releases ids (s.setMutex mutex m.unlocked) s₁) :
    Exact (s₁.setMutex mutex { m.unlocked with waitQueue := some .empty }) J [] mutex := by
  obtain ⟨h, r, w, u, heq⟩ := hrel.rest
  have hcont : s₁.cont = s.cont := by rw [heq]; rfl
  have hmutexes : s₁.mutexes = Function.update s.mutexes mutex (some m.unlocked) :=
    hrel.kept.mutexes
  have horigin : ∀ i, (s₁.tcbs i).map Tcb.blockedFromMutex =
      (s.tcbs i).map Tcb.blockedFromMutex := fun i => origin_of_links (hrel.links i)
  refine {
    joiners := fun b hb => (originAt_congr (congrFun hrel.points b) fun i _ => horigin i).trans
      (he.joiners b hb)
    waiters := fun b hb => (nomatch hb)
    queue := fun hne => absurd rfl hne
    others := fun i m' q hm' hq' hi => ?_
    idle := fun i t' ht' hi => ?_
    owner := fun i j m' hi hj => ?_ }
  · by_cases him : i = mutex
    · rw [him] at hm'
      obtain rfl : { m.unlocked with waitQueue := some .empty } = m' := by
        simpa [State.setMutex] using hm'
      cases hq'
      rfl
    · have hi' : s.mutexes i = some m' := by
        simpa [State.setMutex, Function.update_of_ne him, hmutexes] using hm'
      exact he.others i m' q hi' hq' (.inl him)
  · have hsame := horigin i
    have ht₁ : s₁.tcbs i = some t' := ht'
    rw [ht₁, Option.map_some] at hsame
    obtain ⟨t, ht, heq'⟩ := Option.map_eq_some_iff.1 hsame.symm
    rw [← heq']
    exact he.idle i t ht fun j hc => hi j (by rw [← hcont] at hc; exact hc)
  · have hi' : s.cont i = .locking j := by rw [← hcont]; exact hi
    by_cases hjm : j = mutex
    · rw [hjm] at hj
      obtain rfl : { m.unlocked with waitQueue := some .empty } = m' := by
        simpa [State.setMutex] using hj
      exact fun h => by cases h
    · have hj' : s.mutexes j = some m' := by
        simpa [State.setMutex, Function.update_of_ne hjm, hmutexes] using hj
      exact he.owner i j m' hi' hj'

/-- **Unlock.** It makes ready the threads that are blocked on the mutex. -/
theorem WaitLists.unlock (hs : Scheduled s a id R (J ++ V)) (he : Exact s J V k)
    (hsafe : Safe s (.unlock mutex))
    (hu : workerMutexUnlock fuel s mutex = some (.ok s' ret)) :
    WaitLists s' ∧ (ret = code 0 → UnlockExact s mutex s') := by
  obtain ⟨i, hi, hu⟩ := Option.bind_eq_some_iff.1 hu
  obtain rfl := Option.some.inj (hs.thread.symm.trans hi)
  obtain ⟨m, hm, hu⟩ := Option.bind_eq_some_iff.1 hu
  split_ifs at hu with hnot
  · cases hu
    exact ⟨.scheduled hs he, fun h => by cases h⟩
  rw [Bool.or_eq_true, not_or] at hnot
  have hlocked : m.isLocked = true := by simpa using hnot.1
  have howner : m.owner = id := by simpa using hnot.2
  obtain ⟨q, hq, hu⟩ := Option.bind_eq_some_iff.1 hu
  by_cases hV : mutex ≠ k ∨ V = []
  · -- No thread is blocked on the mutex.
    have hhead := he.others mutex m q hm hq hV
    simp only [hhead] at hu
    cases hu
    have hfree : ∀ j, s.cont j = .locking mutex → m.unlocked.owner ≠ j := by
      intro j _ h
      cases h
    refine ⟨.scheduled (hs.congr rfl rfl rfl rfl rfl rfl rfl)
      (he.setMutex hV (fun q' hq' => ?_) hfree), fun _ j => ⟨fun hb => ?_, fun _ => rfl⟩⟩
    · exact he.others mutex m q' hm hq' hV
    · obtain ⟨b, hb, -, hk⟩ := (hs.blockedOn he).1 hb
      exact absurd (List.ne_nil_of_mem hb) fun hne => hV.elim (fun h => h hk) hne
  · rw [not_or, not_not] at hV
    obtain ⟨rfl, hV⟩ := hV
    obtain ⟨m', hm', -, hq'⟩ := he.queue hV
    obtain rfl := Option.some.inj (hm.symm.trans hm')
    obtain rfl := Option.some.inj (hq.symm.trans hq')
    obtain ⟨b, V', rfl⟩ := List.exists_cons_of_ne_nil hV
    simp only [List.head?_cons] at hu
    obtain ⟨⟨s₁, ids⟩, hloop, hu⟩ := Option.bind_eq_some_iff.1 hu
    cases hu
    have hunlock := hsafe id m _ hs.thread hm hlocked howner hq
    obtain ⟨hs₁, hrel, hids⟩ := hs.release hV rfl hunlock hloop
    refine ⟨.scheduled (J := J) (V := []) (by
      rw [List.append_nil]
      exact hs₁.congr rfl rfl rfl rfl rfl rfl rfl) (he.release hrel), fun _ j => ?_⟩
    have hmem : BlockedOn s j mutex ↔ j ∈ ids := by
      rw [hs.blockedOn he]
      have hiff : some j ∈ (b :: V').map (tcbOf s.nodes) ↔ j ∈ ids := by
        rw [hids]
        simp
      rw [← hiff, List.mem_map]
      exact ⟨fun ⟨b, hb, hid, _⟩ => ⟨b, hb, hid⟩, fun ⟨b, hb, hid⟩ => ⟨b, hb, hid, rfl⟩⟩
    refine ⟨fun hb => ?_, fun hb => hrel.others j (fun h => hb (hmem.2 h))⟩
    obtain ⟨c, hc, hid, -⟩ := (hs.blockedOn he).1 hb
    have hid₁ : tcbOf s₁.nodes c = some j := (congrFun hrel.points c).trans hid
    obtain ⟨j', t, hj', ht⟩ := hs₁.queues.exists_tcb
      (List.mem_append_right [a] (List.mem_append_left J (List.mem_append_right R hc)))
    obtain rfl := Option.some.inj (hj'.symm.trans hid₁)
    have hready := hs₁.queues.isReady c (List.mem_append_right R hc)
    rw [statusAt_eq hid₁ ht] at hready
    exact (congrArg (Option.map Tcb.status) ht).trans hready

/-! ## Steps -/

/-- A new thread is blocked on no mutex. -/
theorem create_tcbs (hc : workerCreate μ fuel s = some (.ok s' ret)) (i : ℕ) {u : Tcb}
    (hu : s'.tcbs i = some u) : s.tcbs i = some u ∨ u.blockedFromMutex = none := by
  obtain ⟨s₁, hmain, hc⟩ := Option.bind_eq_some_iff.1 hc
  have hfirst : s₁.tcbs i = some u → s.tcbs i = some u ∨ u.blockedFromMutex = none := by
    intro h
    unfold ensureMain at hmain
    split_ifs at hmain
    · obtain ⟨⟨s₂, a⟩, hnode, hmain⟩ := Option.bind_eq_some_iff.1 hmain
      obtain ⟨-, rfl⟩ := createNode_eq hnode
      cases hmain
      by_cases hi : i = s.threadCount
      · rw [hi] at h
        cases (Function.update_self ..).symm.trans h
        exact .inr rfl
      · exact .inl ((Function.update_of_ne hi _ _).symm.trans h)
    · cases hmain
      exact .inl h
  obtain ⟨⟨s₂, a⟩, hnode, hc⟩ := Option.bind_eq_some_iff.1 hc
  obtain ⟨s₃, henq, hret⟩ := Option.bind_eq_some_iff.1 hc
  obtain ⟨-, rfl⟩ := createNode_eq hnode
  obtain ⟨⟨h, q⟩, -, henq⟩ := Option.bind_eq_some_iff.1 henq
  cases henq
  cases hret
  by_cases hi : i = s₁.threadCount
  · rw [hi] at hu
    cases (Function.update_self ..).symm.trans hu
    exact .inr rfl
  · exact hfirst ((Function.update_of_ne hi _ _).symm.trans hu)

/-- New threads are in no wait queue. -/
theorem Exact.create (he : Exact s J V k) (hc : workerCreate μ fuel s = some (.ok s' ret))
    (hkeep : ∀ c ∈ J ++ V, tcbOf s'.nodes c = tcbOf s.nodes c)
    (hbound : ∀ c ∈ J ++ V, ∀ i, tcbOf s.nodes c = some i → i < s.threadCount) :
    Exact s' J V k := by
  have hnew := create_effect hc
  refine he.frame (fun _ h => h) (fun b hb => ?_) (workerCreate_kept hc).mutexes
    (fun i j h => hnew.cont ▸ h) fun i t ht hi => ?_
  · exact originAt_congr (hkeep b hb) fun i hi => by rw [hnew.old i (.inl (hbound b hb i hi))]
  · rcases create_tcbs hc i ht with hold | hnone
    · exact .inr ⟨fun j => hnew.cont ▸ hi j, by rw [ht, hold]⟩
    · exact .inl hnone

/-- `worker_create`. -/
theorem WaitLists.create (hw : WaitLists s)
    (hc : workerCreate μ fuel s = some (.ok s' ret)) : WaitLists s' := by
  obtain ⟨s₁, hmain, hthread⟩ := Option.bind_eq_some_iff.1 hc
  unfold ensureMain at hmain
  cases hw with
  | fresh hq _ hcount he =>
    rw [if_pos hcount] at hmain
    obtain ⟨a, id, hs₁⟩ := createMain_spec hq hmain
    obtain ⟨s₂, r, b, heq, hs₂, -⟩ := createThread_scheduled hs₁ hthread
    cases heq
    exact .scheduled (J := []) (V := []) hs₂
      (he.create hc (fun _ h => (nomatch h)) fun _ h => (nomatch h))
  | @scheduled a id k R J V hs he =>
    obtain ⟨t, ht, -⟩ := hs.exists_tcb
    have hlt := hs.queues.bound id (by simp [State.live, ht])
    rw [if_neg (Nat.ne_of_gt (Nat.lt_of_le_of_lt (Nat.zero_le id) hlt)), Option.some.injEq] at hmain
    obtain ⟨s₂, r, b, heq, hs₂, hkeep, -⟩ := createThread_scheduled hs (hmain ▸ hthread)
    cases heq
    have hone : ∀ c ∈ J ++ V, ∃ i u, tcbOf s.nodes c = some i ∧ s.tcbs i = some u := fun c hc =>
      hs.queues.exists_tcb (List.mem_append_right _ (List.mem_append_right _ hc))
    refine .scheduled hs₂ (he.create hc (fun c hc => ?_) fun c hc i hi => ?_)
    · obtain ⟨i, u, hi, -⟩ := hone c hc
      exact hkeep c (by rw [hi]; exact Option.some_ne_none i)
    · obtain ⟨j, u, hj, hu⟩ := hone c hc
      obtain rfl := Option.some.inj (hj.symm.trans hi)
      exact hs.queues.bound j (by simp [State.live, hu])

/-- A mutex that no thread is blocked on is not the one of the waiters. -/
theorem Scheduled.free (hs : Scheduled s a id R (J ++ V)) (he : Exact s J V k)
    (hfree : ∀ i, ¬BlockedOn s i mutex) : mutex ≠ k ∨ V = [] := by
  by_cases hV : V = []
  · exact .inr hV
  · obtain ⟨b, hb⟩ := List.exists_mem_of_ne_nil V hV
    obtain ⟨i, u, hi, -⟩ := hs.queues.exists_tcb (a := b) (by simp [hb])
    exact .inl fun heq => hfree i ((hs.blockedOn he).2 ⟨b, hb, hi, heq⟩)

/-- `worker_mutex_init`. -/
theorem WaitLists.mutexInit (hw : WaitLists s) (hsafe : ∀ i, ¬BlockedOn s i mutex)
    (hi : workerMutexInit s mutex = .ok s' ret) : WaitLists s' := by
  cases hi
  have hq : ∀ q, some Queue.empty = some q → q.head = none := by
    rintro q ⟨⟩
    rfl
  have howner : ∀ i : ℕ, s.cont i = .locking mutex → (-1 : ℤ) ≠ i := fun i _ h => by cases h
  cases hw with
  | fresh hqs hnone hcount he =>
    have he' : Exact (s.setMutex mutex ⟨false, s.mutexCount, some .empty, -1⟩) [] [] 0 :=
      he.setMutex (.inr rfl) hq howner
    exact .fresh (hqs.congr rfl rfl rfl rfl rfl) hnone hcount (he'.congr rfl rfl rfl rfl)
  | @scheduled a id k R J V hs he =>
    have he' : Exact (s.setMutex mutex ⟨false, s.mutexCount, some .empty, -1⟩) J V k :=
      he.setMutex (hs.free he hsafe) hq howner
    exact .scheduled (hs.congr rfl rfl rfl rfl rfl rfl rfl) (he'.congr rfl rfl rfl rfl)

/-- `worker_mutex_destroy`. A mutex that threads are blocked on is locked. -/
theorem WaitLists.mutexDestroy (hw : WaitLists s)
    (hd : workerMutexDestroy s mutex = some (.ok s' ret)) : WaitLists s' := by
  obtain ⟨m, hm, hd⟩ := Option.bind_eq_some_iff.1 hd
  split_ifs at hd with hlocked
  · cases hd
    exact hw
  · cases hd
    cases hw with
    | fresh hqs hnone hcount he =>
      exact .fresh (hqs.congr rfl rfl rfl rfl rfl) hnone hcount (he.setMutex (.inr rfl)
        (fun q hq => (nomatch hq)) fun i hi => he.owner i mutex m hi hm)
    | @scheduled a id k R J V hs he =>
      have hne : mutex ≠ k ∨ V = [] := by
        by_cases hV : V = []
        · exact .inr hV
        · obtain ⟨m', hm', hl, -⟩ := he.queue hV
          refine .inl fun heq => hlocked ?_
          rw [heq, hm', Option.some.injEq] at hm
          rwa [← hm]
      exact .scheduled (hs.congr rfl rfl rfl rfl rfl rfl rfl) (he.setMutex hne
        (fun q hq => (nomatch hq)) fun i hi => he.owner i mutex m hi hm)

/-- The rest of a `worker_join`. -/
theorem WaitLists.resume {thread : ℕ} {v : Bool} (hs : Scheduled s a id R (J ++ V))
    (he : Exact s J V k) (hcont : s.cont id = .joining thread v)
    (hj : joinResume s = some (.ok s' ret)) : WaitLists s' := by
  obtain ⟨i, hi, hj⟩ := Option.bind_eq_some_iff.1 hj
  obtain rfl := Option.some.inj (hs.thread.symm.trans hi)
  cases hj
  refine .scheduled (hs.congr rfl rfl rfl rfl rfl rfl rfl) (he.leave fun t ht => ?_)
  exact he.idle id t ht fun j hc => by rw [hcont] at hc; cases hc

/-- `worker_join` up to its switch. -/
theorem WaitLists.joinCall {thread : ℕ} {v : Bool} (hs : Scheduled s a id R (J ++ V))
    (he : Exact s J V k) (hidle : s.cont id = .idle) (hsafe : ListSafe s (.join thread v))
    (hj : workerJoin μ fuel s thread v = some (.ok s' ret)) : WaitLists s' := by
  obtain ⟨i, hi, hj⟩ := Option.bind_eq_some_iff.1 hj
  obtain rfl := Option.some.inj (hs.thread.symm.trans hi)
  obtain ⟨b, hb, hj⟩ := Option.bind_eq_some_iff.1 hj
  obtain rfl := Option.some.inj (hs.node.symm.trans hb)
  obtain ⟨found, hfound, hj⟩ := Option.bind_eq_some_iff.1 hj
  have hquiet : ∀ b, WaitLists { s with interruptDisabled := b } := fun b =>
    .scheduled (hs.congr rfl rfl rfl rfl rfl rfl rfl) (he.congr rfl rfl rfl rfl)
  cases found with
  | false =>
    rw [if_pos Bool.not_false] at hj
    unfold joinFinished at hj
    dsimp only at hj
    split_ifs at hj <;> cases hj <;> exact hquiet false
  | true =>
    rw [if_neg (by simp)] at hj
    obtain ⟨w, hw, hj⟩ := Option.bind_eq_some_iff.1 hj
    by_cases hpos : w.waitingThread > 0
    · unfold joinReady at hj
      rw [if_pos hpos] at hj
      cases hj
      exact hquiet true
    · have hcaller : s.caller = id := by simp [State.caller, hs.thread]
      have hnone := hsafe (hcaller.symm ▸ hidle) fuel w hfound hw (Int.not_lt.1 hpos)
      have hV := hs.free he (hnone · k)
      obtain ⟨hne, hhead⟩ := hs.found hfound
      exact WaitLists.join hs he hidle (hV.resolve_left fun h => h rfl) hw hne hhead hpos hj

/-- A step keeps the wait lists. -/
theorem exec_lists (hw : WaitLists s) (hj : Joins s) (hsafe : ListSafe s call)
    (hx : exec μ fuel s call = some (.ok s' ret)) : WaitLists s' := by
  rcases exec_cases hx with ⟨hcall, hcont⟩ | ⟨thread, v, rfl, hcont, hresume⟩
  · cases hw with
    | fresh hqs hnone hcount he =>
      have hw : WaitLists s := .fresh hqs hnone hcount he
      rcases startCall_none hnone hcall with rfl | ⟨mutex, rfl | rfl⟩ | ⟨rfl, heq⟩
      · exact hw.create hcall
      · exact hw.mutexInit hsafe (Option.some.inj hcall)
      · exact hw.mutexDestroy hcall
      · cases heq
        exact hw
    | @scheduled a id k R J V hs he =>
      have hw : WaitLists s := .scheduled hs he
      rw [show s.caller = id by simp [State.caller, hs.thread]] at hcont
      cases call with
      | create => exact hw.create hcall
      | yield =>
        have hs' : Scheduled { s with interruptDisabled := true } a id R (J ++ V) :=
          hs.congr rfl rfl rfl rfl rfl rfl rfl
        exact WaitLists.switch hs' (he.congr rfl rfl rfl rfl) hcall
      | exit valuePtr => exact WaitLists.exit hs he hj hsafe hcall
      | join thread v =>
        have hidle : s.cont id = .idle := by
          rcases hcont with h | h | ⟨_, h, -⟩
          · cases h
          · exact h
          · cases h
        exact WaitLists.joinCall hs he hidle hsafe hcall
      | lock mutex =>
        have hlock : s.cont id = .idle ∨ s.cont id = .locking mutex := by
          rcases hcont with h | h | ⟨_, h, hc⟩
          · cases h
          · exact .inl h
          · cases h
            exact .inr hc
        exact WaitLists.lock hs he hlock hsafe hcall
      | unlock mutex => exact (WaitLists.unlock hs he hsafe hcall).1
      | mutexInit mutex => exact hw.mutexInit hsafe (Option.some.inj hcall)
      | mutexDestroy mutex => exact hw.mutexDestroy hcall
      | preempt =>
        change interruptHandler μ fuel s = some (.ok s' ret) at hcall
        unfold interruptHandler at hcall
        split_ifs at hcall
        · cases hcall
          exact hw
        · exact WaitLists.switch hs he hcall
  · cases hw with
    | fresh _ hnone _ _ =>
      obtain ⟨i, hi, -⟩ := Option.bind_eq_some_iff.1 hresume
      rw [hnone] at hi
      cases hi
    | @scheduled a id k R J V hs he =>
      rw [show s.caller = id by simp [State.caller, hs.thread]] at hcont
      exact WaitLists.resume hs he hcont hresume

/-- The joiner of a thread that is blocked is where an exit looks for it. -/
theorem Scheduled.joinerWaits (hs : Scheduled s a id R W) (hw : 0 ≤ t.waitingThread)
    (hb : Blocked s t.waitingThread.toNat) : JoinerWaits s t := by
  obtain ⟨u, hu, hst⟩ := hb
  obtain ⟨b, hb, hid⟩ := hs.queues.blocked_mem
    (by rw [hs.status]; exact fun h => Status.noConfusion (Option.some.inj h)) hu hst
  obtain ⟨W₁, W₂, rfl⟩ := List.append_of_mem hb
  have hids := hs.queues.ids_waiting
  rw [List.map_append, List.map_cons] at hids
  obtain ⟨n, hn⟩ := hs.queues.waiting.chain.exists_of_mem hb
  have hnid : n.tcb = t.waitingThread.toNat := by simpa [tcbOf, hn] using hid
  refine ⟨hw, (W₁ ++ b :: W₂).length + 1, W₁.getLast?.or none, b,
    walk_found hs.queues.waiting.chain (fun c hc m hm => ?_) hn ?_ (Nat.lt_succ_self _)⟩
  · have hlive := hs.queues.waiting_live c (List.mem_append_left _ hc) m hm
    have hne : m.tcb ≠ t.waitingThread.toNat := fun heq => by
      have hmem : tcbOf s.nodes b ∈ W₁.map (tcbOf s.nodes) := by
        rw [hid, ← heq]
        exact List.mem_map.2 ⟨c, hc, by simp [tcbOf, hm]⟩
      exact (List.nodup_append.1 hids).2.2 _ hmem _ List.mem_cons_self rfl
    simp [hlive, hne]
  · rw [if_pos (hs.queues.waiting_live b hb n hn)]
    simp [hnid]

/-- The condition implies that of the joins. -/
theorem WaitLists.joinSafe (hw : WaitLists s) (hsafe : ListSafe s call)
    (hne : ∀ thread v, call ≠ .join thread v) : JoinSafe s call := by
  cases call with
  | join thread v => exact absurd rfl (hne thread v)
  | exit valuePtr =>
    intro id t main hid ht hhead hjoiner _
    cases hw with
    | fresh _ hnone _ _ =>
      rw [hnone] at hid
      cases hid
    | scheduled hs _ =>
      rcases (hsafe id t hid ht).next with hnext | ⟨hw, hb⟩
      · exact absurd hhead hnext
      · exact absurd (hs.joinerWaits hw hb) hjoiner
  | lock mutex =>
    intro id m main hid hm hlocked howner hhead
    exact absurd hhead (hsafe id m hid hm hlocked howner).1
  | unlock mutex =>
    intro id m q fuel s₁ ids hid hm hlocked howner hq hloop j hj thread
    cases hw with
    | fresh _ hnone _ _ =>
      rw [hnone] at hid
      cases hid
    | @scheduled a i k R J V hs he =>
      by_cases hV : mutex ≠ k ∨ V = []
      · -- The loop has nothing to do.
        unfold unblockThreads at hloop
        rw [he.others mutex m q hm hq hV, unblockLoop, Option.some.injEq, Prod.mk.injEq] at hloop
        rw [← hloop.2] at hj
        cases hj
      · rw [not_or, not_not] at hV
        obtain ⟨rfl, hV⟩ := hV
        obtain ⟨m', hm', -, hq'⟩ := he.queue hV
        obtain rfl := Option.some.inj (hm.symm.trans hm')
        obtain rfl := Option.some.inj (hq.symm.trans hq')
        have hunlock := hsafe id m _ hid hm hlocked howner hq
        obtain ⟨-, -, hids⟩ := hs.release hV rfl hunlock hloop
        have hmem : some j ∈ V.map (tcbOf s.nodes) := by
          rw [hids]
          exact List.mem_map_of_mem hj
        obtain ⟨b, hb, hbj⟩ := List.mem_map.1 hmem
        exact he.not_joins hb hbj thread
  | _ => trivial

theorem waitLists_start : WaitLists State.start := by
  cases threads_start with
  | fresh hq hnone hcount =>
    refine .fresh hq hnone hcount ⟨fun _ h => (nomatch h), fun _ h => (nomatch h),
      fun h => absurd rfl h, fun _ _ _ h => (nomatch h), fun _ _ h => (nomatch h),
      fun _ _ _ h => (nomatch h)⟩
  | scheduled hs => cases hs.thread

theorem run_lists (hr : Run (Guarded (fun u l => ListSafe u l.call) (Step μ)) State.start es s) :
    Accounted es s ∧ Joins s ∧ WaitLists s := by
  refine Run.history (I := fun es u => Accounted es u ∧ Joins u ∧ WaitLists u)
    ⟨accounted_start, joins_start, waitLists_start⟩ (fun fs u e w h hstep => ?_) hr
  obtain ⟨ha, hj, hw⟩ := h
  obtain ⟨hsafe, hstep⟩ := hstep
  refine ⟨step_accounted ha hstep, step_joins hj ha (hw.joinSafe hsafe) hstep, ?_⟩
  obtain ⟨-, fuel, hx⟩ := hstep
  exact exec_lists hw hj hsafe hx

/-- **The wait lists are exact.** After a run of steps that meet `ListSafe`, following the wait
queue of a mutex ends and visits the threads that are blocked on it, each once. An unlock that meets
it and returns 0 makes ready these threads and changes no other. -/
theorem wait_lists_exact
    (hr : Run (Guarded (fun u l => ListSafe u l.call) (Step μ)) State.start es s) :
    (∀ mutex m q, s.mutexes mutex = some m → m.waitQueue = some q → ListExact s mutex q) ∧
      ∀ caller mutex s', Guarded (fun u l => ListSafe u l.call) (Step μ) s
        ⟨caller, .unlock mutex, code 0⟩ s' → UnlockExact s mutex s' := by
  obtain ⟨-, -, hw⟩ := run_lists hr
  refine ⟨fun mutex m q hm hq => hw.exact hm hq, fun caller mutex s' hstep => ?_⟩
  obtain ⟨hsafe, -, fuel, hx⟩ := hstep
  rcases exec_cases hx with ⟨hcall, -⟩ | ⟨thread, v, heq, -⟩
  · cases hw with
    | fresh _ hnone _ _ =>
      obtain ⟨i, hi, -⟩ := Option.bind_eq_some_iff.1 hcall
      rw [hnone] at hi
      cases hi
    | scheduled hs he => exact (WaitLists.unlock hs he hsafe hcall).2 rfl
  · cases heq

/-- Thread 1 blocks on the mutex that the main thread holds, and the unlock makes it ready. -/
theorem wait_lists_exact_unlock : UnlockExact
    (after [.create, .mutexInit 0, .lock 0, .yield, .lock 0]) 0
    (after [.create, .mutexInit 0, .lock 0, .yield, .lock 0, .unlock 0]) := by
  have hquiet : ∀ i k, ¬BlockedOn (after [.create]) i k := by
    rintro (- | - | i) k ⟨t, ht, hst, -⟩
    · cases ht
      cases hst
    · cases ht
      cases hst
    · cases ht
  have hquiet' : ∀ i k, ¬BlockedOn (after [.create, .mutexInit 0, .lock 0, .yield]) i k := by
    rintro (- | - | i) k ⟨t, ht, hst, -⟩
    · cases ht
      cases hst
    · cases ht
      cases hst
    · cases ht
  have hcreate : Run (Guarded (fun u l => ListSafe u l.call) (Step (Malloc.bump Node))) .start
      [⟨0, .create, code 1⟩] (after [.create]) := .single ⟨trivial, rfl, 9, rfl⟩
  have hinit : Guarded (fun u l => ListSafe u l.call) (Step (Malloc.bump Node)) (after [.create])
      ⟨0, .mutexInit 0, code 0⟩ (after [.create, .mutexInit 0]) :=
    ⟨fun i => hquiet i 0, rfl, 9, rfl⟩
  have hlock : Guarded (fun u l => ListSafe u l.call) (Step (Malloc.bump Node))
      (after [.create, .mutexInit 0]) ⟨0, .lock 0, code 0⟩
      (after [.create, .mutexInit 0, .lock 0]) := by
    refine ⟨fun id m _ hm hlocked => ?_, rfl, 9, rfl⟩
    cases hm
    cases hlocked
  have hyield : Guarded (fun u l => ListSafe u l.call) (Step (Malloc.bump Node))
      (after [.create, .mutexInit 0, .lock 0]) ⟨0, .yield, none⟩
      (after [.create, .mutexInit 0, .lock 0, .yield]) := ⟨trivial, rfl, 9, rfl⟩
  have hblock : Guarded (fun u l => ListSafe u l.call) (Step (Malloc.bump Node))
      (after [.create, .mutexInit 0, .lock 0, .yield]) ⟨1, .lock 0, none⟩
      (after [.create, .mutexInit 0, .lock 0, .yield, .lock 0]) := by
    refine ⟨fun id m _ _ _ _ => ⟨fun h => (nomatch h), fun i k hb => ?_⟩, rfl, 9, rfl⟩
    exact absurd hb (hquiet' i k)
  refine (wait_lists_exact ((((hcreate.snoc hinit).snoc hlock).snoc hyield).snoc hblock)).2 0 0 _
    ⟨fun id m q _ hm _ _ hq => ?_, rfl, 9, rfl⟩
  cases hm
  cases hq
  exact .inr rfl

/-- Thread 1 waits for a mutex and thread 2 for thread 3: the list of the mutex visits thread 2
too. -/
theorem wait_list_visits_joiner : ¬∀ es s, Run (Step (Malloc.bump Node)) State.start es s →
    ∀ mutex m q, s.mutexes mutex = some m → m.waitQueue = some q → ListExact s mutex q := by
  intro hall
  have hr : Run (Guarded (fun _ _ => True) (Step (Malloc.bump Node))) .start
      [⟨0, .create, code 1⟩, ⟨0, .create, code 2⟩, ⟨0, .create, code 3⟩, ⟨0, .mutexInit 0, code 0⟩,
        ⟨0, .lock 0, code 0⟩, ⟨0, .yield, none⟩, ⟨1, .lock 0, none⟩, ⟨2, .join 3 false, none⟩]
      (after [.create, .create, .create, .mutexInit 0, .lock 0, .yield, .lock 0,
        .join 3 false]) :=
    run_of_follow (fun _ _ => True) 9 [.create, .create, .create, .mutexInit 0, .lock 0, .yield,
      .lock 0, .join 3 false] rfl fun _ _ _ => trivial
  obtain ⟨V, hchain, -, hids⟩ := hall _ _ (hr.mono fun _ _ _ h => h.2) 0 _ _ rfl rfl
  -- The list goes on from the node of thread 1 to that of thread 2.
  rcases V with - | ⟨a, V⟩
  · cases hchain
  obtain ⟨ha, n, hn, hchain⟩ := hchain
  cases ha
  cases hn
  rcases V with - | ⟨b, V⟩
  · cases hchain
  obtain ⟨hb, -⟩ := hchain
  cases hb
  have hmem := (hids 2).1 (by simp only [List.map_cons, List.mem_cons]; exact .inr (.inl rfl))
  obtain ⟨t, ht, -, hk⟩ := hmem
  cases ht
  cases hk

end UserOS.Worker
