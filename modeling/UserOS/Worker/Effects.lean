import UserOS.Worker.Sched

/-!
# What the queue operations and the scheduler leave alone

These facts need no invariant of the queues: whatever the links are, an operation on a queue changes
links only, and a release changes the control blocks of the threads that it releases only.

* `Moved`, `Releases`: what the queue operations and the release functions may change.
* `workerYield_effect`: what a switch changes.
-/

namespace UserOS.Worker

open Lib

variable {μ : Malloc Node} {s s' s'' : State} {a id : ℕ} {t : Tcb} {fuel : ℕ} {h h' : Nodes}
  {q q' : Queue} {ids : List ℕ} {r : Option ℕ}

/-! ## Links -/

theorem tcbOf_setNext {p : Option ℕ} (hs : setNext h a p = some h') : tcbOf h' = tcbOf h := by
  obtain ⟨n, hn, hs⟩ := Option.bind_eq_some_iff.1 hs
  obtain rfl := Option.some.inj hs
  funext b
  by_cases hb : b = a
  · subst hb
    simp [tcbOf, hn]
  · simp [tcbOf, Function.update_of_ne hb]

theorem tcbOf_enqueue (he : enqueue fuel h q a = some (h', q')) : tcbOf h' = tcbOf h := by
  unfold enqueue at he
  cases hhead : q.head with
  | none =>
    rw [hhead] at he
    cases he
    rfl
  | some head =>
    rw [hhead] at he
    obtain ⟨tail, -, he⟩ := Option.bind_eq_some_iff.1 he
    obtain ⟨h₁, hs, he⟩ := Option.bind_eq_some_iff.1 he
    cases he
    exact tcbOf_setNext hs

theorem tcbOf_pop (hp : popFromQueue h q = some (h', q', r)) : tcbOf h' = tcbOf h := by
  unfold popFromQueue at hp
  cases hhead : q.head with
  | none =>
    rw [hhead] at hp
    cases hp
    rfl
  | some head =>
    rw [hhead] at hp
    obtain ⟨n, -, hp⟩ := Option.bind_eq_some_iff.1 hp
    obtain ⟨h₁, hs, hp⟩ := Option.bind_eq_some_iff.1 hp
    cases hp
    exact tcbOf_setNext hs

/-- The node that a deletion returns is one of the thread. -/
theorem deleteFromQueue_effect {live : ℕ → Bool}
    (hd : deleteFromQueue fuel h live q id = some (h', q', r)) :
    tcbOf h' = tcbOf h ∧ ∀ a, r = some a → tcbOf h a = some id := by
  obtain ⟨⟨prev, head⟩, hf, hd⟩ := Option.bind_eq_some_iff.1 hd
  cases head with
  | none =>
    cases hd
    exact ⟨rfl, fun a ha => nomatch ha⟩
  | some b =>
    obtain ⟨n₀, hn₀, hstop⟩ := walk_stop hf
    have hb : tcbOf h b = some id := by
      split_ifs at hstop
      simpa [tcbOf, hn₀] using hstop
    dsimp only at hd
    obtain ⟨n, hn, hd⟩ := Option.bind_eq_some_iff.1 hd
    obtain ⟨h₁, hcut, hd⟩ := Option.bind_eq_some_iff.1 hd
    have h₁ids := tcbOf_setNext hcut
    split_ifs at hd
    · cases hd
      exact ⟨h₁ids, fun a ha => Option.some.inj ha ▸ hb⟩
    · obtain ⟨n', -, hd⟩ := Option.bind_eq_some_iff.1 hd
      cases hd
      exact ⟨h₁ids, fun a ha => Option.some.inj ha ▸ hb⟩
    all_goals
      obtain ⟨p, -, hd⟩ := Option.bind_eq_some_iff.1 hd
      obtain ⟨h₂, hlink, hd⟩ := Option.bind_eq_some_iff.1 hd
      cases hd
      exact ⟨(tcbOf_setNext hlink).trans h₁ids, fun a ha => Option.some.inj ha ▸ hb⟩

/-! ## Moves and releases -/

/-- What the queue operations and the scheduler leave alone in a control block. -/
def Tcb.links (t : Tcb) : ℤ × Option ℕ := (t.waitingThread, t.blockedFromMutex)

/-- `s'` differs from `s` in the queues and their links. -/
structure Moved (s s' : State) : Prop where
  rest : ∃ h r w, s' = { s with nodes := h, readyQueue := r, waitingQueue := w }
  points : tcbOf s'.nodes = tcbOf s.nodes

/-- `s'` differs from `s` in the queues, their links, and the control blocks of `ids`, some of which
are ready now. -/
structure Releases (ids : List ℕ) (s s' : State) : Prop where
  rest : ∃ h r w u, s' = { s with nodes := h, readyQueue := r, waitingQueue := w, tcbs := u }
  points : tcbOf s'.nodes = tcbOf s.nodes
  links : ∀ id, (s'.tcbs id).map Tcb.links = (s.tcbs id).map Tcb.links
  status : ∀ id, (s'.tcbs id).map Tcb.status = (s.tcbs id).map Tcb.status ∨
    (s'.tcbs id).map Tcb.status = some .ready
  others : ∀ id, id ∉ ids → s'.tcbs id = s.tcbs id

theorem Moved.releases (hm : Moved s s') : Releases [] s s' := by
  obtain ⟨h, r, w, rfl⟩ := hm.rest
  exact ⟨⟨_, _, _, _, rfl⟩, hm.points, fun _ => rfl, fun _ => .inl rfl, fun _ _ => rfl⟩

theorem Releases.refl : Releases ids s s :=
  ⟨⟨_, _, _, _, rfl⟩, rfl, fun _ => rfl, fun _ => .inl rfl, fun _ _ => rfl⟩

theorem Releases.trans {ids' : List ℕ} (hr : Releases ids s s') (hr' : Releases ids' s' s'') :
    Releases (ids ++ ids') s s'' where
  rest := by
    obtain ⟨h, r, w, u, rfl⟩ := hr.rest
    obtain ⟨h', r', w', u', rfl⟩ := hr'.rest
    exact ⟨h', r', w', u', rfl⟩
  points := hr'.points.trans hr.points
  links id := (hr'.links id).trans (hr.links id)
  status id := by
    rcases hr'.status id with h | h
    · exact (hr.status id).imp h.trans h.trans
    · exact .inr h
  others id hid := by
    rw [List.mem_append, not_or] at hid
    rw [hr'.others id hid.2, hr.others id hid.1]

/-- The joiners are among the links. -/
theorem waits_of_links {x y : Option Tcb} (h : x.map Tcb.links = y.map Tcb.links) :
    x.map Tcb.waitingThread = y.map Tcb.waitingThread := by
  have hfst := congrArg (Option.map Prod.fst) h
  rwa [Option.map_map, Option.map_map] at hfst

theorem Releases.live (hr : Releases ids s s') : s'.live = s.live := by
  funext id
  have h := congrArg Option.isSome (hr.links id)
  rwa [Option.isSome_map, Option.isSome_map] at h

theorem links_setTcb (ht : s.tcbs id = some t) {t' : Tcb} (hw : t'.links = t.links) (i : ℕ) :
    ((s.setTcb id t').tcbs i).map Tcb.links = (s.tcbs i).map Tcb.links := by
  by_cases hi : i = id
  · subst hi
    simp [State.setTcb, ht, hw]
  · simp [State.setTcb, Function.update_of_ne hi]

/-- A thread that becomes ready keeps its joiner. -/
theorem releases_setTcb (ht : s.tcbs id = some t) (t' : Tcb)
    (hw : t'.links = t.links) (hst : t'.status = .ready) :
    Releases [id] s (s.setTcb id t') where
  rest := ⟨_, _, _, _, rfl⟩
  points := rfl
  links := links_setTcb ht hw
  status i := by
    by_cases hi : i = id
    · subst hi
      simp [State.setTcb, hst]
    · simp [State.setTcb, Function.update_of_ne hi]
  others i hi := Function.update_of_ne (by simpa using hi) _ _

theorem enqueueReady_moved (he : enqueueReady fuel s a = some s') : Moved s s' := by
  obtain ⟨⟨h, q⟩, henq, he⟩ := Option.bind_eq_some_iff.1 he
  cases he
  exact ⟨⟨_, _, _, rfl⟩, tcbOf_enqueue henq⟩

theorem enqueueWaiting_moved (he : enqueueWaiting fuel s a = some s') : Moved s s' := by
  obtain ⟨⟨h, q⟩, henq, he⟩ := Option.bind_eq_some_iff.1 he
  cases he
  exact ⟨⟨_, _, _, rfl⟩, tcbOf_enqueue henq⟩

theorem deleteWaiting_moved (hd : deleteWaiting fuel s id = some (s', r)) :
    Moved s s' ∧ ∀ a, r = some a → tcbOf s.nodes a = some id := by
  obtain ⟨⟨h, q, r'⟩, hdel, hd⟩ := Option.bind_eq_some_iff.1 hd
  cases hd
  obtain ⟨hids, hr⟩ := deleteFromQueue_effect hdel
  exact ⟨⟨⟨_, _, _, rfl⟩, hids⟩, hr⟩

theorem makeReady_releases (ha : tcbOf s.nodes a = some id)
    (hm : makeReady fuel s a = some s') : Releases [id] s s' := by
  obtain ⟨n, hn, hm⟩ := Option.bind_eq_some_iff.1 hm
  obtain ⟨t, ht, hm⟩ := Option.bind_eq_some_iff.1 hm
  obtain rfl : n.tcb = id := by simpa [tcbOf, hn] using ha
  have hr := releases_setTcb ht { t with status := .ready, waitingFor := -1 } rfl rfl
  simpa using hr.trans (enqueueReady_moved hm).releases

/-- At exit the joiner is released, if there is one. -/
theorem releaseThreads_releases (hr : releaseThreads fuel s t = some s') :
    Releases [t.waitingThread.toNat] s s' ∧ (t.waitingThread < 0 → s' = s) := by
  unfold releaseThreads at hr
  split_ifs at hr with hw
  · obtain ⟨⟨s₁, r⟩, hdel, hr⟩ := Option.bind_eq_some_iff.1 hr
    obtain ⟨hmoved, hnode⟩ := deleteWaiting_moved hdel
    refine ⟨?_, fun hneg => absurd hw (Int.not_le.2 hneg)⟩
    cases r with
    | none =>
      cases hr
      simpa using hmoved.releases.trans Releases.refl
    | some a =>
      have ha : tcbOf s₁.nodes a = some t.waitingThread.toNat := by
        rw [hmoved.points]
        exact hnode a rfl
      simpa using hmoved.releases.trans (makeReady_releases ha hr)
  · cases hr
    exact ⟨.refl, fun _ => rfl⟩

/-- The unlock releases the threads of the list that the loop returns. -/
theorem unblockLoop_releases {n : ℕ} {head : Option ℕ} {released ids : List ℕ}
    (hu : unblockLoop fuel n s head released = some (s', ids)) :
    ∃ l, ids = released ++ l ∧ Releases l s s' := by
  induction n generalizing s head released with
  | zero =>
    cases head with
    | none =>
      cases hu
      exact ⟨[], by simp, .refl⟩
    | some a => cases hu
  | succ n ih =>
    cases head with
    | none =>
      cases hu
      exact ⟨[], by simp, .refl⟩
    | some a =>
      obtain ⟨node, -, hu⟩ := Option.bind_eq_some_iff.1 hu
      obtain ⟨-, -, hu⟩ := Option.bind_eq_some_iff.1 hu
      obtain ⟨⟨s₁, r⟩, hdel, hu⟩ := Option.bind_eq_some_iff.1 hu
      obtain ⟨hmoved, hnode⟩ := deleteWaiting_moved hdel
      cases r with
      | none =>
        obtain ⟨l, hl, hrel⟩ := ih hu
        exact ⟨l, hl, by simpa using hmoved.releases.trans hrel⟩
      | some b =>
        obtain ⟨s₂, hready, hu⟩ := Option.bind_eq_some_iff.1 hu
        obtain ⟨-, -, hu⟩ := Option.bind_eq_some_iff.1 hu
        obtain ⟨l, hl, hrel⟩ := ih hu
        have hb : tcbOf s₁.nodes b = some node.tcb := by
          rw [hmoved.points]
          exact hnode b rfl
        refine ⟨node.tcb :: l, by simp [hl], ?_⟩
        simpa using (hmoved.releases.trans (makeReady_releases hb hready)).trans hrel

/-! ## The scheduler -/

/-- The scheduler made `id` the running thread. -/
structure Dispatched (id : ℕ) (s s' : State) : Prop where
  thread : s'.runningThread = some id
  status : ∃ t, s'.tcbs id = some t ∧ t.status = .running
  chosen : (s.readyQueue.head = none ∧ s.mainThread = some id) ∨
    ∃ t, s.tcbs id = some t ∧ t.status ≠ .blocked
  links : ∀ i, (s'.tcbs i).map Tcb.links = (s.tcbs i).map Tcb.links
  others : ∀ i, i ≠ id → s'.tcbs i = s.tcbs i
  count : s'.threadCount = s.threadCount
  cont : s'.cont = s.cont
  main : s'.mainThread = s.mainThread

/-- The thread that runs next. -/
theorem dispatch_effect {ret : Option Ret} (hd : dispatch μ s = some (.ok s' ret)) :
    ret = none ∧ ∃ id, Dispatched id s s' := by
  obtain ⟨⟨h, q, next⟩, hpop, hd⟩ := Option.bind_eq_some_iff.1 hd
  cases next with
  | none =>
    have hhead : s.readyQueue.head = none := by
      unfold popFromQueue at hpop
      cases hhead : s.readyQueue.head with
      | none => rfl
      | some a =>
        rw [hhead] at hpop
        obtain ⟨n, -, hpop⟩ := Option.bind_eq_some_iff.1 hpop
        obtain ⟨h₁, -, hpop⟩ := Option.bind_eq_some_iff.1 hpop
        cases hpop
    cases hm : s.mainThread with
    | none =>
      simp only [hm] at hd
      cases hd
    | some main =>
      simp only [hm] at hd
      obtain ⟨⟨s₁, a⟩, hnode, hd⟩ := Option.bind_eq_some_iff.1 hd
      obtain ⟨addr, -, hnode⟩ := Option.bind_eq_some_iff.1 hnode
      cases hnode
      obtain ⟨t, ht, hd⟩ := Option.bind_eq_some_iff.1 hd
      cases hd
      exact ⟨rfl, main, {
        thread := rfl
        status := ⟨_, Function.update_self .., rfl⟩
        chosen := .inl ⟨hhead, hm⟩
        links := links_setTcb ht rfl
        others := fun i hi => Function.update_of_ne hi _ _
        count := rfl
        cont := rfl
        main := hm ▸ rfl }⟩
  | some a =>
    obtain ⟨n, -, hd⟩ := Option.bind_eq_some_iff.1 hd
    obtain ⟨t, ht, hd⟩ := Option.bind_eq_some_iff.1 hd
    split_ifs at hd with hst
    · cases hd
    · cases hd
      exact ⟨rfl, n.tcb, {
        thread := rfl
        status := ⟨_, Function.update_self .., rfl⟩
        chosen := .inr ⟨t, ht, hst⟩
        links := links_setTcb ht rfl
        others := fun i hi => Function.update_of_ne hi _ _
        count := rfl
        cont := rfl
        main := rfl }⟩

/-- The joiner of a thread is in the waiting queue, where `release_threads` looks for it. -/
def JoinerWaits (s : State) (t : Tcb) : Prop :=
  0 ≤ t.waitingThread ∧ ∃ fuel prev a,
    findNode fuel s.nodes s.live s.waitingQueue t.waitingThread.toNat = some (prev, some a)

theorem enqueue_head (he : enqueue fuel h q a = some (h', q')) : q'.head ≠ none := by
  unfold enqueue at he
  cases hhead : q.head with
  | none =>
    rw [hhead] at he
    cases he
    exact Option.some_ne_none _
  | some head =>
    rw [hhead] at he
    obtain ⟨tail, -, he⟩ := Option.bind_eq_some_iff.1 he
    obtain ⟨h₁, -, he⟩ := Option.bind_eq_some_iff.1 he
    cases he
    exact Option.some_ne_none _

theorem enqueueReady_head (he : enqueueReady fuel s a = some s') : s'.readyQueue.head ≠ none := by
  obtain ⟨⟨h, q⟩, henq, he⟩ := Option.bind_eq_some_iff.1 he
  cases he
  exact enqueue_head henq

/-- A deletion returns the node that a search finds. -/
theorem deleteWaiting_found (hd : deleteWaiting fuel s id = some (s', r))
    (hfound : ∃ fuel prev a,
      findNode fuel s.nodes s.live s.waitingQueue id = some (prev, some a)) : r ≠ none := by
  rintro rfl
  obtain ⟨⟨h, q, r⟩, hdel, heq⟩ := Option.bind_eq_some_iff.1 hd
  cases heq
  obtain ⟨⟨last, head⟩, hfind, hdel⟩ := Option.bind_eq_some_iff.1 hdel
  obtain ⟨fuel', prev, a, hfound⟩ := hfound
  have h₁ := walk_mono hfind (Nat.le_add_right fuel fuel')
  rw [walk_mono hfound (Nat.le_add_left fuel' fuel)] at h₁
  cases h₁
  obtain ⟨n, -, hdel⟩ := Option.bind_eq_some_iff.1 hdel
  obtain ⟨h₁, -, hdel⟩ := Option.bind_eq_some_iff.1 hdel
  split_ifs at hdel
  · cases hdel
  · obtain ⟨n', -, hdel⟩ := Option.bind_eq_some_iff.1 hdel
    cases hdel
  all_goals
    obtain ⟨p, -, hdel⟩ := Option.bind_eq_some_iff.1 hdel
    obtain ⟨h₂, -, hdel⟩ := Option.bind_eq_some_iff.1 hdel
    cases hdel

/-- Some thread is ready after the release of a joiner that waits. -/
theorem releaseThreads_head (hr : releaseThreads fuel s t = some s')
    (hready : s.readyQueue.head ≠ none ∨ JoinerWaits s t) : s'.readyQueue.head ≠ none := by
  unfold releaseThreads at hr
  split_ifs at hr with hw
  · obtain ⟨⟨s₁, r⟩, hdel, hr⟩ := Option.bind_eq_some_iff.1 hr
    cases r with
    | some a =>
      obtain ⟨n, -, hr⟩ := Option.bind_eq_some_iff.1 hr
      obtain ⟨u, -, hr⟩ := Option.bind_eq_some_iff.1 hr
      exact enqueueReady_head hr
    | none =>
      cases hr
      have hnot : ¬JoinerWaits s t := fun h => deleteWaiting_found hdel h.2 rfl
      obtain ⟨⟨h, q, r⟩, hdel, heq⟩ := Option.bind_eq_some_iff.1 hdel
      cases heq
      obtain ⟨⟨last, head⟩, -, hdel⟩ := Option.bind_eq_some_iff.1 hdel
      exact hready.resolve_right hnot
  · cases hr
    exact hready.resolve_right fun h => hw h.1

/-- No thread is ready for a switch. -/
def NoneReady (s : State) (t : Tcb) : Prop :=
  s.readyQueue.head = none ∧ (t.status = .finished → ¬JoinerWaits s t)

/-- What becomes of the thread `id` that ran, whose control block is `t`. -/
structure Retired (id : ℕ) (t : Tcb) (s s' : State) : Prop where
  count : s'.threadCount = s.threadCount
  cont : s'.cont = s.cont
  main : s'.mainThread = s.mainThread
  links : ∀ i, i ≠ id ∨ t.status ≠ .finished →
    (s'.tcbs i).map Tcb.links = (s.tcbs i).map Tcb.links
  gone : t.status = .finished → s'.tcbs id = none
  blocked : ∀ j u, s.tcbs j = some u → u.status = .blocked →
    (t.status = .finished → j ≠ t.waitingThread.toNat ∨ t.waitingThread < 0) →
    s'.tcbs j = some u
  head : s'.readyQueue.head = none →
    (t.status = .blocked ∨ t.status = .finished) ∧ NoneReady s t

theorem Retired.of_ready (ht : s.tcbs id = some t)
    (hne : t.status ≠ .finished ∧ t.status ≠ .blocked)
    (he : enqueueReady fuel (s.setTcb id { t with status := .ready }) a = some s') :
    Retired id t s s' := by
  have hrel := (releases_setTcb ht { t with status := .ready } rfl rfl).trans
    (enqueueReady_moved he).releases
  obtain ⟨h, r, w, u, hs'⟩ := hrel.rest
  refine ⟨by rw [hs'], by rw [hs'], by rw [hs'], fun i _ => hrel.links i,
    fun h => absurd h hne.1, fun j v hj hv _ => ?_, fun h => absurd h (enqueueReady_head he)⟩
  have hji : j ≠ id := fun heq => by
    subst heq
    rw [ht] at hj
    exact hne.2 (Option.some.inj hj ▸ hv)
  rw [hrel.others j (by simpa using hji), hj]

theorem Retired.of_finished (ht : s.tcbs id = some t) (hst : t.status = .finished) {c : ℕ}
    (hr : releaseThreads fuel s t = some s') :
    Retired id t s { s' with
      activeThreads := c
      tcbs := Function.update s'.tcbs id none
      nodes := Function.update s'.nodes a none } := by
  obtain ⟨hrel, hneg⟩ := releaseThreads_releases hr
  have hhead := releaseThreads_head hr
  obtain ⟨h, r, w, u, hs'⟩ := hrel.rest
  refine ⟨by rw [hs'], by rw [hs'], by rw [hs'], fun i hi => ?_,
    fun _ => Function.update_self .., fun j v hj hv hw => ?_, fun h => ?_⟩
  · have hi' : i ≠ id := hi.resolve_right fun h => h hst
    rw [← hrel.links i]
    exact congrArg _ (Function.update_of_ne hi' _ _)
  · have hji : j ≠ id := fun heq => by
      subst heq
      rw [ht] at hj
      rw [← Option.some.inj hj, hst] at hv
      cases hv
    refine (Function.update_of_ne hji _ _).trans ?_
    rcases hw hst with hw | hw
    · rw [hrel.others j (by simpa using hw), hj]
    · rw [hneg hw, hj]
  · have hnone : ¬(s.readyQueue.head ≠ none ∨ JoinerWaits s t) := fun hn => hhead hn h
    rw [not_or, not_not] at hnone
    exact ⟨.inr hst, hnone.1, fun _ => hnone.2⟩

theorem retire_effect (hr : retire fuel s = some s') (hid : s.runningThread = some id)
    (ht : s.tcbs id = some t) : Retired id t s s' := by
  obtain ⟨i, hi, hr⟩ := Option.bind_eq_some_iff.1 hr
  obtain rfl := Option.some.inj (hid.symm.trans hi)
  obtain ⟨node, -, hr⟩ := Option.bind_eq_some_iff.1 hr
  obtain ⟨u, hu, hr⟩ := Option.bind_eq_some_iff.1 hr
  obtain rfl := Option.some.inj (ht.symm.trans hu)
  cases hst : t.status with
  | finished =>
    rw [hst] at hr
    obtain ⟨s₁, hrel, hr⟩ := Option.bind_eq_some_iff.1 hr
    cases hr
    exact .of_finished ht hst hrel
  | blocked =>
    rw [hst] at hr
    cases hr
    have hne : t.status ≠ .finished := by
      rw [hst]
      exact Status.noConfusion
    exact ⟨rfl, rfl, rfl, fun _ _ => rfl, fun h => absurd h hne, fun _ _ h _ _ => h,
      fun h => ⟨.inl hst, h, fun hf => absurd hf hne⟩⟩
  | running =>
    rw [hst] at hr
    exact .of_ready ht (by rw [hst]; exact ⟨Status.noConfusion, Status.noConfusion⟩) hr
  | ready =>
    rw [hst] at hr
    exact .of_ready ht (by rw [hst]; exact ⟨Status.noConfusion, Status.noConfusion⟩) hr

/-- The running thread `id`, whose control block is `t`, gave way to `next`. -/
structure Switched (id : ℕ) (t : Tcb) (next : ℕ) (s s' : State) : Prop where
  thread : s'.runningThread = some next
  status : ∃ u, s'.tcbs next = some u ∧ u.status = .running
  count : s'.threadCount = s.threadCount
  cont : s'.cont = s.cont
  links : ∀ i, i ≠ id ∨ t.status ≠ .finished →
    (s'.tcbs i).map Tcb.links = (s.tcbs i).map Tcb.links
  gone : t.status = .finished → s'.tcbs id = none
  blocked : ∀ j u, s.tcbs j = some u → u.status = .blocked →
    (t.status = .finished → j ≠ t.waitingThread.toNat ∨ t.waitingThread < 0) →
    (s'.tcbs j = some u ∧ next ≠ j) ∨
      (t.status = .blocked ∨ t.status = .finished) ∧ NoneReady s t ∧ s.mainThread = some j

/-- **The switch.** What a call of the scheduler changes. -/
theorem workerYield_effect {ret : Option Ret} (hy : workerYield μ fuel s = some (.ok s' ret))
    (hid : s.runningThread = some id) (ht : s.tcbs id = some t) :
    ret = none ∧ ∃ next, Switched id t next s s' := by
  obtain ⟨s₁, hr, hd⟩ := Option.bind_eq_some_iff.1 hy
  obtain ⟨hret, next, hd⟩ := dispatch_effect hd
  have hr := retire_effect hr hid ht
  refine ⟨hret, next, {
    thread := hd.thread
    status := hd.status
    count := hd.count.trans hr.count
    cont := hd.cont.trans hr.cont
    links := fun i hi => (hd.links i).trans (hr.links i hi)
    gone := fun hst => ?_
    blocked := fun j u hj hu hw => ?_ }⟩
  · have h := hd.links id
    rw [hr.gone hst] at h
    exact Option.map_eq_none_iff.1 h
  · have hj₁ := hr.blocked j u hj hu hw
    rcases hd.chosen with ⟨hhead, hmain⟩ | ⟨v, hv, hne⟩
    · by_cases hjn : j = next
      · obtain ⟨hrun, hnone⟩ := hr.head hhead
        exact .inr ⟨hrun, hnone, by rw [← hr.main, hmain, hjn]⟩
      · exact .inl ⟨by rw [hd.others j hjn, hj₁], fun h => hjn h.symm⟩
    · have hjn : j ≠ next := fun heq => by
        rw [← heq, hj₁] at hv
        exact hne (Option.some.inj hv ▸ hu)
      exact .inl ⟨by rw [hd.others j hjn, hj₁], fun h => hjn h.symm⟩

end UserOS.Worker
