import UserOS.Worker.Steps

/-!
# What `worker_join` waits for

A thread inside `worker_join` is blocked as long as its target lives, and its target knows it. That
the join returns 0 after the exit of the target only needs that nothing else wakes the joiner, and
that a target which is not ready has exited.

* `Joins`: the invariant, which needs nothing of the queues.
* `step_joins`: a step that meets `JoinSafe` keeps it.
* `join_returns_after_exit`: so a join that returns 0 does so after its target has exited.
-/

namespace UserOS.Worker

open Lib

/-- The thread is inside a `worker_join` of a thread that lives. -/
def JoinsLive (s : State) (id thread : ℕ) : Prop :=
  (∃ v, s.cont id = .joining thread v) ∧ s.live thread = true

/-- A joiner of a live thread is blocked, and the thread that a control block names as its joiner
is one. -/
structure Joins (s : State) : Prop where
  blocked : ∀ j thread, JoinsLive s j thread → ∀ u, s.tcbs j = some u → u.status = .blocked
  joiner : ∀ thread t, s.tcbs thread = some t → 0 ≤ t.waitingThread →
    ∃ v, s.cont t.waitingThread.toNat = .joining thread v
  target : ∀ j thread v, s.cont j = .joining thread v → thread < s.threadCount
  idle : ∀ j, s.threadCount ≤ j → s.cont j = .idle

/-- The condition on the state before a call under which no join returns early: a join of a thread
that is not ready is one of a thread that has exited (or of an id beyond the next one), an unlock
releases no thread that joins a live one, and when nothing is ready the main thread, which goes on
then, joins no live thread. -/
def JoinSafe (s : State) : Call → Prop
  | .join thread _ => s.cont s.caller = .idle →
      ∀ fuel, findReadyThreads fuel s thread = some false →
      s.threadCount < thread ∨ thread < s.threadCount ∧ s.tcbs thread = none
  | .exit _ => ∀ id t main, s.runningThread = some id → s.tcbs id = some t →
      s.readyQueue.head = none → ¬JoinerWaits s t → s.mainThread = some main →
      ∀ thread, JoinsLive s main thread → thread = id
  | .lock mutex => ∀ id m main, s.runningThread = some id → s.mutexes mutex = some m →
      m.isLocked = true → m.owner ≠ id → s.readyQueue.head = none → s.mainThread = some main →
      ∀ thread, ¬JoinsLive s main thread
  | .unlock mutex => ∀ id m q fuel s₁ ids, s.runningThread = some id → s.mutexes mutex = some m →
      m.isLocked = true → m.owner = id → m.waitQueue = some q →
      unblockThreads fuel (s.setMutex mutex m.unlocked) q = some (s₁, ids) →
      ∀ j ∈ ids, ∀ thread, ¬JoinsLive s j thread
  | _ => True

variable {μ : Malloc Node} {s s' s₁ : State} {id next : ℕ} {u : Tcb} {call : Call}
  {es : List Label} {l : Label}

/-! ## The invariant over a step -/

/-- The running thread joins no live thread. -/
theorem Joins.not_running (hj : Joins s) (ha : Accounted es s) (hid : s.runningThread = some id)
    (thread : ℕ) : ¬JoinsLive s id thread := fun hlive => by
  obtain ⟨t, ht, hb, -⟩ := ha.running id hid
  exact hb (hj.blocked id thread hlive t ht)

/-- A joiner named by a live thread is not the running thread. -/
theorem Joins.joiner_ne (hj : Joins s) (ha : Accounted es s) (hid : s.runningThread = some id)
    {thread : ℕ} {t : Tcb} (ht : s.tcbs thread = some t) (hw : 0 ≤ t.waitingThread) :
    t.waitingThread.toNat ≠ id := fun heq => by
  obtain ⟨v, hv⟩ := hj.joiner thread t ht hw
  exact hj.not_running ha hid thread ⟨⟨v, heq ▸ hv⟩, by rw [State.live, ht]; rfl⟩

theorem Joins.quiet (hj : Joins s) (ha : Accounted es s) (hsame : Same s s')
    (hcont : s'.cont = s.cont ∨ ∃ id, s.runningThread = some id ∧
      s'.cont = Function.update s.cont id .idle) : Joins s' := by
  -- A continuation that is left is one of the running thread.
  have hback : ∀ j thread v, s'.cont j = .joining thread v → s.cont j = .joining thread v := by
    intro j thread v h
    rcases hcont with hc | ⟨id, -, hc⟩
    · rwa [hc] at h
    · rw [hc] at h
      by_cases hji : j = id
      · rw [hji, Function.update_self] at h
        cases h
      · rwa [Function.update_of_ne hji] at h
  have hlive : s'.live = s.live := funext fun i => live_eq_of_map (hsame.status i)
  refine ⟨fun j thread hjl w hw => ?_, fun thread t ht hw => ?_, fun j thread v h => ?_,
    fun j hle => ?_⟩
  · obtain ⟨⟨v, hv⟩, hthread⟩ := hjl
    have hst := hsame.status j
    rw [hw, Option.map_some] at hst
    obtain ⟨w', hw', heq⟩ := Option.map_eq_some_iff.1 hst.symm
    rw [← heq]
    exact hj.blocked j thread ⟨⟨v, hback j thread v hv⟩, hlive ▸ hthread⟩ w' hw'
  · have hwaits := hsame.waits thread
    rw [ht, Option.map_some] at hwaits
    obtain ⟨t', ht', heq⟩ := Option.map_eq_some_iff.1 hwaits.symm
    rw [← heq] at hw ⊢
    obtain ⟨v, hv⟩ := hj.joiner thread t' ht' hw
    rcases hcont with hc | ⟨id, hid, hc⟩
    · exact ⟨v, by rw [hc, hv]⟩
    · exact ⟨v, by rw [hc, Function.update_of_ne (hj.joiner_ne ha hid ht' hw), hv]⟩
  · rw [hsame.count]
    exact hj.target j thread v (hback j thread v h)
  · have hidle := hj.idle j (hsame.count ▸ hle)
    rcases hcont with hc | ⟨id, -, hc⟩
    · rw [hc, hidle]
    · rw [hc]
      by_cases hji : j = id
      · rw [hji, Function.update_self]
      · rw [Function.update_of_ne hji, hidle]

theorem Joins.created (hj : Joins s) (hnew : Created s s') : Joins s' := by
  have hold : ∀ i t, s'.tcbs i = some t → t.waitingThread = -1 ∨ s.tcbs i = some t := by
    intro i t ht
    by_cases hi : i < s.threadCount ∨ s'.threadCount ≤ i
    · exact .inr (hnew.old i hi ▸ ht)
    · rw [not_or, Nat.not_lt, Nat.not_le] at hi
      obtain ⟨t', ht', hw⟩ := hnew.new i hi.1 hi.2
      exact .inl (by rw [ht'] at ht; exact Option.some.inj ht ▸ hw)
  refine ⟨fun j thread hjl w hw => ?_, fun thread t ht hw => ?_, fun j thread v h => ?_,
    fun j hle => ?_⟩
  · obtain ⟨⟨v, hv⟩, hthread⟩ := hjl
    rw [hnew.cont] at hv
    have hlt := hj.target j thread v hv
    have hjlt : j < s.threadCount := by
      by_contra hle
      rw [hj.idle j (Nat.le_of_not_lt hle)] at hv
      cases hv
    rw [State.live, hnew.old thread (.inl hlt)] at hthread
    exact hj.blocked j thread ⟨⟨v, hv⟩, hthread⟩ w (hnew.old j (.inl hjlt) ▸ hw)
  · rw [hnew.cont]
    rcases hold thread t ht with hneg | ht'
    · rw [hneg] at hw
      exact absurd hw (by decide)
    · exact hj.joiner thread t ht' hw
  · rw [hnew.cont] at h
    exact Nat.lt_of_lt_of_le (hj.target j thread v h) hnew.count
  · rw [hnew.cont]
    exact hj.idle j (Nat.le_trans hnew.count hle)

theorem Joins.released {ids : List ℕ} {s₀ : State} (hj : Joins s) (hrel : Releases ids s₀ s₁)
    (h₀ : s₀.tcbs = s.tcbs)
    (hsafe : ∀ j ∈ ids, ∀ thread, ¬JoinsLive s j thread)
    (hcount : s'.threadCount = s.threadCount) (hcont : s'.cont = s.cont)
    (htcbs : s'.tcbs = s₁.tcbs) : Joins s' := by
  refine ⟨fun j thread hjl w hw => ?_, fun thread t ht hw => ?_, fun j thread v h => ?_,
    fun j hle => ?_⟩
  · obtain ⟨⟨v, hv⟩, hthread⟩ := hjl
    have hjl : JoinsLive s j thread := by
      refine ⟨⟨v, hcont ▸ hv⟩, ?_⟩
      have h := congrFun hrel.live thread
      rw [State.live, htcbs] at hthread
      rwa [State.live, hthread, State.live, h₀, eq_comm] at h
    have hjids : j ∉ ids := fun hmem => hsafe j hmem thread hjl
    rw [htcbs, hrel.others j hjids, h₀] at hw
    exact hj.blocked j thread hjl w hw
  · have hwaits := waits_of_links (hrel.links thread)
    rw [← htcbs, ht, Option.map_some, h₀] at hwaits
    obtain ⟨t', ht', heq⟩ := Option.map_eq_some_iff.1 hwaits.symm
    rw [← heq] at hw ⊢
    rw [hcont]
    exact hj.joiner thread t' ht' hw
  · rw [hcount]
    exact hj.target j thread v (hcont ▸ h)
  · rw [hcont]
    exact hj.idle j (hcount ▸ hle)

/-- The running thread gets a new continuation before a switch. If it is a join, it is blocked and
the target names it. -/
theorem Joins.park (hj : Joins s) (ha : Accounted es s) (hid : s.runningThread = some id)
    (c : Cont) (hcont : s₁.cont = Function.update s.cont id c)
    (hcount : s₁.threadCount = s.threadCount) (hlive : s₁.live = s.live)
    (hself : s₁.tcbs id = some u)
    (hstatus : ∀ j, j ≠ id → (s₁.tcbs j).map Tcb.status = (s.tcbs j).map Tcb.status)
    (hblocked : ∀ thread v, c = .joining thread v →
      (s.live thread = true → u.status = .blocked) ∧ thread < s.threadCount)
    (hwaits : ∀ thread t, s₁.tcbs thread = some t →
      (∃ t', s.tcbs thread = some t' ∧ t'.waitingThread = t.waitingThread) ∨
      t.waitingThread = id ∧ ∃ v, c = .joining thread v) : Joins s₁ := by
  refine ⟨fun j thread hjl w hw => ?_, fun thread t ht hw => ?_, fun j thread v h => ?_,
    fun j hle => ?_⟩
  · obtain ⟨⟨v, hv⟩, hthread⟩ := hjl
    rw [hcont] at hv
    rw [hlive] at hthread
    by_cases hji : j = id
    · subst hji
      rw [Function.update_self] at hv
      rw [hself] at hw
      rw [← Option.some.inj hw]
      exact (hblocked thread v hv).1 hthread
    · rw [Function.update_of_ne hji] at hv
      have hst := hstatus j hji
      rw [hw, Option.map_some] at hst
      obtain ⟨w', hw', heq⟩ := Option.map_eq_some_iff.1 hst.symm
      rw [← heq]
      exact hj.blocked j thread ⟨⟨v, hv⟩, hthread⟩ w' hw'
  · rw [hcont]
    rcases hwaits thread t ht with ⟨t', ht', heq⟩ | ⟨heq, v, hc⟩
    · rw [← heq] at hw ⊢
      obtain ⟨v, hv⟩ := hj.joiner thread t' ht' hw
      exact ⟨v, by rw [Function.update_of_ne (hj.joiner_ne ha hid ht' hw), hv]⟩
    · exact ⟨v, by rw [heq, Int.toNat_natCast, Function.update_self, hc]⟩
  · rw [hcount]
    rw [hcont] at h
    by_cases hji : j = id
    · rw [hji, Function.update_self] at h
      exact (hblocked thread v h).2
    · rw [Function.update_of_ne hji] at h
      exact hj.target j thread v h
  · rw [hcount] at hle
    have hji : j ≠ id := fun heq => by
      obtain ⟨t, ht, -⟩ := ha.running id hid
      have hlt := ha.bound id (by rw [State.live, ht]; rfl)
      exact absurd (heq ▸ hle) (Nat.not_le.2 hlt)
    rw [hcont, Function.update_of_ne hji, hj.idle j hle]

/-- The invariant holds when a call is about to switch. -/
theorem Joins.before (hj : Joins s) (ha : Accounted es s) (hid : s.runningThread = some id)
    (hb : Before s id s₁ u) (hsw : Switches s id s₁ u call) : Joins s₁ := by
  obtain ⟨t₀, ht₀, -⟩ := ha.running id hid
  have hlive := hsw.live (by rw [State.live, ht₀]; rfl)
  have hstay : ∀ thread v, s.cont id = .joining thread v →
      (s.live thread = true → u.status = .blocked) ∧ thread < s.threadCount := fun thread v hc =>
    ⟨fun hl => absurd ⟨⟨v, hc⟩, hl⟩ (hj.not_running ha hid thread), hj.target id thread v hc⟩
  have hself := hb.self
  cases hsw with
  | yield _ ht hcont =>
    refine hj.park ha hid (s.cont id) (by rw [hcont, Function.update_eq_self]) hb.count hlive hself
      (fun j _ => by rw [ht]) hstay fun thread t h => .inl ⟨t, ht ▸ h, rfl⟩
  | @exit _ t ht hu htcbs hcont =>
    refine hj.park ha hid (s.cont id) (by rw [hcont, Function.update_eq_self]) hb.count hlive hself
      (fun j hji => by rw [htcbs, Function.update_of_ne hji]) hstay fun thread w h => .inl ?_
    rw [htcbs] at h
    by_cases hi : thread = id
    · rw [hi, Function.update_self] at h
      obtain rfl := Option.some.inj h
      exact ⟨t, hi ▸ ht, by rw [hu]⟩
    · rw [Function.update_of_ne hi] at h
      exact ⟨w, h, rfl⟩
  | @lock mutex _ t _ _ _ ht hblocked hu htcbs hcont =>
    refine hj.park ha hid (.locking mutex) hcont hb.count hlive hself
      (fun j hji => by rw [htcbs, Function.update_of_ne hji]) (fun _ _ hc => Cont.noConfusion hc)
      fun thread w h => .inl ?_
    rw [htcbs] at h
    by_cases hi : thread = id
    · rw [hi, Function.update_self] at h
      obtain rfl := Option.some.inj h
      exact ⟨t, hi ▸ ht, hu.symm⟩
    · rw [Function.update_of_ne hi] at h
      exact ⟨w, h, rfl⟩
  | @join target v w t _ hw ht hblocked hu htcbs hcont =>
    refine hj.park ha hid (.joining target v) hcont hb.count hlive hself (fun j hji => ?_)
      (fun _ _ hc => ?_) fun thread x h => ?_
    · rw [htcbs, Function.update_of_ne hji]
      by_cases hjt : j = target
      · rw [hjt, Function.update_self, hw]
        rfl
      · rw [Function.update_of_ne hjt]
    · cases hc
      exact ⟨fun _ => hblocked, ha.bound target (by rw [State.live, hw]; rfl)⟩
    · -- The target names the running thread, the others name who they named.
      have hx : ∃ y, Function.update s.tcbs target (some { w with waitingThread := id }) thread =
          some y ∧ y.waitingThread = x.waitingThread := by
        rw [htcbs] at h
        by_cases hi : thread = id
        · rw [hi, Function.update_self] at h
          exact ⟨t, hi ▸ ht, by rw [← Option.some.inj h, hu]⟩
        · rw [Function.update_of_ne hi] at h
          exact ⟨x, h, rfl⟩
      obtain ⟨y, hy, heq⟩ := hx
      by_cases htarget : thread = target
      · rw [htarget, Function.update_self] at hy
        refine .inr ⟨?_, v, by rw [htarget]⟩
        rw [← heq, ← Option.some.inj hy]
      · rw [Function.update_of_ne htarget] at hy
        exact .inl ⟨y, hy, heq⟩

/-- The invariant holds after the switch, unless the main thread goes on inside a join. -/
theorem Joins.switched (hj : Joins s) (hself : s.tcbs id = some u) (hsw : Switched id u next s s')
    (hmain : ∀ main, (u.status = .blocked ∨ u.status = .finished) → NoneReady s u →
      s.mainThread = some main → ∀ thread, JoinsLive s main thread →
      u.status = .finished ∧ thread = id) : Joins s' := by
  have hback : ∀ j, s'.live j = true → s.live j = true ∧ (u.status = .finished → j ≠ id) := by
    intro j hlive
    have hne : u.status = .finished → j ≠ id := fun hf heq => by
      rw [heq, State.live, hsw.gone hf] at hlive
      cases hlive
    refine ⟨?_, hne⟩
    by_cases hf : u.status = .finished
    · rwa [live_eq_of_map (hsw.links j (.inl (hne hf)))] at hlive
    · rwa [live_eq_of_map (hsw.links j (.inr hf))] at hlive
  refine ⟨fun j thread hjl w' hw' => ?_, fun thread t ht hw => ?_, fun j thread v h => ?_,
    fun j hle => ?_⟩
  · obtain ⟨⟨v, hv⟩, hthread⟩ := hjl
    rw [hsw.cont] at hv
    obtain ⟨hthread, hne⟩ := hback thread hthread
    obtain ⟨hlive, -⟩ := hback j (by rw [State.live, hw']; rfl)
    obtain ⟨w, hw⟩ := Option.isSome_iff_exists.1 hlive
    have hb := hj.blocked j thread ⟨⟨v, hv⟩, hthread⟩ w hw
    -- The exit of another thread does not release the joiner.
    have hnot : u.status = .finished → j ≠ u.waitingThread.toNat ∨ u.waitingThread < 0 := by
      intro hf
      by_cases hneg : u.waitingThread < 0
      · exact .inr hneg
      · refine .inl fun heq => ?_
        obtain ⟨v', hv'⟩ := hj.joiner id u hself (Int.not_lt.1 hneg)
        rw [← heq, hv] at hv'
        cases hv'
        exact hne hf rfl
    rcases hsw.blocked j w hw hb hnot with ⟨hsame, -⟩ | ⟨hst, hnone, hj'⟩
    · rw [hsame] at hw'
      rw [← Option.some.inj hw', hb]
    · obtain ⟨hf, heq⟩ := hmain j hst hnone hj' thread ⟨⟨v, hv⟩, hthread⟩
      exact absurd heq (hne hf)
  · rw [hsw.cont]
    have hne : thread ≠ id ∨ u.status ≠ .finished := by
      by_contra hboth
      rw [not_or, not_not, not_not] at hboth
      rw [hboth.1, hsw.gone hboth.2] at ht
      cases ht
    have hwaits := waits_of_links (hsw.links thread hne)
    rw [ht, Option.map_some] at hwaits
    obtain ⟨t', ht', heq⟩ := Option.map_eq_some_iff.1 hwaits.symm
    rw [← heq] at hw ⊢
    exact hj.joiner thread t' ht' hw
  · rw [hsw.count]
    exact hj.target j thread v (hsw.cont ▸ h)
  · rw [hsw.cont]
    exact hj.idle j (hsw.count ▸ hle)

/-- A step keeps the invariant. The condition on a join is for its result. -/
theorem step_joins (hj : Joins s) (ha : Accounted es s)
    (hsafe : (∀ thread v, l.call ≠ .join thread v) → JoinSafe s l.call) (hs : Step μ s l s') :
    Joins s' := by
  obtain ⟨thread, call, ret⟩ := l
  obtain ⟨-, fuel, he⟩ := hs
  cases exec_effect he with
  | quiet hsame hcont _ => exact hj.quiet ha hsame hcont
  | created hnew => exact hj.created hnew
  | released hid hm hlocked howner hq hloop _ hcount hcont htcbs =>
    have hids := hsafe (fun _ _ => Call.noConfusion) _ _ _ _ _ _ hid hm hlocked howner hq hloop
    obtain ⟨l, hl, hrel⟩ := unblockLoop_releases hloop
    rw [List.nil_append] at hl
    subst hl
    exact hj.released hrel rfl hids hcount hcont htcbs
  | @switched _ id next u s₁ _ hid hb hswitches hsw =>
    obtain ⟨t₀, ht₀, hst₀⟩ := ha.running id hid
    have hlive := hswitches.live (by rw [State.live, ht₀]; rfl)
    refine (hj.before ha hid hb hswitches).switched hb.self hsw
      fun main hst hnone hmain target hjl => ?_
    obtain ⟨⟨v, hv⟩, htarget⟩ := hjl
    rw [hlive] at htarget
    rw [hb.main] at hmain
    have hnone := hb.none hnone
    cases hswitches with
    | yield _ ht _ =>
      -- A thread that yields is ready itself.
      have hself := hb.self
      rw [ht, ht₀, Option.some.injEq] at hself
      rw [← hself] at hst
      exact absurd hst (not_or.2 hst₀)
    | exit ht hu _ hcont =>
      rw [hcont] at hv
      have hf : u.status = .finished := by rw [hu]
      have hwaits := hnone.2 hf
      rw [hu] at hwaits
      exact ⟨hf, hsafe (fun _ _ => Call.noConfusion) _ _ main hid ht hnone.1 hwaits hmain target
        ⟨⟨v, hv⟩, htarget⟩⟩
    | join hhead _ _ _ _ _ _ => exact absurd hnone.1 hhead
    | lock hm hlocked howner _ _ _ _ hcont =>
      have hne : main ≠ id := fun heq => by
        rw [hcont, heq, Function.update_self] at hv
        cases hv
      rw [hcont, Function.update_of_ne hne] at hv
      exact absurd ⟨⟨v, hv⟩, htarget⟩
        (hsafe (fun _ _ => Call.noConfusion) _ _ main hid hm hlocked howner hnone.1 hmain target)

/-! ## Runs -/

theorem joins_start : Joins State.start :=
  ⟨fun _ _ h => (nomatch h.2), fun _ _ h => (nomatch h), fun _ _ _ h => (nomatch h), fun _ _ => rfl⟩

/-- **Join waits.** After a run of such steps, a `worker_join` that returns 0 has the id of a thread
that was created and has called `worker_exit`. -/
theorem join_returns_after_exit
    (hr : Run (Guarded (fun u l => JoinSafe u l.call) (Step μ)) State.start es s)
    (hs : Guarded (fun u l => JoinSafe u l.call) (Step μ) s l s') {thread : ℕ} {v : Bool}
    (hcall : l.call = .join thread v) (hret : l.ret.map Ret.code = some 0) :
    thread < s.threadCount ∧ Exited es thread := by
  have ha : Accounted es s := run_accounted (hr.mono fun _ _ _ h => h.2)
  have hj : Accounted es s ∧ Joins s := by
    refine Run.history (I := fun es u => Accounted es u ∧ Joins u) ⟨accounted_start, joins_start⟩
      (fun fs u e w h hstep => ?_) hr
    exact ⟨step_accounted h.1 hstep.2, step_joins h.2 h.1 (fun _ => hstep.1) hstep.2⟩
  obtain ⟨hsafe, -, fuel, he⟩ := hs
  have hdead : thread < s.threadCount → s.live thread = false → thread < s.threadCount ∧
      Exited es thread := fun hlt hlive =>
    ⟨hlt, (ha.created thread hlt).resolve_left (by simp [hlive])⟩
  rcases (exec_effect he).joinReturns thread v hcall hret with ⟨id, hid, hcont⟩ |
      ⟨hidle, hle, n, hn⟩
  · -- The thread goes on inside the join, so that its target is not alive.
    refine hdead (hj.2.target id thread v hcont) ?_
    have hnot := hj.2.not_running ha hid thread
    by_contra hlive
    exact hnot ⟨⟨v, hcont⟩, by simpa using hlive⟩
  · rw [hcall] at hsafe
    rcases hsafe hidle n hn with hgt | ⟨hlt, hnone⟩
    · exact absurd hle (Nat.not_le.2 hgt)
    · exact hdead hlt (by rw [State.live, hnone]; rfl)

/-- The main thread joins thread 1, which is ready, and goes on when thread 1 has exited. -/
theorem join_returns_after_exit_ready :
    1 < (after [.create, .join 1 false, .exit 0]).threadCount ∧
      Exited [⟨0, .create, code 1⟩, ⟨0, .join 1 false, none⟩, ⟨1, .exit 0, none⟩] 1 := by
  have hready : ∀ fuel, findReadyThreads fuel (after [.create]) 1 ≠ some false := by
    intro fuel h
    rcases fuel with - | fuel
    · cases h
    · cases h
  have hcreate : Run (Guarded (fun u l => JoinSafe u l.call) (Step (Malloc.bump Node))) .start
      [⟨0, .create, code 1⟩] (after [.create]) := .single ⟨trivial, rfl, 9, rfl⟩
  have hjoin : Guarded (fun u l => JoinSafe u l.call) (Step (Malloc.bump Node)) (after [.create])
      ⟨0, .join 1 false, none⟩ (after [.create, .join 1 false]) :=
    ⟨fun _ fuel h => absurd h (hready fuel), rfl, 9, rfl⟩
  have hexit : Guarded (fun u l => JoinSafe u l.call) (Step (Malloc.bump Node))
      (after [.create, .join 1 false]) ⟨1, .exit 0, none⟩
      (after [.create, .join 1 false, .exit 0]) := by
    refine ⟨?_, rfl, 9, rfl⟩
    rintro id t main hid - - - hmain thread ⟨⟨v, hv⟩, -⟩
    cases hid
    cases hmain
    cases hv
    rfl
  have hreturn : Guarded (fun u l => JoinSafe u l.call) (Step (Malloc.bump Node))
      (after [.create, .join 1 false, .exit 0]) ⟨0, .join 1 false, code 0⟩
      (after [.create, .join 1 false, .exit 0, .join 1 false]) :=
    ⟨fun h => (nomatch h), rfl, 9, rfl⟩
  exact join_returns_after_exit ((hcreate.snoc hjoin).snoc hexit) hreturn rfl rfl

/-- Thread 1 joins thread 2 and is blocked. The main thread, which joins thread 1, does not find it
ready and returns at once. -/
theorem join_blocked_returns : ¬∀ es s l s', Run (Step (Malloc.bump Node)) State.start es s →
    Step (Malloc.bump Node) s l s' → ∀ thread v, l.call = .join thread v →
      l.ret.map Ret.code = some 0 → thread < s.threadCount ∧ Exited es thread := by
  intro hall
  have hr : Run (Guarded (fun _ _ => True) (Step (Malloc.bump Node))) .start
      [⟨0, .create, code 1⟩, ⟨0, .create, code 2⟩, ⟨0, .yield, none⟩, ⟨1, .join 2 false, none⟩,
        ⟨2, .yield, none⟩]
      (after [.create, .create, .yield, .join 2 false, .yield]) :=
    run_of_follow (fun _ _ => True) 9 [.create, .create, .yield, .join 2 false, .yield] rfl
      fun _ _ _ => trivial
  obtain ⟨-, l, hl, -, v, hcall⟩ := hall _ _ ⟨0, .join 1 false, code 0⟩
    (after [.create, .create, .yield, .join 2 false, .yield, .join 1 false])
    (hr.mono fun _ _ _ h => h.2) ⟨rfl, 9, rfl⟩ 1 false rfl rfl
  simp only [List.mem_cons, List.not_mem_nil, or_false] at hl
  rcases hl with rfl | rfl | rfl | rfl | rfl <;> cases hcall

end UserOS.Worker
