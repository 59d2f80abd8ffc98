import UserOS.Worker.Steps

/-!
# One joiner for each thread

A target keeps the id of its joiner in `waiting_thread`, where -1 stands for none. The check of
`worker_join` for another joiner is `waiting_thread > 0`, so that the main thread, whose id is 0,
passes for none; and the path that refuses leaves `interrupt_disabled` set.

* `firstJoiner`: the thread whose join of the target blocked first.
* `JoinOnce`: no target is joined again, and at an exit the joiner is in the waiting queue.
* `Joiners`: the invariant: the target names its first joiner.
* `one_joiner`: so the first joiner is the one that the exit makes ready.
* `second_join_breaks`: whatever a second join does, it is not what the check is for.
-/

namespace UserOS.Worker

open Lib

variable {μ : Malloc Node} {s s' s₁ : State} {a id fuel thread : ℕ} {t w : Tcb} {call : Call}
  {ret : Option Ret} {es : List Label} {l : Label}

/-! ## Joins that found their target -/

/-- The label of a `worker_join` that found its target and blocked. -/
def Label.blocksOn (thread : ℕ) (l : Label) : Bool :=
  match l.call, l.ret with
  | .join target _, none => target = thread
  | _, _ => false

/-- The thread whose join of the target blocked first. -/
def firstJoiner (es : List Label) (thread : ℕ) : Option ℕ :=
  (es.find? (Label.blocksOn thread)).map Label.thread

/-- `worker_join` finds its target, which is in the ready queue. -/
def Finds (s : State) (thread : ℕ) : Prop := ∃ fuel, findReadyThreads fuel s thread = some true

/-- The exit of `id` makes `joiner` ready, and no other thread: it runs at once, or its node is the
last of the ready queue. -/
structure BecomesReady (id joiner : ℕ) (s s' : State) : Prop where
  ready : s'.runningThread = some joiner ∨ ∃ t a, s'.tcbs joiner = some t ∧ t.status = .ready ∧
    s'.readyQueue.tail = some a ∧ tcbOf s'.nodes a = some joiner
  others : ∀ i, i ≠ id → i ≠ joiner → s'.runningThread ≠ some i → s'.tcbs i = s.tcbs i

/-- What a step does with the joiner of a target, after the labels `es`. -/
structure OneJoiner (es : List Label) (s : State) (l : Label) (s' : State) : Prop where
  first : ∀ thread v, l.call = .join thread v → s.cont s.caller = .idle → Finds s thread →
    firstJoiner es thread = none → (s'.tcbs thread).map Tcb.waitingThread = some (l.thread : ℤ)
  later : ∀ thread v joiner, l.call = .join thread v → s.cont s.caller = .idle → Finds s thread →
    firstJoiner es thread = some joiner →
    l.ret = code (-1) ∧ s' = { s with interruptDisabled := false }
  exit : ∀ valuePtr joiner, l.call = .exit valuePtr → firstJoiner es l.thread = some joiner →
    BecomesReady l.thread joiner s s'

/-- The condition on the state before a call: a join that finds its target finds it without a
joiner, and the joiner of a thread that exits is another thread, in the waiting queue. -/
def JoinOnce (s : State) : Call → Prop
  | .join thread _ => s.cont s.caller = .idle → Finds s thread →
      ∀ w, s.tcbs thread = some w → w.waitingThread < 0
  | .exit _ => ∀ id t, s.runningThread = some id → s.tcbs id = some t → 0 ≤ t.waitingThread →
      t.waitingThread.toNat ≠ id ∧ JoinerWaits s t
  | _ => True

theorem firstJoiner_snoc : firstJoiner (es ++ [l]) thread =
    (firstJoiner es thread).or (if l.blocksOn thread then some l.thread else none) := by
  unfold firstJoiner
  rw [List.find?_append, List.find?_singleton]
  cases es.find? (Label.blocksOn thread) with
  | some e => rfl
  | none => cases l.blocksOn thread <;> rfl

theorem blocksOn_of_ne (h : ∀ target v, l.call ≠ .join target v) : l.blocksOn thread = false := by
  obtain ⟨i, call, ret⟩ := l
  cases call with
  | join target v => exact absurd rfl (h target v)
  | _ => rfl

/-! ## The joiner that a target names -/

/-- A target that is found lives. -/
theorem Finds.live (h : Finds s thread) : s.live thread = true := by
  obtain ⟨n, hfound⟩ := h
  obtain ⟨⟨prev, head⟩, hfind, hsome⟩ := Option.bind_eq_some_iff.1 hfound
  obtain ⟨b, rfl⟩ := Option.isSome_iff_exists.1 (Option.some.inj hsome)
  obtain ⟨m, hm, hstop⟩ := walk_stop hfind
  split_ifs at hstop with hlive
  obtain rfl : m.tcb = thread := by simpa using hstop
  exact hlive

theorem findReadyThreads_unique {n : ℕ} {b c : Bool} (h : findReadyThreads fuel s thread = some b)
    (h' : findReadyThreads n s thread = some c) : b = c := by
  obtain ⟨r, hfind, hr⟩ := Option.bind_eq_some_iff.1 h
  obtain ⟨r', hfind', hr'⟩ := Option.bind_eq_some_iff.1 h'
  have hmore := walk_mono hfind (Nat.le_add_right fuel n)
  rw [walk_mono hfind' (Nat.le_add_left n fuel)] at hmore
  obtain rfl := Option.some.inj hmore
  exact Option.some.inj (hr.symm.trans hr')

/-- A join changes no joiner unless it blocks; then the caller is the joiner of the target. A call
that finds its target does not block only if the target has another joiner than the main thread. -/
theorem join_waits {v : Bool} (he : exec μ fuel s (.join thread v) = some (.ok s' ret)) :
    (ret ≠ none ∧ s'.tcbs = s.tcbs ∧ s'.threadCount = s.threadCount ∧
      (s.cont s.caller = .idle → Finds s thread → ∀ w, s.tcbs thread = some w →
        0 < w.waitingThread)) ∨
    ret = none ∧ s'.threadCount = s.threadCount ∧ s.cont s.caller = .idle ∧ Finds s thread ∧
      (s'.tcbs thread).map Tcb.waitingThread = some (s.caller : ℤ) ∧
      ∀ i, i ≠ thread →
        (s'.tcbs i).map Tcb.waitingThread = (s.tcbs i).map Tcb.waitingThread := by
  rcases exec_join_cases he with
    ⟨hcont, hj⟩ | ⟨hidle, id, node, hid, -, ⟨hnot, hj⟩ | ⟨hfound, w, hw, hj⟩⟩
  · obtain ⟨i, -, hj⟩ := Option.bind_eq_some_iff.1 hj
    cases hj
    refine .inl ⟨Option.some_ne_none _, rfl, rfl, fun hidle => ?_⟩
    rw [hcont] at hidle
    cases hidle
  · have hfinds : ¬Finds s thread := fun ⟨n, hn⟩ =>
      absurd (findReadyThreads_unique hnot hn) Bool.false_ne_true
    unfold joinFinished at hj
    dsimp only at hj
    split_ifs at hj <;> cases hj <;>
      exact .inl ⟨Option.some_ne_none _, rfl, rfl, fun _ h => absurd h hfinds⟩
  · unfold joinReady at hj
    split_ifs at hj with hpos
    · cases hj
      refine .inl ⟨Option.some_ne_none _, rfl, rfl, fun _ _ u hu => ?_⟩
      obtain rfl := Option.some.inj (hw.symm.trans hu)
      exact hpos
    · right
      obtain ⟨t, ht, hj⟩ := Option.bind_eq_some_iff.1 hj
      obtain ⟨s₁, henq, hy⟩ := Option.bind_eq_some_iff.1 hj
      obtain ⟨h, r, q, rfl⟩ := (enqueueWaiting_moved henq).rest
      obtain ⟨rfl, next, hsw⟩ := workerYield_effect hy hid (Function.update_self ..)
      have hlinks : ∀ i, (s'.tcbs i).map Tcb.waitingThread =
          (Function.update s.tcbs thread (some { w with waitingThread := id }) i).map
            Tcb.waitingThread := fun i => by
        refine (waits_of_links (hsw.links i (.inr Status.noConfusion))).trans (waits_of_links ?_)
        refine links_setTcb ht ?_ i
        rfl
      refine ⟨rfl, hsw.count, hidle, ⟨fuel, hfound⟩, ?_, fun i hi => ?_⟩
      · rw [hlinks, Function.update_self, State.caller, hid]
        rfl
      · rw [hlinks, Function.update_of_ne hi]

/-- The running node is one of the running thread. -/
def NodePoints (s : State) : Prop :=
  ∀ a id, s.runningNode = some a → s.runningThread = some id → tcbOf s.nodes a = some id

/-- A target names its first joiner, -1 if it has none, and the running node is one of the running
thread. -/
structure Joiners (es : List Label) (s : State) : Prop where
  created : ∀ thread joiner, firstJoiner es thread = some joiner → thread < s.threadCount
  named : ∀ thread w, s.tcbs thread = some w →
    w.waitingThread = (firstJoiner es thread).elim (-1) Nat.cast
  node : NodePoints s

theorem joiners_start : Joiners [] State.start :=
  ⟨fun _ _ h => (nomatch h), fun _ _ h => (nomatch h), fun _ _ h => (nomatch h)⟩

/-- No thread is the joiner of two labels, so that a step keeps who joins whom. -/
theorem Joiners.of_waits (hj : Joiners es s) (hl : ∀ thread, l.blocksOn thread = false)
    (hcount : s.threadCount ≤ s'.threadCount)
    (hwaits : ∀ thread w, s'.tcbs thread = some w →
      (s.tcbs thread).map Tcb.waitingThread = some w.waitingThread ∨
        s.threadCount ≤ thread ∧ w.waitingThread = -1)
    (hnode : NodePoints s') : Joiners (es ++ [l]) s' := by
  have hsame : ∀ thread, firstJoiner (es ++ [l]) thread = firstJoiner es thread := fun thread => by
    rw [firstJoiner_snoc, hl]
    simp
  refine ⟨fun thread joiner h => ?_, fun thread w hw => ?_, hnode⟩
  · rw [hsame] at h
    exact Nat.lt_of_lt_of_le (hj.created thread joiner h) hcount
  · rw [hsame]
    rcases hwaits thread w hw with hold | ⟨hle, hnew⟩
    · obtain ⟨t, ht, heq⟩ := Option.map_eq_some_iff.1 hold
      rw [← heq, hj.named thread t ht]
    · have hnone : firstJoiner es thread = none := by
        cases h : firstJoiner es thread with
        | none => rfl
        | some joiner => exact absurd (hj.created thread joiner h) (Nat.not_lt.2 hle)
      rw [hnew, hnone, Option.elim_none]

/-- A join that blocks makes its caller the first joiner of the target. -/
theorem Joiners.of_blocks (hj : Joiners es s) (ha : Accounted es s) (hl : l.blocksOn thread = true)
    (hother : ∀ i, i ≠ thread → l.blocksOn i = false) (hcaller : l.thread = s.caller)
    (hnone : firstJoiner es thread = none) (hlive : s.live thread = true)
    (hcount : s'.threadCount = s.threadCount)
    (hself : (s'.tcbs thread).map Tcb.waitingThread = some (s.caller : ℤ))
    (hwaits : ∀ i, i ≠ thread →
      (s'.tcbs i).map Tcb.waitingThread = (s.tcbs i).map Tcb.waitingThread)
    (hnode : NodePoints s') : Joiners (es ++ [l]) s' := by
  have hfirst : firstJoiner (es ++ [l]) thread = some s.caller := by
    rw [firstJoiner_snoc, hnone, hl, Option.none_or, if_pos rfl, hcaller]
  have hsame : ∀ i, i ≠ thread → firstJoiner (es ++ [l]) i = firstJoiner es i := fun i hi => by
    rw [firstJoiner_snoc, hother i hi]
    simp
  refine ⟨fun i joiner h => ?_, fun i w hw => ?_, hnode⟩
  · rw [hcount]
    by_cases hi : i = thread
    · exact hi ▸ ha.bound thread hlive
    · rw [hsame i hi] at h
      exact hj.created i joiner h
  · by_cases hi : i = thread
    · subst hi
      rw [hw] at hself
      rw [hfirst]
      exact Option.some.inj hself
    · have h := hwaits i hi
      rw [hw] at h
      obtain ⟨t, ht, heq⟩ := Option.map_eq_some_iff.1 h.symm
      rw [hsame i hi, ← heq, hj.named i t ht]

/-- The other calls change no joiner; a new thread has none. -/
theorem Effect.waits (he : Effect s call s' ret) (hcall : ∀ target v, call ≠ .join target v) :
    s.threadCount ≤ s'.threadCount ∧ ∀ thread w, s'.tcbs thread = some w →
      (s.tcbs thread).map Tcb.waitingThread = some w.waitingThread ∨
        s.threadCount ≤ thread ∧ w.waitingThread = -1 := by
  cases he with
  | quiet hsame _ _ =>
    refine ⟨Nat.le_of_eq hsame.count.symm, fun thread w hw => .inl ?_⟩
    rw [← hsame.waits thread, hw, Option.map_some]
  | created hnew =>
    refine ⟨hnew.count, fun thread w hw => ?_⟩
    by_cases hold : thread < s.threadCount ∨ s'.threadCount ≤ thread
    · rw [← hnew.old thread hold, hw]
      exact .inl rfl
    · rw [not_or, Nat.not_lt, Nat.not_le] at hold
      obtain ⟨t, ht, hneg⟩ := hnew.new thread hold.1 hold.2
      rw [ht] at hw
      exact .inr ⟨hold.1, Option.some.inj hw ▸ hneg⟩
  | released _ _ _ _ _ hloop _ hcount _ htcbs =>
    obtain ⟨ids, -, hrel⟩ := unblockLoop_releases hloop
    refine ⟨Nat.le_of_eq hcount.symm, fun thread w hw => .inl ?_⟩
    have h := waits_of_links (hrel.links thread)
    rw [← htcbs, hw] at h
    exact h.symm
  | @switched _ id next u s₁ _ hid hbefore hswitches hsw =>
    refine ⟨Nat.le_of_eq (hsw.count.trans hbefore.count).symm, fun thread w hw => .inl ?_⟩
    have hne : thread ≠ id ∨ u.status ≠ .finished := by
      by_contra hboth
      rw [not_or, not_not, not_not] at hboth
      rw [hboth.1, hsw.gone hboth.2] at hw
      cases hw
    have h := waits_of_links (hsw.links thread hne)
    rw [hw, Option.map_some] at h
    -- The running thread keeps its joiner.
    have hupdate : ∀ t, s.tcbs id = some t → u.waitingThread = t.waitingThread →
        s₁.tcbs = Function.update s.tcbs id (some u) →
        (s₁.tcbs thread).map Tcb.waitingThread = (s.tcbs thread).map Tcb.waitingThread := by
      intro t ht hu hs₁
      rw [hs₁]
      by_cases hi : thread = id
      · rw [hi, Function.update_self, ht, Option.map_some, Option.map_some, hu]
      · rw [Function.update_of_ne hi]
    cases hswitches with
    | yield _ hs₁ _ => rw [h, hs₁]
    | exit ht hu hs₁ _ => rw [h, hupdate _ ht (by rw [hu]) hs₁]
    | join => exact absurd rfl (hcall _ _)
    | lock _ _ _ ht _ hu hs₁ _ => rw [h, hupdate _ ht hu hs₁]

/-! ## The running node -/

theorem dispatch_points (hd : dispatch μ s = some (.ok s' ret)) : NodePoints s' := by
  obtain ⟨⟨h, q, next⟩, -, hd⟩ := Option.bind_eq_some_iff.1 hd
  cases next with
  | none =>
    cases hm : s.mainThread with
    | none =>
      simp only [hm] at hd
      cases hd
    | some main =>
      simp only [hm] at hd
      obtain ⟨⟨s₁, b⟩, hnode, hd⟩ := Option.bind_eq_some_iff.1 hd
      obtain ⟨t, -, hd⟩ := Option.bind_eq_some_iff.1 hd
      obtain ⟨-, rfl⟩ := createNode_eq hnode
      cases hd
      intro a id ha hid
      cases ha
      cases hid
      simp [tcbOf, State.setTcb]
  | some b =>
    obtain ⟨n, hn, hd⟩ := Option.bind_eq_some_iff.1 hd
    obtain ⟨t, -, hd⟩ := Option.bind_eq_some_iff.1 hd
    split_ifs at hd
    · cases hd
    · cases hd
      intro a id ha hid
      cases ha
      cases hid
      change h b = some n at hn
      change (h b).map Node.tcb = some n.tcb
      rw [hn, Option.map_some]

theorem workerYield_points (hy : workerYield μ fuel s = some (.ok s' ret)) : NodePoints s' := by
  obtain ⟨s₁, -, hd⟩ := Option.bind_eq_some_iff.1 hy
  exact dispatch_points hd

theorem workerCreate_points (hc : workerCreate μ fuel s = some (.ok s' ret))
    (hpoints : NodePoints s) : NodePoints s' := by
  obtain ⟨s₁, hmain, hc⟩ := Option.bind_eq_some_iff.1 hc
  have hpoints₁ : NodePoints s₁ := by
    unfold ensureMain at hmain
    split_ifs at hmain
    · obtain ⟨⟨s₂, b⟩, hnode, hmain⟩ := Option.bind_eq_some_iff.1 hmain
      obtain ⟨-, rfl⟩ := createNode_eq hnode
      cases hmain
      intro a id ha hid
      cases ha
      cases hid
      simp [tcbOf]
    · cases hmain
      exact hpoints
  obtain ⟨⟨s₂, b⟩, hnode, hc⟩ := Option.bind_eq_some_iff.1 hc
  obtain ⟨s₃, henq, hc⟩ := Option.bind_eq_some_iff.1 hc
  cases hc
  obtain ⟨hfree, rfl⟩ := createNode_eq hnode
  obtain ⟨⟨h, r, w, rfl⟩, hids⟩ := enqueueReady_moved henq
  intro a id ha hid
  change tcbOf h a = some id
  rw [hids]
  have h₁ := hpoints₁ a id ha hid
  have hab : a ≠ b := fun heq => by
    change s₁.nodes b = none at hfree
    rw [heq, tcbOf, hfree] at h₁
    cases h₁
  change (Function.update s₁.nodes b _ a).map Node.tcb = some id
  rw [Function.update_of_ne hab]
  exact h₁

/-- The running node stays one of the running thread. -/
theorem exec_points (he : exec μ fuel s call = some (.ok s' ret))
    (hpoints : NodePoints s) : NodePoints s' := by
  cases exec_ends he with
  | stays _ hthread hnode hids _ =>
    intro a id ha hid
    rw [hids]
    exact hpoints a id (hnode ▸ ha) (hthread ▸ hid)
  | creates hc => exact workerCreate_points hc hpoints
  | exits hexit =>
    obtain ⟨i, t, -, -, hy⟩ := workerExit_eq hexit
    exact workerYield_points hy
  | switches _ _ hy => exact workerYield_points hy

/-! ## The invariant over a step -/

theorem step_joiners (hj : Joiners es s) (ha : Accounted es s) (hok : JoinOnce s l.call)
    (hs : Step μ s l s') : Joiners (es ++ [l]) s' := by
  obtain ⟨thread, call, ret⟩ := l
  obtain ⟨hcaller, fuel, he⟩ := hs
  have hnode := exec_points he hj.node
  by_cases hcall : ∃ target v, call = .join target v
  · obtain ⟨target, v, rfl⟩ := hcall
    rcases join_waits he with
      ⟨hret, htcbs, hcount, -⟩ | ⟨rfl, hcount, hidle, hfinds, hself, hwaits⟩
    · obtain ⟨r, rfl⟩ := Option.ne_none_iff_exists'.1 hret
      refine hj.of_waits (fun _ => rfl) (Nat.le_of_eq hcount.symm) (fun i w hw => .inl ?_) hnode
      rw [← htcbs, hw, Option.map_some]
    · have hlive := hfinds.live
      obtain ⟨w, hw⟩ := Option.isSome_iff_exists.1 hlive
      have hneg := hok hidle hfinds w hw
      have hnone : firstJoiner es target = none := by
        have h := hj.named target w hw
        cases hfirst : firstJoiner es target with
        | none => rfl
        | some joiner =>
          rw [h, hfirst, Option.elim_some] at hneg
          exact absurd hneg (Int.not_lt.2 (Int.natCast_nonneg joiner))
      refine hj.of_blocks ha ?_ (fun i hi => ?_) hcaller hnone hlive hcount hself hwaits hnode
      · simp [Label.blocksOn]
      · simp [Label.blocksOn, hi.symm]
  · have hne : ∀ target v, call ≠ .join target v := fun target v h => hcall ⟨target, v, h⟩
    obtain ⟨hcount, hwaits⟩ := (exec_effect he).waits hne
    exact hj.of_waits (fun _ => blocksOn_of_ne hne) hcount hwaits hnode

/-! ## The exit of a target -/

/-- The release of a joiner that waits puts its node at the end of the ready queue. -/
theorem releaseThreads_joiner (hr : releaseThreads fuel s t = some s') (hw : JoinerWaits s t) :
    ∃ a u, tcbOf s.nodes a = some t.waitingThread.toNat ∧ s'.readyQueue.tail = some a ∧
      s'.tcbs = Function.update s.tcbs t.waitingThread.toNat (some u) ∧ u.status = .ready := by
  unfold releaseThreads at hr
  rw [if_pos hw.1] at hr
  obtain ⟨⟨s₁, r⟩, hdel, hr⟩ := Option.bind_eq_some_iff.1 hr
  obtain ⟨hmoved, hnode⟩ := deleteWaiting_moved hdel
  cases r with
  | none => exact absurd rfl (deleteWaiting_found hdel hw.2)
  | some a =>
    have ha := hnode a rfl
    obtain ⟨n, hn, hr⟩ := Option.bind_eq_some_iff.1 hr
    obtain ⟨u, -, hr⟩ := Option.bind_eq_some_iff.1 hr
    have hid : n.tcb = t.waitingThread.toNat := by
      rw [← hmoved.points, tcbOf, hn] at ha
      exact Option.some.inj ha
    obtain ⟨⟨h, q⟩, henq, hr⟩ := Option.bind_eq_some_iff.1 hr
    cases hr
    obtain ⟨h₁, r₁, w₁, rfl⟩ := hmoved.rest
    refine ⟨a, _, ha, ?_, by rw [← hid]; rfl, rfl⟩
    rw [(enqueue_ends henq).1]

/-- A finished thread is freed, and its joiner is the last that is ready. -/
theorem retire_joiner (hr : retire fuel s = some s') (hid : s.runningThread = some id)
    (ht : s.tcbs id = some t) (hst : t.status = .finished) (hpoints : NodePoints s)
    (hne : t.waitingThread.toNat ≠ id) (hw : JoinerWaits s t) :
    ∃ a u, s'.readyQueue.tail = some a ∧ tcbOf s'.nodes a = some t.waitingThread.toNat ∧
      s'.readyQueue.head ≠ none ∧ s'.tcbs t.waitingThread.toNat = some u ∧ u.status = .ready ∧
      ∀ i, i ≠ id → i ≠ t.waitingThread.toNat → s'.tcbs i = s.tcbs i := by
  obtain ⟨i, hi, hr⟩ := Option.bind_eq_some_iff.1 hr
  obtain rfl := Option.some.inj (hid.symm.trans hi)
  obtain ⟨node, hnode, hr⟩ := Option.bind_eq_some_iff.1 hr
  obtain ⟨u, hu, hr⟩ := Option.bind_eq_some_iff.1 hr
  obtain rfl := Option.some.inj (ht.symm.trans hu)
  simp only [hst] at hr
  obtain ⟨s₁, hrel, hr⟩ := Option.bind_eq_some_iff.1 hr
  cases hr
  obtain ⟨a, u, ha, htail, htcbs, hready⟩ := releaseThreads_joiner hrel hw
  have hhead := releaseThreads_head hrel (.inr hw)
  refine ⟨a, u, htail, ?_, hhead, ?_, hready, fun j hj hjw => ?_⟩
  · -- The node freed is one of the thread that exits.
    have han : a ≠ node := fun heq => by
      rw [heq, hpoints node id hnode hid] at ha
      exact hne (Option.some.inj ha).symm
    rw [← (releaseThreads_releases hrel).1.points] at ha
    change (Function.update s₁.nodes node none a).map Node.tcb = _
    rwa [Function.update_of_ne han]
  · change Function.update s₁.tcbs id none _ = some u
    rw [Function.update_of_ne hne, htcbs, Function.update_self]
  · change Function.update s₁.tcbs id none j = s.tcbs j
    rw [Function.update_of_ne hj, htcbs, Function.update_of_ne hjw]

/-- The tail stays, unless the node taken is the last. -/
theorem popFromQueue_tail {h h' : Nodes} {q q' : Queue} {r : Option ℕ}
    (hp : popFromQueue h q = some (h', q', r)) (hhead : q.head ≠ none) :
    r ≠ none ∧ (r = q.tail ∨ q'.tail = q.tail) := by
  unfold popFromQueue at hp
  obtain ⟨b, hb⟩ := Option.ne_none_iff_exists'.1 hhead
  rw [hb] at hp
  obtain ⟨n, -, hp⟩ := Option.bind_eq_some_iff.1 hp
  obtain ⟨h₁, -, hp⟩ := Option.bind_eq_some_iff.1 hp
  cases hp
  refine ⟨Option.some_ne_none b, ?_⟩
  by_cases hlast : some b = q.tail
  · exact .inl hlast
  · rw [if_neg hlast]
    exact .inr rfl

/-- The last node of the ready queue stays there, or its thread runs. -/
theorem dispatch_tail (hd : dispatch μ s = some (.ok s' ret)) (htail : s.readyQueue.tail = some a)
    (ha : tcbOf s.nodes a = some id) (hhead : s.readyQueue.head ≠ none) :
    s'.runningThread = some id ∨ s'.readyQueue.tail = some a ∧ tcbOf s'.nodes a = some id := by
  obtain ⟨⟨h, q, next⟩, hpop, hd⟩ := Option.bind_eq_some_iff.1 hd
  have hids := tcbOf_pop hpop
  obtain ⟨hnext, hlast⟩ := popFromQueue_tail hpop hhead
  cases next with
  | none => exact absurd rfl hnext
  | some b =>
    obtain ⟨m, hm, hd⟩ := Option.bind_eq_some_iff.1 hd
    obtain ⟨u, -, hd⟩ := Option.bind_eq_some_iff.1 hd
    split_ifs at hd
    · cases hd
    cases hd
    rw [htail] at hlast
    rw [← hids] at ha
    rcases hlast with hba | htail'
    · obtain rfl := Option.some.inj hba
      change h b = some m at hm
      rw [tcbOf, hm] at ha
      exact .inl ha
    · exact .inr ⟨htail', ha⟩

/-- **Exit.** The joiner of a thread that exits becomes ready. -/
theorem workerExit_joiner {valuePtr : ℕ} (he : workerExit μ fuel s valuePtr = some (.ok s' ret))
    (hid : s.runningThread = some id) (ht : s.tcbs id = some t) (hpoints : NodePoints s)
    (hne : t.waitingThread.toNat ≠ id) (hw : JoinerWaits s t) :
    BecomesReady id t.waitingThread.toNat s s' := by
  obtain ⟨i, u, hi, hu, hy⟩ := workerExit_eq he
  obtain rfl := Option.some.inj (hid.symm.trans hi)
  obtain rfl := Option.some.inj (ht.symm.trans hu)
  obtain ⟨s₁, hr, hd⟩ := Option.bind_eq_some_iff.1 hy
  obtain ⟨-, next, hnext⟩ := dispatch_effect hd
  have hwaits : JoinerWaits { s.setTcb id { t with status := .finished } with
      returnValues := if valuePtr = 0 then s.returnValues
        else Function.update s.returnValues id valuePtr
      interruptDisabled := true } { t with status := .finished } := by
    obtain ⟨hnonneg, n, prev, b, hfind⟩ := hw
    rw [← live_setTcb ht { t with status := .finished }] at hfind
    exact ⟨hnonneg, n, prev, b, hfind⟩
  obtain ⟨a, w, htail, ha, hhead, hself, hready, hothers⟩ :=
    retire_joiner hr hid (Function.update_self ..) rfl hpoints hne hwaits
  refine ⟨?_, fun j hj hjw hrun => ?_⟩
  · by_cases hrun : s'.runningThread = some t.waitingThread.toNat
    · exact .inl hrun
    · obtain ⟨htail', ha'⟩ := (dispatch_tail hd htail ha hhead).resolve_left hrun
      refine .inr ⟨w, a, ?_, hready, htail', ha'⟩
      rw [hnext.others _ fun heq => hrun (by rw [hnext.thread, heq]), hself]
  · rw [hnext.others j fun heq => hrun (by rw [hnext.thread, heq]), hothers j hj hjw]
    exact Function.update_of_ne hj _ _

/-! ## Runs -/

theorem run_joiners (hr : Run (Guarded (fun u l => JoinOnce u l.call) (Step μ)) State.start es s) :
    Accounted es s ∧ Joiners es s := by
  refine Run.history (I := fun es u => Accounted es u ∧ Joiners es u)
    ⟨accounted_start, joiners_start⟩ (fun fs u e w h hstep => ?_) hr
  exact ⟨step_accounted h.1 hstep.2, step_joiners h.2 h.1 hstep.1 hstep.2⟩

/-- A second join is not refused as it should be: it blocks, or it leaves the interrupts
disabled. -/
theorem second_join_breaks
    (hr : Run (Guarded (fun u l => JoinOnce u l.call) (Step μ)) State.start es s)
    (hs : Step μ s l s') {v : Bool} (hcall : l.call = .join thread v)
    (hnot : ¬JoinOnce s l.call) : ¬OneJoiner es s l s' := by
  intro hone
  obtain ⟨ha, hj⟩ := run_joiners hr
  obtain ⟨hcaller, fuel, he⟩ := hs
  rw [hcall] at hnot he
  simp only [JoinOnce, not_forall, Int.not_lt] at hnot
  obtain ⟨hidle, hfinds, w, hw, hnonneg⟩ := hnot
  have hfirst : ∃ joiner, firstJoiner es thread = some joiner := by
    refine Option.ne_none_iff_exists'.1 fun hnone => ?_
    rw [hj.named thread w hw, hnone, Option.elim_none] at hnonneg
    exact absurd hnonneg (by decide)
  obtain ⟨joiner, hfirst⟩ := hfirst
  obtain ⟨hret, hstate⟩ := hone.later thread v joiner hcall hidle hfinds hfirst
  rw [hret] at he
  rcases exec_join_cases he with ⟨hcont, -⟩ | ⟨-, id, node, -, -, ⟨hfound, -⟩ | ⟨-, u, -, hjoin⟩⟩
  · rw [hcont] at hidle
    cases hidle
  · obtain ⟨n, hn⟩ := hfinds
    exact absurd (findReadyThreads_unique hfound hn) Bool.false_ne_true
  · unfold joinReady at hjoin
    split_ifs at hjoin
    · rw [Option.some.injEq, Outcome.ok.injEq] at hjoin
      have h := congrArg State.interruptDisabled (hjoin.1.trans hstate)
      exact absurd h (by simp)
    · obtain ⟨t, -, hjoin⟩ := Option.bind_eq_some_iff.1 hjoin
      obtain ⟨s₁, -, hy⟩ := Option.bind_eq_some_iff.1 hjoin
      obtain ⟨s₂, -, hd⟩ := Option.bind_eq_some_iff.1 hy
      exact absurd (dispatch_effect hd).1 (Option.some_ne_none _)

/-- **One joiner.** After a run in which no thread joins a target that has a joiner, and whose exits
find the joiner in the waiting queue, the first join of a target makes its caller the joiner, no
second one is there to be refused, and the exit of the target makes its first joiner ready. -/
theorem one_joiner (hr : Run (Guarded (fun u l => JoinOnce u l.call) (Step μ)) State.start es s)
    (hs : Guarded (fun u l => JoinOnce u l.call) (Step μ) s l s') : OneJoiner es s l s' := by
  obtain ⟨ha, hj⟩ := run_joiners hr
  obtain ⟨hok, hcaller, fuel, he⟩ := hs
  refine ⟨fun thread v hcall hidle hfinds hnone => ?_,
    fun thread v joiner hcall hidle hfinds hfirst => ?_, fun valuePtr joiner hcall hfirst => ?_⟩
  · rw [hcall] at he
    rcases join_waits he with ⟨-, -, -, hpos⟩ | ⟨-, -, -, -, hself, -⟩
    · obtain ⟨w, hw⟩ := Option.isSome_iff_exists.1 hfinds.live
      have h := hpos hidle hfinds w hw
      rw [hj.named thread w hw, hnone, Option.elim_none] at h
      exact absurd h (by decide)
    · rw [hself, hcaller]
  · -- A target with a joiner is not found.
    rw [hcall] at hok
    obtain ⟨w, hw⟩ := Option.isSome_iff_exists.1 hfinds.live
    have hneg := hok hidle hfinds w hw
    rw [hj.named thread w hw, hfirst, Option.elim_some] at hneg
    exact absurd hneg (Int.not_lt.2 (Int.natCast_nonneg joiner))
  · rw [hcall] at hok he
    rcases exec_cases he with ⟨hexit, -⟩ | ⟨target, v, h, -, -⟩
    · change workerExit μ fuel s valuePtr = some (.ok s' l.ret) at hexit
      obtain ⟨id, hid, -⟩ := Option.bind_eq_some_iff.1 hexit
      obtain ⟨t, ht, -⟩ := ha.running id hid
      have hl : l.thread = id := by rw [hcaller, State.caller, hid, Option.getD_some]
      have hnamed := hj.named id t ht
      rw [← hl, hfirst, Option.elim_some] at hnamed
      obtain ⟨hne, hw⟩ := hok id t hid ht (hnamed ▸ Int.natCast_nonneg joiner)
      have hready := workerExit_joiner hexit hid ht hj.node hne hw
      rwa [hnamed, Int.toNat_natCast, ← hl] at hready
    · cases h

/-- The main thread joins thread 1, which exits. -/
theorem one_joiner_main :
    OneJoiner [⟨0, .create, code 1⟩, ⟨0, .join 1 false, none⟩] (after [.create, .join 1 false])
      ⟨1, .exit 0, none⟩ (after [.create, .join 1 false, .exit 0]) := by
  have hcreate : Run (Guarded (fun u l => JoinOnce u l.call) (Step (Malloc.bump Node))) .start
      [⟨0, .create, code 1⟩] (after [.create]) := .single ⟨trivial, rfl, 9, rfl⟩
  have hjoin : Guarded (fun u l => JoinOnce u l.call) (Step (Malloc.bump Node)) (after [.create])
      ⟨0, .join 1 false, none⟩ (after [.create, .join 1 false]) := by
    refine ⟨fun _ _ w hw => ?_, rfl, 9, rfl⟩
    cases hw
    decide
  refine one_joiner (hcreate.snoc hjoin) ⟨fun id t hid ht _ => ?_, rfl, 9, rfl⟩
  cases hid
  cases ht
  exact ⟨by decide, by decide, 9, none, 1, rfl⟩

/-- The main thread joins thread 1, and then thread 2 does, which is not refused. -/
theorem second_join_overwrites : ¬∀ es s l s', Run (Step (Malloc.bump Node)) State.start es s →
    Step (Malloc.bump Node) s l s' → OneJoiner es s l s' := by
  intro hall
  have hr : Run (Guarded (fun _ _ => True) (Step (Malloc.bump Node))) .start
      [⟨0, .create, code 1⟩, ⟨0, .create, code 2⟩, ⟨0, .join 1 false, none⟩, ⟨1, .yield, none⟩]
      (after [.create, .create, .join 1 false, .yield]) :=
    run_of_follow (fun _ _ => True) 9 [.create, .create, .join 1 false, .yield] rfl
      fun _ _ _ => trivial
  have hone := hall _ _ ⟨2, .join 1 false, none⟩
    (after [.create, .create, .join 1 false, .yield, .join 1 false])
    (hr.mono fun _ _ _ h => h.2) ⟨rfl, 9, rfl⟩
  obtain ⟨hret, -⟩ := hone.later 1 false 0 rfl rfl ⟨9, rfl⟩ rfl
  cases hret

end UserOS.Worker
