import UserOS.Worker.Priorities
import UserOS.Worker.RoundRobin

/-!
# The multi-level queue is a round robin

No thread ever leaves the queue 0, so that the library built with `-D MLFQ` schedules as the other
build does: a new thread, one that yields and one that the timer stops go to the end of the queue 0,
and its head runs next.

* `Turns`: the state shows a rotation, whose line is the queue 0.
* `run_turns`: every run of a program without joins and mutexes is a run of the rotation.
* `builds_agree`: both builds run the same threads in the same order.
-/

namespace UserOS.Worker.Mlfq

open Lib

variable {μ : Malloc Node} {s s' : State} {l : List ℕ} {a b id fuel : ℕ} {t : Tcb}
  {ret : Option Ret} {now stamp : Timeval} {r : Rotation}

/-! ## The program and the rotation -/

/-- The call in the other build. -/
def Call.roundRobin : Call → Worker.Call
  | .create => .create
  | .yield => .yield
  | .exit valuePtr => .exit valuePtr
  | .preempt => .preempt

/-- The main thread does not exit. -/
def InTurn (s : State) : Call → Prop
  | .exit _ => s.runningThread ≠ s.mainThread
  | _ => True

/-- The thread that `sched_mlfq` dispatches, where the call gets there. -/
def dispatched (s : State) (call : Call) (s' : State) : Option ℕ :=
  match call with
  | .create => none
  | .preempt => if s.interruptDisabled then none else s'.runningThread
  | _ => s'.runningThread

/-- The steps of such a program, with the thread dispatched. -/
def Dispatching (μ : Malloc Node) (s : State) (e : Label × Option ℕ) (s' : State) : Prop :=
  Guarded (fun u l => InTurn u l.call) (Step μ) s e.1 s' ∧ e.2 = dispatched s e.1.call s'

/-- The labels as the rotation sees them. -/
def shifts (es : List (Label × Option ℕ)) : List (Shift × Option ℕ) :=
  es.map fun e => (e.1.call.roundRobin.shift, e.2)

/-- The state is a rotation: the nodes `l` of the queue 0 are those of the line, and the thread that
has the turn runs, with the node `a`. -/
structure Turns (s : State) (a : ℕ) (l : List ℕ) (r : Rotation) : Prop where
  busy : Busy s l a r.current
  running : ∃ t, s.tcbs r.current = some t ∧ t.status = .running
  line : l.map (tcbOf s.nodes) = r.waiting.map some
  created : s.threadCount = r.created
  main : s.mainThread = some 0 ∧ 0 ∈ r.members
  enabled : s.interruptDisabled = false
  live : ∀ id, s.live id = true ↔ id ∈ r.members

/-! ## A switch -/

/-- What the parts of a switch leave alone. -/
structure Same (s s' : State) : Prop where
  ids : tcbOf s'.nodes = tcbOf s.nodes
  count : s'.threadCount = s.threadCount
  main : s'.mainThread = s.mainThread

theorem Same.trans {u : State} (h : Same s s') (h' : Same s' u) : Same s u :=
  ⟨h'.ids.trans h.ids, h'.count.trans h.count, h'.main.trans h.main⟩

theorem enqueueLevel_same {i : ℕ} (he : enqueueLevel fuel s i a = some s') :
    Same s s' ∧ s'.tcbs = s.tcbs := by
  unfold enqueueLevel at he
  split_ifs at he
  obtain ⟨⟨h, q⟩, henq, he⟩ := Option.bind_eq_some_iff.1 he
  cases he
  exact ⟨⟨tcbOf_enqueue henq, rfl, rfl⟩, rfl⟩

theorem live_update {x : Option Tcb} (hx : x.isSome = s.live id) (i : ℕ) :
    (Function.update s.tcbs id x i).isSome = s.live i := by
  by_cases hi : i = id
  · subst hi
    rw [Function.update_self, hx]
  · rw [Function.update_of_ne hi, Worker.State.live]

/-- The thread that goes on keeps its control block. -/
theorem Busy.retire_running_same (hb : Busy s l a id) (ht : s.tcbs id = some t)
    (hst : t.status = .running) (hr : retire fuel s = some s') :
    Same s s' ∧ ∀ i, s'.live i = s.live i := by
  have hd : demotes (s.timeOnCpu id) t.priority = false := by
    rw [(hb.fresh id t ht).1]
    simp [demotes]
  simp only [retire, hb.thread, hb.node, ht, hst, hd, Option.bind_eq_bind, Option.bind_some] at hr
  obtain ⟨hsame, htcbs⟩ := enqueueLevel_same hr
  refine ⟨⟨hsame.ids, hsame.count, hsame.main⟩, fun i => ?_⟩
  rw [Worker.State.live, htcbs]
  exact live_update (s := s) (by rw [Worker.State.live, ht]; rfl) i

/-- The thread that exits loses its control block, and no other does. -/
theorem Busy.retire_finished_same (hb : Busy s l a id) (ht : s.tcbs id = some t)
    (hst : t.status = .finished) (hr : retire fuel s = some s') :
    Same s s' ∧ s'.tcbs = Function.update s.tcbs id none := by
  obtain ⟨-, hw, -⟩ := hb.fresh id t ht
  simp only [retire, hb.thread, hb.node, ht, hst, releaseThreads, hw, Option.bind_eq_bind,
    Option.bind_some] at hr
  cases hr
  exact ⟨⟨rfl, rfl, rfl⟩, rfl⟩

theorem Flat.boost_same (hf : Flat s l) (hb : Mlfq.boost fuel s = some s') :
    Same s s' ∧ s'.tcbs = s.tcbs := by
  unfold Mlfq.boost at hb
  split_ifs at hb
  · obtain ⟨u, hu, hreset⟩ := Option.bind_eq_some_iff.1 hb
    obtain rfl := boostLevels_empty (fun i hi => hf.above i (List.mem_range'_1.1 hi).1) hu
    cases hreset
    exact ⟨⟨rfl, rfl, rfl⟩, rfl⟩
  · cases hb
    exact ⟨⟨rfl, rfl, rfl⟩, rfl⟩

/-- **The head of the queue 0** is dispatched. -/
theorem Flat.dispatch_head (hf : Flat s (b :: l))
    (hd : Mlfq.dispatch μ s stamp = some (.ok s' ret)) :
    ∃ id t, Busy s' l b id ∧ s'.tcbs id = some t ∧ t.status = .running ∧
      tcbOf s.nodes b = some id ∧ Same s s' ∧ s'.interruptDisabled = false ∧
      ∀ i, s'.live i = s.live i := by
  have hlevelled := hf.dispatch hd
  obtain ⟨h, q, n, hpop, hholds, hn, hcut, hrel⟩ := popFromQueue_spec hf.bottom
  unfold Mlfq.dispatch at hd
  rw [hf.getNext_cons, popLevel, hpop] at hd
  simp only [Option.bind_eq_bind, Option.bind_some] at hd
  obtain ⟨m, hm, hd⟩ := Option.bind_eq_some_iff.1 hd
  obtain rfl : { n with next := none } = m := Option.some.inj (hcut.symm.trans hm)
  obtain ⟨t, ht, hd⟩ := Option.bind_eq_some_iff.1 hd
  dsimp only at hd
  split_ifs at hd
  · cases hd
  cases hd
  have hthread : some n.tcb = some n.tcb := rfl
  rcases hlevelled with ⟨-, hnone, -⟩ | ⟨l', b', id', t', hbusy, ht', hst'⟩
  · cases hnone
  obtain rfl : id' = n.tcb := Option.some.inj hbusy.thread.symm
  obtain rfl : b' = b := Option.some.inj hbusy.node.symm
  have hq : Holds h (Function.update s.mlfqQueue 0 q 0) l' := hbusy.bottom
  rw [Function.update_self] at hq
  obtain rfl : l' = l := hq.chain.unique hholds.chain
  exact ⟨n.tcb, t', hbusy, ht', hst', by simp [tcbOf, hn], ⟨funext hrel.tcb, rfl, rfl⟩, rfl,
    live_update (s := s) (by rw [Worker.State.live, ht]; rfl)⟩

/-! ## The simulation -/

/-- After a dispatch, the threads are those of the rotation `r`. -/
theorem Turns.ofDispatch {c : ℕ} {l' : List ℕ} (hf : Flat s (c :: l'))
    (hline : (c :: l').map (tcbOf s.nodes) = r.members.map some)
    (hcreated : s.threadCount = r.created) (hmain : s.mainThread = some 0 ∧ 0 ∈ r.members)
    (hlive : ∀ id, s.live id = true ↔ id ∈ r.members)
    (hd : Mlfq.dispatch μ s stamp = some (.ok s' ret)) : Turns s' c l' r := by
  obtain ⟨id, t, hbusy, ht, hst, hid, hsame, henabled, hlive'⟩ := hf.dispatch_head hd
  rw [List.map_cons, hid] at hline
  obtain ⟨hcurrent, hrest⟩ := List.cons.inj hline
  obtain rfl := Option.some.inj hcurrent
  exact ⟨hbusy, ⟨t, ht, hst⟩, by rw [hsame.ids, hrest], hsame.count.trans hcreated,
    ⟨hsame.main.trans hmain.1, hmain.2⟩, henabled, fun i => by rw [hlive', hlive]⟩

/-- The running thread goes to the end of the line. -/
theorem Turns.rotate {b : Bool} (hs : Turns s a l r)
    (hy : workerYield μ fuel { s with interruptDisabled := b } now stamp = some (.ok s' ret)) :
    ∃ c l', Turns s' c l' r.rotate := by
  obtain ⟨s₁, hcharge, hy⟩ := Option.bind_eq_some_iff.1 hy
  obtain ⟨s₂, hretire, hy⟩ := Option.bind_eq_some_iff.1 hy
  obtain ⟨s₃, hboost, hdispatch⟩ := Option.bind_eq_some_iff.1 hy
  obtain ⟨t, ht, hst⟩ := hs.running
  have hb₀ : Busy { s with interruptDisabled := b } l a r.current :=
    ⟨hs.busy.toFlat.congr rfl rfl rfl le_rfl, hs.busy.thread, hs.busy.node, hs.busy.unlinked,
      hs.busy.out⟩
  obtain ⟨hb₁, -⟩ := hb₀.charge hcharge
  obtain ⟨i, -, rfl⟩ := charge_eq hcharge
  obtain ⟨u, hu, hf₂, -⟩ := hb₁.retire_running ht hst fuel
  obtain rfl := Option.some.inj (hu.symm.trans hretire)
  obtain ⟨hsame₂, hlive₂⟩ := hb₁.retire_running_same ht hst hretire
  obtain ⟨hsame₃, htcbs₃⟩ := hf₂.boost_same hboost
  have hsame := hsame₂.trans hsame₃
  obtain ⟨c, l', hcons⟩ := List.exists_cons_of_ne_nil
    (List.append_ne_nil_of_right_ne_nil l (List.cons_ne_nil a []))
  have hf₃ := hf₂.boost hboost
  rw [hcons] at hf₃
  have ha : tcbOf s.nodes a = some r.current := by simp [tcbOf, hs.busy.unlinked]
  refine ⟨c, l', .ofDispatch hf₃ ?_ ?_ ⟨hsame.main.trans hs.main.1, ?_⟩ (fun id => ?_) hdispatch⟩
  · rw [← hcons, hsame.ids, List.map_append, List.map_singleton, Rotation.rotate_members,
      List.map_append, List.map_singleton]
    exact congrArg₂ (· ++ [·]) hs.line ha
  · rw [Rotation.rotate_created]
    exact hsame.count.trans hs.created
  · rw [Rotation.rotate_members]
    exact (List.perm_append_singleton r.current r.waiting).mem_iff.2 hs.main.2
  · rw [Worker.State.live, htcbs₃, ← Worker.State.live, hlive₂, Rotation.rotate_members]
    exact (hs.live id).trans (List.perm_append_singleton r.current r.waiting).mem_iff.symm

/-- The running thread, which is not the main thread, leaves. -/
theorem Turns.leave {valuePtr : ℕ} (hs : Turns s a l r) (hmain : s.runningThread ≠ s.mainThread)
    (he : workerExit μ fuel s valuePtr now stamp = some (.ok s' ret)) :
    ∃ c l' r', r.drop = some r' ∧ Turns s' c l' r' := by
  obtain ⟨t, ht, hst⟩ := hs.running
  obtain ⟨hp, hw, hlt⟩ := hs.busy.fresh _ t ht
  have hzero : 0 ∈ r.waiting := by
    refine (List.mem_cons.1 hs.main.2).resolve_left fun h => hmain ?_
    rw [hs.busy.thread, hs.main.1, h]
  obtain ⟨x, w, hwaiting⟩ := List.exists_cons_of_ne_nil (List.ne_nil_of_mem hzero)
  obtain ⟨r', hdrop, hcreated, hcurrent, hrest⟩ := Rotation.drop_cons hwaiting
  have hmembers : r'.members = r.waiting := by rw [Rotation.members, hcurrent, hrest, hwaiting]
  simp only [workerExit, hs.busy.thread, ht, Option.bind_eq_bind, Option.bind_some] at he
  rw [if_neg (not_not.2 hst)] at he
  by_cases hbig : valuePtr ≠ 0 ∧ numReturnValues ≤ r.current
  · rw [if_pos hbig] at he
    cases he
  rw [if_neg hbig] at he
  obtain ⟨s₁, hcharge, he⟩ := Option.bind_eq_some_iff.1 he
  obtain ⟨s₂, hretire, he⟩ := Option.bind_eq_some_iff.1 he
  obtain ⟨s₃, hboost, hdispatch⟩ := Option.bind_eq_some_iff.1 he
  have hflat := hs.busy.toFlat.update hs.busy.out (some { t with status := .finished })
    fun u hu => Option.some.inj hu ▸ ⟨hp, hw, hlt⟩
  have hb₀ : Busy { s.setTcb r.current { t with status := .finished } with
      returnValues := if valuePtr = 0 then s.returnValues
        else Function.update s.returnValues r.current valuePtr
      interruptDisabled := true } l a r.current :=
    ⟨hflat.congr rfl rfl rfl le_rfl, hs.busy.thread, hs.busy.node, hs.busy.unlinked, hs.busy.out⟩
  obtain ⟨hb₁, htcbs₁⟩ := hb₀.charge hcharge
  obtain ⟨i, -, rfl⟩ := charge_eq hcharge
  have ht₁ : Function.update s.tcbs r.current (some { t with status := .finished }) r.current =
    some { t with status := .finished } := Function.update_self ..
  have hf₂ := hb₁.retire_finished ht₁ rfl hretire
  obtain ⟨hsame₂, htcbs₂⟩ := hb₁.retire_finished_same ht₁ rfl hretire
  obtain ⟨hsame₃, htcbs₃⟩ := hf₂.boost_same hboost
  have hsame := hsame₂.trans hsame₃
  have hf₃ := hf₂.boost hboost
  have hline : l.map (tcbOf s₃.nodes) = r'.members.map some := by
    rw [hsame.ids, hmembers]
    exact hs.line
  cases l with
  | nil =>
    rw [hmembers, hwaiting] at hline
    cases hline
  | cons c l' =>
    refine ⟨c, l', r', hdrop, .ofDispatch hf₃ hline (hsame.count.trans (hs.created.trans
      hcreated.symm)) ⟨hsame.main.trans hs.main.1, hmembers ▸ hzero⟩ (fun id => ?_) hdispatch⟩
    rw [Worker.State.live, htcbs₃, htcbs₂, hmembers]
    by_cases hid : id = r.current
    · subst hid
      rw [Function.update_self]
      exact iff_of_false (by simp) (List.nodup_cons.1 r.nodup).1
    · rw [Function.update_of_ne hid]
      change (Function.update s.tcbs r.current _ id).isSome = true ↔ _
      rw [Function.update_of_ne hid]
      exact (hs.live id).trans (List.mem_cons.trans (or_iff_right hid))

/-- A new thread stands at the end of the line. -/
theorem Turns.add (hs : Turns s a l r) (hc : createThread μ fuel s = some (.ok s' ret)) :
    ∃ b, Turns s' a (l ++ [b]) r.add := by
  obtain ⟨t, ht, hst⟩ := hs.running
  obtain ⟨b, hb, ht'⟩ := hs.busy.createThread ht hc
  obtain ⟨⟨w, c⟩, hnode, hc⟩ := Option.bind_eq_some_iff.1 hc
  obtain ⟨s₂, henq, hret⟩ := Option.bind_eq_some_iff.1 hc
  obtain ⟨hfree, rfl⟩ := createNode_eq hnode
  obtain ⟨hsame, htcbs⟩ := enqueueLevel_same henq
  have henq' := henq
  unfold enqueueLevel at henq'
  split_ifs at henq'
  obtain ⟨⟨h, q⟩, hq, henq'⟩ := Option.bind_eq_some_iff.1 henq'
  cases hret
  cases henq'
  -- The node at the end of the queue is the new one.
  have hlast : q.tail = (l ++ [b]).getLast? := by
    have htail := hb.bottom.tail
    change (Function.update s.mlfqQueue 0 q 0).tail = _ at htail
    rwa [Function.update_self] at htail
  rw [List.getLast?_concat, (enqueue_ends hq).1] at hlast
  obtain rfl : c = b := Option.some.inj hlast
  have hold : ∀ x ∈ l, tcbOf (Function.update s.nodes c (some ⟨s.threadCount, none⟩)) x =
      tcbOf s.nodes x := fun x hx => by
    have hne : x ≠ c := fun heq => by
      obtain ⟨i, u, hi, -⟩ := hs.busy.ready x hx
      have hnone : s.nodes x = none := heq ▸ hfree
      simp [tcbOf, hnone] at hi
    rw [tcbOf, Function.update_of_ne hne, tcbOf]
  refine ⟨c, hb, ⟨t, ht', hst⟩, ?_, congrArg (· + 1) hs.created,
    ⟨hs.main.1, List.mem_append_left [r.created] hs.main.2⟩, hs.enabled, fun id => ?_⟩
  · have hids : tcbOf h = tcbOf (Function.update s.nodes c (some ⟨s.threadCount, none⟩)) :=
      hsame.ids
    change (l ++ [c]).map (tcbOf h) = _
    rw [hids, List.map_append, List.map_congr_left hold, hs.line, List.map_singleton, tcbOf,
      Function.update_self, hs.created, Rotation.add, List.map_append]
    rfl
  · change (Function.update s.tcbs s.threadCount _ id).isSome = true ↔ id ∈ r.members ++ [r.created]
    rw [List.mem_append, List.mem_singleton, ← hs.created]
    by_cases hid : id = s.threadCount
    · subst hid
      rw [Function.update_self]
      exact iff_of_true rfl (.inr rfl)
    · rw [Function.update_of_ne hid, or_iff_left hid]
      exact hs.live id

/-- The main thread alone. -/
theorem createMain_turns (hm : createMain μ .start stamp = some s) :
    ∃ a, Turns s a [] ⟨1, 0, [], by decide, by decide⟩ := by
  obtain ⟨a, id, t, hb, ht, hst⟩ := flat_start.createMain hm
  obtain ⟨w, hw, hm⟩ := Option.bind_eq_some_iff.1 hm
  obtain ⟨⟨w₁, c⟩, hnode, hw⟩ := Option.bind_eq_some_iff.1 hw
  obtain ⟨-, rfl⟩ := createNode_eq hnode
  cases hw
  cases hm
  obtain rfl : 0 = id := Option.some.inj hb.thread
  refine ⟨a, hb, ⟨t, ht, hst⟩, rfl, rfl, ⟨rfl, List.mem_singleton_self 0⟩, rfl, fun i => ?_⟩
  change (Function.update State.start.tcbs 0 _ i).isSome = true ↔ i ∈ [0]
  rw [List.mem_singleton]
  by_cases hi : i = 0
  · subst hi
    rw [Function.update_self]
    exact iff_of_true rfl rfl
  · rw [Function.update_of_ne hi]
    exact iff_of_false Bool.false_ne_true hi

/-! ## Runs -/

variable {e : Label × Option ℕ} {es : List (Label × Option ℕ)}

/-- A step is a turn of the rotation. -/
theorem Turns.step (hs : Turns s a l r) (hstep : Dispatching μ s e s') :
    ∃ b l' r', Rotation.Step r (e.1.call.roundRobin.shift, e.2) r' ∧ Turns s' b l' r' := by
  obtain ⟨⟨call, now, stamp⟩, d⟩ := e
  obtain ⟨⟨hcalls, fuel, ret, he⟩, hd⟩ := hstep
  change d = dispatched s call s' at hd
  cases call with
  | create =>
    obtain ⟨s₁, hmain, hc⟩ := Option.bind_eq_some_iff.1 he
    have hpos : s.threadCount ≠ 0 := by
      rw [hs.created]
      exact Nat.ne_of_gt (Nat.lt_of_le_of_lt (Nat.zero_le _) (r.bound _ List.mem_cons_self))
    rw [ensureMain, if_neg hpos, Option.some.injEq] at hmain
    subst hmain
    obtain ⟨b, hs'⟩ := hs.add hc
    exact ⟨a, l ++ [b], r.add, ⟨rfl, hd⟩, hs'⟩
  | yield =>
    obtain ⟨c, l', hs'⟩ := hs.rotate he
    exact ⟨c, l', r.rotate, ⟨rfl, hd.trans hs'.busy.thread⟩, hs'⟩
  | preempt =>
    change interruptHandler μ fuel s now stamp = _ at he
    rw [interruptHandler, if_neg (by simp [hs.enabled])] at he
    obtain ⟨c, l', hs'⟩ : ∃ c l', Turns s' c l' r.rotate :=
      Turns.rotate (b := s.interruptDisabled) hs he
    rw [dispatched, if_neg (by simp [hs.enabled])] at hd
    exact ⟨c, l', r.rotate, ⟨rfl, hd.trans hs'.busy.thread⟩, hs'⟩
  | exit valuePtr =>
    obtain ⟨c, l', r', hdrop, hs'⟩ := hs.leave hcalls he
    exact ⟨c, l', r', ⟨hdrop, hd.trans hs'.busy.thread⟩, hs'⟩

/-- The first call is `worker_create`, which makes the main thread and thread 1. -/
theorem first_turns (hstep : Dispatching μ .start e s) :
    e.1.call = .create ∧ ∃ a l, Turns s a l firstRotation := by
  obtain ⟨⟨call, now, stamp⟩, d⟩ := e
  obtain ⟨⟨hcalls, fuel, ret, he⟩, -⟩ := hstep
  cases call with
  | create =>
    obtain ⟨s₁, hmain, hc⟩ := Option.bind_eq_some_iff.1 he
    obtain ⟨a, hs₁⟩ := createMain_turns hmain
    obtain ⟨b, hs⟩ := hs₁.add hc
    exact ⟨rfl, a, [b], hs⟩
  | exit valuePtr => exact absurd rfl hcalls
  | yield | preempt => cases he

theorem run_turns (hr : Run (Dispatching μ) .start (e :: es) s) : e.2 = none ∧
    ∃ a l r, Run Rotation.Step firstRotation (shifts es) r ∧ Turns s a l r := by
  obtain ⟨u, hfirst, hrest⟩ := hr.cons_inv
  obtain ⟨hcall, a, l, hs⟩ := first_turns hfirst
  refine ⟨hfirst.2.trans (by rw [hcall]; rfl), ?_⟩
  refine hrest.history (I := fun es s => ∃ a l r, Run Rotation.Step firstRotation (shifts es) r ∧
    Turns s a l r) ⟨a, l, _, .nil, hs⟩ ?_
  rintro es s e s' ⟨a, l, r, hrun, hs⟩ hstep
  obtain ⟨b, l', r', hshift, hs'⟩ := hs.step hstep
  refine ⟨b, l', r', ?_, hs'⟩
  rw [shifts, List.map_append]
  exact hrun.snoc hshift

/-- **Both builds schedule alike.** When a program without joins and mutexes makes the same calls,
the two builds dispatch the same threads in the same order, whatever the clock shows; the same
threads live, and they stand in line in the same order. -/
theorem builds_agree {ν : Malloc Node} {fs : List (Worker.Label × Option ℕ)} {w : Worker.State}
    (hr : Run (Dispatching μ) .start es s) (hw : Run (Worker.Dispatching ν) .start fs w)
    (hcalls : es.map (fun e => e.1.call.roundRobin) = fs.map fun e => e.1.call) :
    es.map Prod.snd = fs.map Prod.snd ∧ s.runningThread = w.runningThread ∧
      (∀ id, s.live id = w.live id) ∧ (es ≠ [] → ∃ R R', Holds s.nodes (s.mlfqQueue 0) R ∧
        Holds w.nodes w.readyQueue R' ∧ R.map (tcbOf s.nodes) = R'.map (tcbOf w.nodes)) := by
  cases es with
  | nil =>
    rw [List.map_nil, eq_comm, List.map_eq_nil_iff] at hcalls
    subst hcalls
    obtain rfl := hr.nil_inv
    obtain rfl := hw.nil_inv
    exact ⟨rfl, rfl, fun _ => rfl, fun h => absurd rfl h⟩
  | cons e es =>
    cases fs with
    | nil => cases hcalls
    | cons e' fs =>
      obtain ⟨hfirst, a, l, r, hrun, hs⟩ := run_turns hr
      obtain ⟨u, hfirst', hrest⟩ := hw.cons_inv
      obtain ⟨hcall, b, R, hu⟩ := Worker.first_simulates hfirst'
      obtain ⟨c, R', r', hrun', hs'⟩ := Worker.run_simulates hu hrest
      have hshifts : (shifts es).map Prod.fst = (Worker.shifts fs).map Prod.fst := by
        have htail := congrArg (List.map Worker.Call.shift) (List.cons.inj hcalls).2
        rw [List.map_map, List.map_map] at htail
        rw [shifts, Worker.shifts, List.map_map, List.map_map]
        exact htail
      obtain ⟨heq, rfl⟩ := Rotation.run_unique hrun hrun' hshifts
      have hnone : e'.2 = none := hfirst'.2.trans (by rw [hcall]; rfl)
      have hdispatched : es.map Prod.snd = fs.map Prod.snd := by
        have hsnd := congrArg (List.map Prod.snd) heq
        rw [Worker.shifts_dispatched, shifts, List.map_map] at hsnd
        exact hsnd
      refine ⟨?_, hs.busy.thread.trans hs'.scheduled.thread.symm, fun id => ?_,
        fun _ => ⟨l, R', hs.busy.bottom, hs'.scheduled.queues.ready, hs.line.trans hs'.line.symm⟩⟩
      · rw [List.map_cons, List.map_cons, hfirst, hnone, hdispatched]
      · exact Bool.eq_iff_iff.2 ((hs.live id).trans (hs'.shows.live id).symm)

/-- The state in which the main thread has created two threads. -/
def createdTwo : State :=
  match exec (Malloc.bump Node) 9 created ⟨.create, ⟨0, 0⟩, ⟨0, 0⟩⟩ with
  | some (.ok s _) => s
  | _ => created

/-- The main thread creates two threads and yields, in both builds. Thread 1 runs then. -/
theorem builds_agree_two : ∃ es s, Run (Dispatching (Malloc.bump Node)) .start es s ∧
    es.map Prod.snd = [none, none, some 1] ∧ s.runningThread = some 1 := by
  have hfirst : Dispatching (Malloc.bump Node) .start (⟨.create, ⟨0, 0⟩, ⟨0, 0⟩⟩, none) created :=
    ⟨⟨trivial, 0, code 1, rfl⟩, rfl⟩
  have hexec : exec (Malloc.bump Node) 9 created ⟨.create, ⟨0, 0⟩, ⟨0, 0⟩⟩ =
      some (.ok createdTwo (code 2)) := rfl
  have hsecond : Dispatching (Malloc.bump Node) created (⟨.create, ⟨0, 0⟩, ⟨0, 0⟩⟩, none)
      createdTwo := ⟨⟨trivial, 9, code 2, hexec⟩, rfl⟩
  have hcreated := (Run.single hfirst).snoc hsecond
  have hcpu : OnCpu createdTwo 1 0 (.new .running false) := ⟨rfl, rfl, rfl, rfl⟩
  have hlevelled : Levelled createdTwo := levelled_exec (levelled_run created_run) hexec
  obtain ⟨s, hyield⟩ := hlevelled.yield_runs (Malloc.bump Node) ⟨0, 25000⟩ ⟨0, 25000⟩ hcpu
  have hthird : Dispatching (Malloc.bump Node) createdTwo
      (⟨.yield, ⟨0, 25000⟩, ⟨0, 25000⟩⟩, s.runningThread) s := ⟨⟨trivial, 1, none, hyield⟩, rfl⟩
  have hone : Worker.Dispatching (Malloc.bump Node) .start (⟨0, .create, code 1⟩, none)
      (Worker.after [.create]) := ⟨⟨trivial, rfl, 9, rfl⟩, rfl⟩
  have htwo : Worker.Dispatching (Malloc.bump Node) (Worker.after [.create])
      (⟨0, .create, code 2⟩, none) (Worker.after [.create, .create]) :=
    ⟨⟨trivial, rfl, 9, rfl⟩, rfl⟩
  have hthree : Worker.Dispatching (Malloc.bump Node) (Worker.after [.create, .create])
      (⟨0, .yield, none⟩, some 1) (Worker.after [.create, .create, .yield]) :=
    ⟨⟨trivial, rfl, 9, rfl⟩, rfl⟩
  have hw := ((Run.single hone).snoc htwo).snoc hthree
  obtain ⟨hsame, hrunning, -⟩ := builds_agree (hcreated.snoc hthird) hw rfl
  exact ⟨_, s, hcreated.snoc hthird, hsame, hrunning⟩

end UserOS.Worker.Mlfq
