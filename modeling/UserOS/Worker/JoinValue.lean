import UserOS.Worker.Steps

/-!
# What `worker_join` delivers

`worker_exit` keeps its value in `return_values`. A join that finds its target gone reads it there;
a join that waits for its target returns 0 and stores nothing.

* `Values`: the invariant, for the table of values and the exits so far.
* `exec_values`: only `worker_exit` changes the table.
* `join_value_iff`: so a join delivers the value when its target has exited before the call.
-/

namespace UserOS.Worker

open Lib

variable {μ : Malloc Node} {s s' : State} {id fuel : ℕ} {call : Call} {ret : Option Ret}
  {es : List Label} {l : Label}

/-! ## The table of values -/

/-- The thread called `worker_exit` with the value. -/
def ExitedWith (es : List Label) (id valuePtr : ℕ) : Prop :=
  ∃ l ∈ es, l.thread = id ∧ l.call = .exit valuePtr

theorem exited_iff : Exited es id ↔ ∃ valuePtr, ExitedWith es id valuePtr := by
  constructor
  · rintro ⟨l, hl, hid, valuePtr, hcall⟩
    exact ⟨valuePtr, l, hl, hid, hcall⟩
  · rintro ⟨valuePtr, l, hl, hid, hcall⟩
    exact ⟨l, hl, hid, valuePtr, hcall⟩

theorem ExitedWith.exited {valuePtr : ℕ} (h : ExitedWith es id valuePtr) : Exited es id :=
  exited_iff.2 ⟨valuePtr, h⟩

theorem exitedWith_snoc {valuePtr : ℕ} : ExitedWith (es ++ [l]) id valuePtr ↔
    ExitedWith es id valuePtr ∨ l.thread = id ∧ l.call = .exit valuePtr := by
  constructor
  · rintro ⟨l', hl', h⟩
    rcases List.mem_append.1 hl' with hl' | hl'
    · exact .inl ⟨l', hl', h⟩
    · exact .inr (List.mem_singleton.1 hl' ▸ h)
  · rintro (⟨l', hl', h⟩ | h)
    · exact ⟨l', List.mem_append_left _ hl', h⟩
    · exact ⟨l, by simp, h⟩

/-- An exit stores a value other than the null pointer, and frees the control block. -/
theorem workerExit_values {valuePtr : ℕ}
    (he : workerExit μ fuel s valuePtr = some (.ok s' ret)) :
    ∃ id, s.runningThread = some id ∧ s'.threadCount = s.threadCount ∧ s'.tcbs id = none ∧
      s'.returnValues =
        if valuePtr = 0 then s.returnValues else Function.update s.returnValues id valuePtr := by
  obtain ⟨id, t, hid, -, hy⟩ := workerExit_eq he
  obtain ⟨-, next, hsw⟩ := workerYield_effect hy hid (Function.update_self ..)
  exact ⟨id, hid, hsw.count, hsw.gone rfl, (workerYield_kept hy).values⟩

/-- What a step does to the table. -/
theorem exec_values (he : exec μ fuel s call = some (.ok s' ret)) :
    (∃ valuePtr fuel, call = .exit valuePtr ∧
      workerExit μ fuel s valuePtr = some (.ok s' ret)) ∨
    (∀ valuePtr, call ≠ .exit valuePtr) ∧ s'.returnValues = s.returnValues := by
  cases exec_ends he with
  | stays hne _ _ _ hvalues => exact .inr ⟨hne, hvalues⟩
  | creates hc => exact .inr ⟨fun _ => Call.noConfusion, (workerCreate_kept hc).values⟩
  | exits hexit => exact .inl ⟨_, _, rfl, hexit⟩
  | switches hne hvalues hy => exact .inr ⟨hne, (workerYield_kept hy).values.trans hvalues⟩

/-! ## The values of a run -/

/-- The threads that exited are gone, and the table holds their values and no others. -/
structure Values (es : List Label) (s : State) : Prop where
  gone : ∀ id, Exited es id → id < s.threadCount ∧ s.tcbs id = none
  stored : ∀ id valuePtr, ExitedWith es id valuePtr → s.returnValues id = valuePtr
  unset : ∀ id, ¬Exited es id → s.returnValues id = 0

theorem values_start : Values [] State.start :=
  ⟨fun _ h => (nomatch h), fun _ _ h => (nomatch h), fun _ _ => rfl⟩

/-- A thread that is gone does not come back. -/
theorem Effect.gone (he : Effect s call s' ret) (ha : Accounted es s) (hlt : id < s.threadCount)
    (hnone : s.tcbs id = none) : id < s'.threadCount ∧ s'.tcbs id = none := by
  cases he with
  | quiet hsame _ _ =>
    have h := hsame.status id
    rw [hnone] at h
    exact ⟨hsame.count ▸ hlt, Option.map_eq_none_iff.1 h⟩
  | created hnew =>
    exact ⟨Nat.lt_of_lt_of_le hlt hnew.count, by rw [hnew.old id (.inl hlt), hnone]⟩
  | released _ _ _ _ _ hloop _ hcount _ htcbs =>
    obtain ⟨ids, -, hrel⟩ := unblockLoop_releases hloop
    have h := hrel.links id
    rw [← htcbs, State.setMutex, hnone] at h
    exact ⟨hcount ▸ hlt, Option.map_eq_none_iff.1 h⟩
  | @switched _ i _ u s₁ _ hi hbefore hswitches hsw =>
    obtain ⟨t, ht, -⟩ := ha.running i hi
    have hne : id ≠ i := fun heq => by
      rw [heq, ht] at hnone
      cases hnone
    have hlive := congrFun (hswitches.live (by rw [State.live, ht]; rfl)) id
    rw [← live_eq_of_map (hsw.links id (.inl hne)), State.live, State.live, hnone] at hlive
    exact ⟨by rwa [hsw.count, hbefore.count], Option.not_isSome_iff_eq_none.1 (by simp [hlive])⟩

theorem step_values (hv : Values es s) (ha : Accounted es s) (hs : Step μ s l s') :
    Values (es ++ [l]) s' := by
  obtain ⟨hthread, fuel, he⟩ := hs
  have hgone : ∀ id, Exited es id → id < s'.threadCount ∧ s'.tcbs id = none := fun id hid =>
    (exec_effect he).gone ha (hv.gone id hid).1 (hv.gone id hid).2
  rcases exec_values he with ⟨valuePtr, n, hcall, hexit⟩ | ⟨hcall, hvalues⟩
  · obtain ⟨id, hid, hcount, hself, hvalues⟩ := workerExit_values hexit
    obtain ⟨t, ht, -⟩ := ha.running id hid
    have hl : l.thread = id := by rw [hthread, State.caller, hid, Option.getD_some]
    have hlive : ¬Exited es id := fun h => by
      rw [(hv.gone id h).2] at ht
      cases ht
    have hself' : s'.returnValues id = valuePtr := by
      rw [hvalues]
      by_cases hzero : valuePtr = 0
      · rw [if_pos hzero, hv.unset id hlive, hzero]
      · rw [if_neg hzero, Function.update_self]
    have hother : ∀ i, i ≠ id → s'.returnValues i = s.returnValues i := fun i hi => by
      rw [hvalues]
      by_cases hzero : valuePtr = 0
      · rw [if_pos hzero]
      · rw [if_neg hzero, Function.update_of_ne hi]
    have hiff : ∀ i, Exited (es ++ [l]) i ↔ Exited es i ∨ i = id := fun i => by
      rw [exited_iff, exited_iff]
      simp only [exitedWith_snoc, hcall, hl]
      constructor
      · rintro ⟨v, h | ⟨rfl, -⟩⟩
        · exact .inl ⟨v, h⟩
        · exact .inr rfl
      · rintro (⟨v, h⟩ | rfl)
        · exact ⟨v, .inl h⟩
        · exact ⟨valuePtr, .inr ⟨rfl, rfl⟩⟩
    refine ⟨fun i hi => ?_, fun i v hi => ?_, fun i hi => ?_⟩
    · rcases (hiff i).1 hi with hi | rfl
      · exact hgone i hi
      · rw [hcount]
        exact ⟨ha.bound i (by rw [State.live, ht]; rfl), hself⟩
    · rcases exitedWith_snoc.1 hi with hold | ⟨hi, heq⟩
      · have hne : i ≠ id := fun heq => hlive (heq ▸ hold.exited)
        rw [hother i hne, hv.stored i v hold]
      · rw [hcall, Call.exit.injEq] at heq
        rw [← hi, hl, hself', heq]
    · rw [hiff, not_or] at hi
      rw [hother i hi.2, hv.unset i hi.1]
  · have hwith : ∀ i v, ExitedWith (es ++ [l]) i v ↔ ExitedWith es i v := fun i v => by
      rw [exitedWith_snoc]
      exact or_iff_left fun h => hcall v h.2
    have hiff : ∀ i, Exited (es ++ [l]) i ↔ Exited es i := fun i => by
      simp only [exited_iff, hwith]
    refine ⟨fun i hi => hgone i ((hiff i).1 hi), fun i v hi => ?_, fun i hi => ?_⟩
    · rw [hvalues, hv.stored i v ((hwith i v).1 hi)]
    · rw [hvalues, hv.unset i fun h => hi ((hiff i).2 h)]

/-- The table after a run. -/
theorem run_values (hr : Run (Step μ) State.start es s) : Values es s := by
  have hboth : Accounted es s ∧ Values es s := by
    refine Run.history (I := fun es u => Accounted es u ∧ Values es u)
      ⟨accounted_start, values_start⟩ (fun fs u e w h hstep => ?_) hr
    exact ⟨step_accounted h.1 hstep, step_values h.2 h.1 hstep⟩
  exact hboth.2

/-! ## Joins -/

/-- A join that returns at once stores what the table holds; one that waited stores nothing. -/
theorem join_value {thread : ℕ} (he : exec μ fuel s (.join thread true) = some (.ok s' ret))
    (hret : ret.map Ret.code = some 0) :
    (s.cont s.caller = .idle ∧ ret = some ⟨0, some (s.returnValues thread)⟩) ∨
      (s.cont s.caller ≠ .idle ∧ ret = code 0) := by
  rcases exec_join_cases he with ⟨hcont, hj⟩ | ⟨hidle, id, node, -, -, ⟨-, hj⟩ | ⟨-, w, -, hj⟩⟩
  · obtain ⟨id, -, hj⟩ := Option.bind_eq_some_iff.1 hj
    cases hj
    exact .inr ⟨by rw [hcont]; exact Cont.noConfusion, rfl⟩
  · unfold joinFinished at hj
    dsimp only at hj
    rw [if_pos rfl] at hj
    split_ifs at hj with hle hlt <;> cases hj
    · exact .inl ⟨hidle, rfl⟩
    · exact absurd hret (by decide)
  · unfold joinReady at hj
    split_ifs at hj
    · cases hj
      exact absurd hret (by decide)
    · obtain ⟨t, ht, hj⟩ := Option.bind_eq_some_iff.1 hj
      obtain ⟨s₁, henq, hy⟩ := Option.bind_eq_some_iff.1 hj
      obtain ⟨s₂, -, hd⟩ := Option.bind_eq_some_iff.1 hy
      rw [(dispatch_effect hd).1] at hret
      cases hret

/-- **Join delivers the value.** A join that returns 0, of a thread that exits with a value at some
time of the run, delivers the value exactly when the thread had exited before the call was made: the
caller is not inside it already, and the exit is among the labels so far. -/
theorem join_value_iff {es' : List Label} {s'' : State} (hr : Run (Step μ) State.start es s)
    (hs : Step μ s l s') (hr' : Run (Step μ) s' es' s'') {thread valuePtr : ℕ}
    (hcall : l.call = .join thread true) (hret : l.ret.map Ret.code = some 0)
    (hexit : ExitedWith (es ++ l :: es') thread valuePtr) (hv : valuePtr ≠ 0) :
    l.ret = some ⟨0, some valuePtr⟩ ↔ s.cont s.caller = .idle ∧ Exited es thread := by
  have hvalues := run_values hr
  have hwhole : Values (es ++ l :: es') s'' := by
    rw [List.append_cons]
    exact run_values ((hr.snoc hs).append hr')
  obtain ⟨-, fuel, he⟩ := hs
  rw [hcall] at he
  constructor
  · intro hl
    rcases join_value he hret with ⟨hidle, heq⟩ | ⟨-, heq⟩
    · refine ⟨hidle, by_contra fun hnot => hv ?_⟩
      rw [hl, hvalues.unset thread hnot] at heq
      simpa using heq
    · rw [hl] at heq
      cases heq
  · rintro ⟨hidle, hgone⟩
    rcases join_value he hret with ⟨-, heq⟩ | ⟨hne, -⟩
    · obtain ⟨v, hv'⟩ := exited_iff.1 hgone
      have hwith : ExitedWith (es ++ l :: es') thread v := by
        obtain ⟨e, hmem, h⟩ := hv'
        exact ⟨e, List.mem_append_left _ hmem, h⟩
      rw [heq, hvalues.stored thread v hv', ← hwhole.stored thread v hwith,
        hwhole.stored thread valuePtr hexit]
    · exact absurd hidle hne

/-- The main thread joins thread 1 when it has exited with 7. -/
theorem join_value_iff_finished :
    (some ⟨0, some 7⟩ : Option Ret) = some ⟨0, some 7⟩ ↔
      (after [.create, .yield, .exit 7]).cont (after [.create, .yield, .exit 7]).caller = .idle ∧
        Exited [⟨0, .create, code 1⟩, ⟨0, .yield, none⟩, ⟨1, .exit 7, none⟩] 1 := by
  have hr : Run (Guarded (fun _ _ => True) (Step (Malloc.bump Node))) .start
      [⟨0, .create, code 1⟩, ⟨0, .yield, none⟩, ⟨1, .exit 7, none⟩]
      (after [.create, .yield, .exit 7]) :=
    run_of_follow (fun _ _ => True) 9 [.create, .yield, .exit 7] rfl fun _ _ _ => trivial
  have hs : Step (Malloc.bump Node) (after [.create, .yield, .exit 7])
      ⟨0, .join 1 true, some ⟨0, some 7⟩⟩ (after [.create, .yield, .exit 7, .join 1 true]) :=
    ⟨rfl, 9, rfl⟩
  exact join_value_iff (hr.mono fun _ _ _ h => h.2) hs .nil rfl rfl
    ⟨⟨1, .exit 7, none⟩, by simp, rfl, rfl⟩ (by decide)

/-- The main thread joins thread 1 while it is ready, thread 1 exits with 7, and the join returns 0
with nothing stored. -/
theorem join_waits_no_value : ¬∀ es s l s' es' s'', Run (Step (Malloc.bump Node)) State.start es s →
    Step (Malloc.bump Node) s l s' → Run (Step (Malloc.bump Node)) s' es' s'' →
    ∀ thread valuePtr, l.call = .join thread true → l.ret.map Ret.code = some 0 →
      ExitedWith (es ++ l :: es') thread valuePtr → valuePtr ≠ 0 →
      l.ret = some ⟨0, some valuePtr⟩ := by
  intro hall
  have hr : Run (Guarded (fun _ _ => True) (Step (Malloc.bump Node))) .start
      [⟨0, .create, code 1⟩, ⟨0, .join 1 true, none⟩, ⟨1, .exit 7, none⟩]
      (after [.create, .join 1 true, .exit 7]) :=
    run_of_follow (fun _ _ => True) 9 [.create, .join 1 true, .exit 7] rfl fun _ _ _ => trivial
  have hs : Step (Malloc.bump Node) (after [.create, .join 1 true, .exit 7])
      ⟨0, .join 1 true, code 0⟩ (after [.create, .join 1 true, .exit 7, .join 1 true]) :=
    ⟨rfl, 9, rfl⟩
  have h := hall _ _ _ _ _ _ (hr.mono fun _ _ _ h => h.2) hs .nil 1 7 rfl rfl
    ⟨⟨1, .exit 7, none⟩, by simp, rfl, rfl⟩ (by decide)
  cases h

end UserOS.Worker
