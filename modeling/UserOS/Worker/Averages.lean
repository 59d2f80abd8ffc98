import Mathlib.Algebra.BigOperators.Group.Finset.Basic
import Mathlib.Algebra.BigOperators.Ring.Finset
import Mathlib.Tactic.FieldSimp
import UserOS.Lib.Run
import UserOS.Worker.Stats

/-!
# The averages are the means

The number of threads that have finished, which `update_time_stats` computes from two counters that
other calls change, is the number of threads created whose control block is gone. A stamp is only
ever taken for a thread that has a control block.

* `Counted`: the counters count the control blocks.
* `Ended.mean_eq`: the mean with one more thread.
* `Tallied.step`: one call keeps the averages the means of what was computed.
* `averages_are_means`: the averages over every run, in each build.
-/

namespace UserOS.Worker.Stats

open Lib
open Mlfq (Timeval)

variable {b : Build}

/-! ## The averages over a run -/

/-- The threads that have finished: those that were created and have no control block any more. -/
def ended (w : Worker.State) : Finset ℕ :=
  (Finset.range w.threadCount).filter fun i => w.live i = false

/-- The mean of `f` over the threads that have finished. -/
def mean (w : Worker.State) (f : ℕ → ℚ) : ℚ := (∑ i ∈ ended w, f i) / (ended w).card

variable {s s' : Timed b} {w w' : Worker.State} {id fuel : ℕ} {f : ℕ → ℚ} {r : Readings}
  {μ : Malloc Node}

theorem mem_ended {i : ℕ} : i ∈ ended w ↔ i < w.threadCount ∧ w.live i = false := by
  rw [ended, Finset.mem_filter, Finset.mem_range]

theorem SameThreads.ended_eq (h : SameThreads w w') : ended w' = ended w := by
  rw [ended, ended, h.count, h.live]

theorem Spawned.ended_eq (h : Spawned w w') : ended w' = ended w := by
  ext i
  rw [mem_ended, mem_ended, h.count, h.live, Bool.or_eq_false_iff, decide_eq_false_iff_not]
  constructor
  · rintro ⟨hi, hne, hlive⟩
    exact ⟨by omega, hlive⟩
  · rintro ⟨hi, hlive⟩
    exact ⟨by omega, by omega, hlive⟩

theorem Ended.ended_eq (h : Ended w w' id) (hid : id < w.threadCount) :
    ended w' = insert id (ended w) := by
  ext i
  rw [Finset.mem_insert, mem_ended, mem_ended, h.count, h.live, Bool.and_eq_false_iff,
    Bool.not_eq_false', decide_eq_true_iff]
  constructor
  · rintro ⟨hi, heq | hlive⟩
    · exact .inl heq
    · exact .inr ⟨hi, hlive⟩
  · rintro (rfl | ⟨hi, hlive⟩)
    · exact ⟨hid, .inl rfl⟩
    · exact ⟨hi, .inr hlive⟩

/-- The control blocks are counted: the ids are below the number of threads created, and
`active_threads` is the number of control blocks. -/
structure Counted (w : Worker.State) : Prop where
  below : ∀ i, w.live i = true → i < w.threadCount
  active : w.activeThreads = ((Finset.range w.threadCount).filter fun i => w.live i = true).card

/-- The counters differ by the number of threads that have finished. -/
theorem Counted.card_ended (h : Counted w) : w.activeThreads + (ended w).card = w.threadCount := by
  have hcard := Finset.card_filter_add_card_filter_not (s := Finset.range w.threadCount)
    (fun i => w.live i = true)
  simpa [ended, h.active] using hcard

theorem SameThreads.counted (h : SameThreads w w') (hc : Counted w) : Counted w' := by
  refine ⟨fun i hi => ?_, ?_⟩
  · rw [h.live] at hi
    rw [h.count]
    exact hc.below i hi
  · rw [h.active, h.count, h.live, hc.active]

theorem Spawned.counted (h : Spawned w w') (hc : Counted w) : Counted w' := by
  have hbelow : ∀ i, w'.live i = true → i < w'.threadCount := fun i hi => by
    rw [h.live, Bool.or_eq_true, decide_eq_true_iff] at hi
    rw [h.count]
    rcases hi with rfl | hi
    · omega
    · have := hc.below i hi
      omega
  refine ⟨hbelow, ?_⟩
  have hsum := hc.card_ended
  have hcard := Finset.card_filter_add_card_filter_not (s := Finset.range w'.threadCount)
    (fun i => w'.live i = true)
  have hended : ((Finset.range w'.threadCount).filter fun i => ¬w'.live i = true).card =
      (ended w).card := by
    rw [← h.ended_eq, ended]
    simp
  rw [hended, Finset.card_range, h.count] at hcard
  rw [h.active, h.count]
  omega

theorem Ended.counted (h : Ended w w' id) (hid : w.live id = true) (hc : Counted w) :
    Counted w' := by
  have hlt := hc.below id hid
  refine ⟨fun i hi => ?_, ?_⟩
  · rw [h.live, Bool.and_eq_true] at hi
    rw [h.count]
    exact hc.below i hi.2
  · have hmem : id ∈ (Finset.range w.threadCount).filter fun i => w.live i = true := by
      simp [hlt, hid]
    rw [h.active, hc.active, ← Finset.card_erase_of_mem hmem, h.count]
    congr 1
    ext i
    simp only [Finset.mem_erase, Finset.mem_filter, h.live, Bool.and_eq_true, Bool.not_eq_true',
      decide_eq_false_iff_not]
    tauto

theorem mean_congr {g : ℕ → ℚ} (he : ended w' = ended w) (h : ∀ i ∈ ended w, f i = g i) :
    mean w' f = mean w g := by
  rw [mean, mean, he, Finset.sum_congr rfl h]

/-- The mean with one more thread. -/
theorem Ended.mean_eq (h : Ended w w' id) (hid : w.live id = true) (hc : Counted w) :
    mean w' f = ((ended w).card * mean w f + f id) / ((ended w).card + 1) := by
  have hnot : id ∉ ended w := fun hm => by
    rw [(mem_ended.1 hm).2] at hid
    cases hid
  have hsum : ((ended w).card : ℚ) * mean w f = ∑ i ∈ ended w, f i := by
    unfold mean
    by_cases hcard : (ended w).card = 0
    · rw [Finset.card_eq_zero.1 hcard]
      simp
    · have hne : ((ended w).card : ℚ) ≠ 0 := by exact_mod_cast hcard
      field_simp
  rw [mean, h.ended_eq (hc.below id hid), Finset.sum_insert hnot, Finset.card_insert_of_notMem hnot,
    hsum]
  push_cast
  rw [add_comm (f id)]

/-- `T'` has the averages of `T` and the stamps of the threads that have finished. -/
structure Keeps (w : Worker.State) (T T' : Times) : Prop where
  created : ∀ i ∈ ended w, T'.created i = T.created i
  firstRun : ∀ i ∈ ended w, T'.firstRun i = T.firstRun i
  finished : ∀ i ∈ ended w, T'.finished i = T.finished i
  avgTurnaround : T'.avgTurnaround = T.avgTurnaround
  avgResponse : T'.avgResponse = T.avgResponse

theorem Keeps.refl (w : Worker.State) (T : Times) : Keeps w T T :=
  ⟨fun _ _ => rfl, fun _ _ => rfl, fun _ _ => rfl, rfl, rfl⟩

/-- A stamp of a thread that has not finished. -/
theorem update_of_ended {i : ℕ} {x : Timeval} {g : ℕ → Timeval} (hi : i ∈ ended w)
    (hid : id ∉ ended w) : Function.update g id x i = g i :=
  Function.update_of_ne (ne_of_mem_of_not_mem hi hid) _ _

/-- What holds along a run: the averages are the means of what `update_time_stats` computed. -/
structure Tallied (s : Timed b) : Prop where
  counted : Counted s.globals
  turnaround : s.times.avgTurnaround =
    mean s.globals fun i => statMs (s.times.created i) (s.times.finished i)
  response : s.times.avgResponse =
    mean s.globals fun i => statMs (s.times.created i) (s.times.firstRun i)

theorem Tallied.keep (h : Tallied s) (hc : Counted s'.globals)
    (he : ended s'.globals = ended s.globals) (hk : Keeps s.globals s.times s'.times) :
    Tallied s' where
  counted := hc
  turnaround := by
    rw [hk.avgTurnaround, h.turnaround]
    exact (mean_congr he fun i hi => by rw [hk.created i hi, hk.finished i hi]).symm
  response := by
    rw [hk.avgResponse, h.response]
    exact (mean_congr he fun i hi => by rw [hk.created i hi, hk.firstRun i hi]).symm

theorem Tallied.same (h : Tallied s) (hs : SameThreads s.globals s'.globals)
    (hk : Keeps s.globals s.times s'.times) : Tallied s' :=
  h.keep (hs.counted h.counted) hs.ended_eq hk

/-- **The update.** -/
theorem Tallied.update (h : Tallied s) (he : Ended s.globals s'.globals id)
    (hid : s.globals.live id = true)
    (ht : s'.times = updateTimeStats s.globals id s.times) : Tallied s' := by
  have hcard := h.counted.card_ended
  have hn : (s.globals.threadCount : ℤ) - s.globals.activeThreads = (ended s.globals).card := by
    omega
  refine ⟨he.counted hid h.counted, ?_, ?_⟩
  · rw [he.mean_eq hid h.counted, ht]
    simp only [updateTimeStats, hn, ← h.turnaround]
    push_cast
    rfl
  · rw [he.mean_eq hid h.counted, ht]
    simp only [updateTimeStats, hn, ← h.response]
    push_cast
    rfl

/-! ## One call -/

theorem Tallied.start (hb : b.Lawful) : Tallied (.start b) := by
  have hglobals : (Timed.start b).globals = .start := hb.start
  have hended : ended (Timed.start b).globals = ∅ := by
    rw [hglobals]
    rfl
  refine ⟨?_, ?_, ?_⟩
  · rw [hglobals]
    exact ⟨fun i hi => (nomatch hi), rfl⟩
  · rw [mean, hended]
    simp [Timed.start]
  · rw [mean, hended]
    simp [Timed.start]

theorem Tallied.withGlobals (hb : b.Lawful) (h : Tallied s) (hs : SameThreads s.globals w) :
    Tallied (s.withGlobals w) := by
  have hglobals : (s.withGlobals w).globals = w := hb.set _ _
  exact h.same (hglobals.symm ▸ hs) (.refl _ _)

theorem Tallied.ensureMain (hb : b.Lawful) (h : Tallied s) (hm : ensureMain μ s r = some s') :
    Tallied s' := by
  unfold Stats.ensureMain at hm
  split_ifs at hm with hzero
  · obtain ⟨state, hmain, hm⟩ := Option.bind_eq_some_iff.1 hm
    cases hm
    have hsp : Spawned s.globals (b.globals state) := hb.createMain hmain
    have hended : ended (b.globals state) = ∅ := by
      rw [hsp.ended_eq, ended, hzero]
      rfl
    refine ⟨hsp.counted h.counted, ?_, ?_⟩
    · show 0 = mean (b.globals state) _
      rw [mean, hended]
      simp
    · show 0 = mean (b.globals state) _
      rw [mean, hended]
      simp
  · cases hm
    exact h

theorem Tallied.workerCreate (hb : b.Lawful) (h : Tallied s)
    (hc : workerCreate μ fuel s r = some s') : Tallied s' := by
  obtain ⟨s₁, hmain, hc⟩ := Option.bind_eq_some_iff.1 hc
  obtain ⟨state, hthread, hc⟩ := Option.bind_eq_some_iff.1 hc
  cases hc
  have h₁ := h.ensureMain hb hmain
  have hsp : Spawned s₁.globals (b.globals state) := hb.createThread hthread
  have hnew : s₁.globals.threadCount ∉ ended s₁.globals := fun hm =>
    lt_irrefl _ (mem_ended.1 hm).1
  exact h₁.keep (hsp.counted h₁.counted) hsp.ended_eq
    ⟨fun i hi => update_of_ended hi hnew, fun i hi => update_of_ended hi hnew,
      fun i hi => update_of_ended hi hnew, rfl, rfl⟩

theorem not_mem_ended {t : Tcb} (ht : w.tcbs id = some t) : id ∉ ended w := fun hm => by
  have hlive := (mem_ended.1 hm).2
  simp [Worker.State.live, ht] at hlive

/-- `schedule` up to the choice of the next thread. -/
theorem Tallied.leave (hb : b.Lawful) (h : Tallied s) (hl : leave fuel s r = some s') :
    Tallied s' := by
  obtain ⟨s₁, hstamp, hl⟩ := Option.bind_eq_some_iff.1 hl
  obtain ⟨id, hid, hstamp⟩ := Option.bind_eq_some_iff.1 hstamp
  obtain ⟨t, ht, hstamp⟩ := Option.bind_eq_some_iff.1 hstamp
  obtain ⟨state, hcharge, hstamp⟩ := Option.bind_eq_some_iff.1 hstamp
  cases hstamp
  obtain ⟨hsame, hrunning, htcbs⟩ := hb.charge hcharge
  have hnot := not_mem_ended ht
  have h₁ : Tallied (⟨state, { s.times with
      finished := Function.update s.times.finished id r.finished }⟩ : Timed b) :=
    h.same hsame ⟨fun _ _ => rfl, fun _ _ => rfl, fun i hi => update_of_ended hi hnot, rfl, rfl⟩
  obtain ⟨i, hi, hl⟩ := Option.bind_eq_some_iff.1 hl
  obtain rfl : id = i := Option.some.inj ((hrunning.trans hid).symm.trans hi)
  obtain ⟨u, hu, hl⟩ := Option.bind_eq_some_iff.1 hl
  obtain ⟨next, hretire, hl⟩ := Option.bind_eq_some_iff.1 hl
  cases hl
  have hretired := hb.retire hretire hi hu
  split_ifs at hretired ⊢ with hst
  · exact h₁.update hretired (by simp [Worker.State.live, hu]) rfl
  · exact h₁.same hretired (.refl _ _)

theorem Tallied.dispatch (hb : b.Lawful) (h : Tallied s)
    (hd : dispatch μ s r = some (some s')) : Tallied s' := by
  obtain ⟨o, hdispatch, hd⟩ := Option.bind_eq_some_iff.1 hd
  cases o with
  | none => cases hd
  | some state =>
    obtain ⟨id, hid, hd⟩ := Option.bind_eq_some_iff.1 hd
    cases hd
    have hsame := hb.dispatch hdispatch
    refine h.same hsame ?_
    show Keeps s.globals s.times (stampFirstRun s id r)
    unfold stampFirstRun
    split_ifs with hfirst
    · obtain ⟨t, ht, -⟩ := (Option.any_eq_true _ _).1 hfirst.2
      exact ⟨fun _ _ => rfl, fun i hi => update_of_ended hi (not_mem_ended ht), fun _ _ => rfl,
        rfl, rfl⟩
    · exact .refl _ _

theorem Tallied.workerYield (hb : b.Lawful) (h : Tallied s)
    (hy : workerYield μ fuel s r = some (some s')) : Tallied s' := by
  obtain ⟨s₁, hl, hd⟩ := Option.bind_eq_some_iff.1 hy
  exact (h.leave hb hl).dispatch hb hd

theorem Tallied.exitUpdated (hb : b.Lawful) (h : Tallied s) {valuePtr : ℕ}
    (he : exitUpdated fuel s valuePtr r = some s') : Tallied s' := by
  obtain ⟨s₁, hmark, hl⟩ := Option.bind_eq_some_iff.1 he
  refine Tallied.leave hb ?_ hl
  obtain ⟨id, hid, hmark⟩ := Option.bind_eq_some_iff.1 hmark
  obtain ⟨t, ht, hmark⟩ := Option.bind_eq_some_iff.1 hmark
  split_ifs at hmark
  all_goals
    cases hmark
    have hsame := sameThreads_setTcb ht { t with status := .finished }
    exact h.withGlobals hb ⟨hsame.count, hsame.active, hsame.live⟩

/-- **One call** keeps the averages the means. -/
theorem Tallied.step (hb : b.Lawful) (h : Tallied s) {l : Mlfq.Call × Readings}
    (hs : Step μ s l s') : Tallied s' := by
  obtain ⟨call, r⟩ := l
  obtain ⟨fuel, he⟩ := hs
  cases call with
  | create =>
    obtain ⟨s₁, hc, heq⟩ := Option.map_eq_some_iff.1 he
    cases heq
    exact h.workerCreate hb hc
  | yield => exact (h.withGlobals (w := { s.globals with interruptDisabled := true }) hb
      ⟨rfl, rfl, rfl⟩).workerYield hb he
  | exit valuePtr =>
    obtain ⟨s₁, hl, hd⟩ := Option.bind_eq_some_iff.1 he
    exact (h.exitUpdated hb hl).dispatch hb hd
  | preempt =>
    unfold exec at he
    dsimp only at he
    split_ifs at he
    · cases he
      exact h
    · exact h.workerYield hb he

/-! ## The means -/

/-- The stamps of a thread are readings of a clock, one after the other. -/
structure InOrder (T : Times) (i : ℕ) : Prop where
  created : Reading (T.created i)
  firstRun : Reading (T.firstRun i)
  finished : Reading (T.finished i)
  first : micros (T.created i) ≤ micros (T.firstRun i)
  last : micros (T.firstRun i) ≤ micros (T.finished i)

/-- The averages are the arithmetic means over the threads that have finished. -/
structure AreMeans (s : Timed b) : Prop where
  turnaround : s.times.avgTurnaround =
    mean s.globals fun i => wholeMs (s.times.created i) (s.times.finished i)
  response : s.times.avgResponse =
    mean s.globals fun i => wholeMs (s.times.created i) (s.times.firstRun i)

theorem Tallied.areMeans (h : Tallied s) (ho : ∀ i ∈ ended s.globals, InOrder s.times i) :
    AreMeans s where
  turnaround := h.turnaround.trans <| mean_congr rfl fun i hi =>
    statMs_eq (ho i hi).created (ho i hi).finished ((ho i hi).first.trans (ho i hi).last)
  response := h.response.trans <| mean_congr rfl fun i hi =>
    statMs_eq (ho i hi).created (ho i hi).firstRun (ho i hi).first

/-- **The averages.** Whatever threads were created and have finished, in whatever order, in each
build: the averages are the means over the threads that have finished, the one that exits included
once `update_time_stats` returns. -/
theorem averages_are_means (scheduler : Scheduler) (μ : Malloc Node)
    {calls : List (Mlfq.Call × Readings)} {s : Timed scheduler.build}
    (h : Run (Step μ) (.start scheduler.build) calls s) :
    ((∀ i ∈ ended s.globals, InOrder s.times i) → AreMeans s) ∧
    ∀ fuel valuePtr r s', exitUpdated fuel s valuePtr r = some s' →
      (∀ i ∈ ended s'.globals, InOrder s'.times i) → AreMeans s' := by
  have hb := scheduler.lawful
  have htallied : Tallied s :=
    h.invariant (.start hb) fun _ _ _ hI hs => hI.step hb hs
  exact ⟨htallied.areMeans, fun _ _ _ _ he => (htallied.exitUpdated hb he).areMeans⟩

/-- What the clock shows in the run below, until the first exit, in it and after it. -/
def clock : Readings := ⟨⟨0, 0⟩, ⟨0, 0⟩, ⟨0, 0⟩, ⟨0, 999000⟩, ⟨1, 500⟩, ⟨0, 0⟩⟩

def clockExit : Readings := { clock with firstRun := ⟨2, 500⟩, finished := ⟨2, 0⟩ }

def clockLast : Readings := { clock with finished := ⟨5, 0⟩ }

/-- Two threads are created, run and exit one after the other; the main thread goes on. -/
theorem averages_are_means_two : ∃ s : Timed (Scheduler.build .rr),
    Run (Step (.bump _)) (.start (Scheduler.build .rr)) [(.create, clock), (.create, clock),
      (.yield, clock), (.exit 0, clockExit), (.exit 0, clockLast)] s ∧
    ended s.globals = {1, 2} ∧ AreMeans s := by
  obtain ⟨s, hrun, hended, hfirst, hsecond⟩ : ∃ s : Timed (Scheduler.build .rr),
      Run (Step (.bump _)) (.start (Scheduler.build .rr)) [(.create, clock), (.create, clock),
        (.yield, clock), (.exit 0, clockExit), (.exit 0, clockLast)] s ∧
      ended s.globals = {1, 2} ∧
      (s.times.created 1, s.times.firstRun 1, s.times.finished 1) =
        (⟨0, 999000⟩, ⟨1, 500⟩, ⟨2, 0⟩) ∧
      (s.times.created 2, s.times.firstRun 2, s.times.finished 2) =
        (⟨0, 999000⟩, ⟨2, 500⟩, ⟨5, 0⟩) :=
    ⟨_, ((((Run.single ⟨9, rfl⟩).append (.single ⟨9, rfl⟩)).append (.single ⟨9, rfl⟩)).append
      (.single ⟨9, rfl⟩)).append (.single ⟨9, rfl⟩), by decide, rfl, rfl⟩
  simp only [Prod.mk.injEq] at hfirst hsecond
  refine ⟨s, hrun, hended, (averages_are_means .rr (.bump _) hrun).1 fun i hi => ?_⟩
  rw [hended, Finset.mem_insert, Finset.mem_singleton] at hi
  obtain rfl | rfl := hi
  · obtain ⟨hcreated, hrun, hfinished⟩ := hfirst
    exact ⟨by rw [hcreated]; decide, by rw [hrun]; decide, by rw [hfinished]; decide,
      by rw [hcreated, hrun]; decide, by rw [hrun, hfinished]; decide⟩
  · obtain ⟨hcreated, hrun, hfinished⟩ := hsecond
    exact ⟨by rw [hcreated]; decide, by rw [hrun]; decide, by rw [hfinished]; decide,
      by rw [hcreated, hrun]; decide, by rw [hrun, hfinished]; decide⟩

end UserOS.Worker.Stats
