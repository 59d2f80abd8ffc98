import UserOS.Worker.Statements
import UserOS.Worker.Steps

/-!
# Preemption by the scheduler of `worker.c`

`Turn` lets a switch do anything that leaves the mutex alone. Here a switch is the interrupt handler
or the `worker_yield` of a thread that blocks, and threads are created by `worker_create`.

* `Preempt.turn`: these steps are steps of `Turn`.
* `run_of_play`: a list of moves, executed one after the other, is a run.
-/

namespace UserOS.Worker

open Lib

/-- The steps with the scheduler of `worker.c`. -/
inductive Preempt (μ : Malloc Node) (mutex : ℕ) (f : Threaded) : Move → Threaded → Prop
  | advance {e : Move} {g : Threaded} : Advance mutex f e g → Preempt μ mutex f e g
  | create {fuel : ℕ} {mem : State} {ret : Option Ret} :
      (∀ id, f.mem.runningThread = some id → f.pc id = .idle) →
      workerCreate μ fuel f.mem = some (.ok mem ret) →
      Preempt μ mutex f .create { f with mem := mem }
  | switch {fuel : ℕ} {mem : State} {ret : Option Ret} :
      interruptHandler μ fuel f.mem = some (.ok mem ret) →
      Preempt μ mutex f .switch { f with mem := mem }
  | yield {id fuel : ℕ} {mem : State} {ret : Option Ret} : f.mem.runningThread = some id →
      f.pc id = .lockYield → workerYield μ fuel f.mem = some (.ok mem ret) →
      Preempt μ mutex f (.yield id) { f with mem := mem, pc := Function.update f.pc id .lockTest }

variable {μ : Malloc Node} {s s' : State} {t : Tcb} {mutex fuel : ℕ} {f g : Threaded} {e : Move}
  {es : List Move} {ret : Option Ret}

/-- A step of the scheduler of `worker.c` is one of the arbitrary switches. -/
theorem Preempt.turn (hp : Preempt μ mutex f e g) : Turn mutex f e g := by
  cases hp with
  | advance ha => exact .advance ha
  | create _ hc => exact .switch (.inl rfl) (by rw [(workerCreate_kept hc).mutexes])
  | switch hi => exact .switch (.inr rfl) (by rw [(interruptHandler_kept hi).mutexes])
  | yield hid hpc hy => exact .yield hid hpc (by rw [(workerYield_kept hy).mutexes])

/-! ## Executing moves -/

/-- What a call leads to, if the process goes on. -/
def Outcome.state : Outcome → Option State
  | .ok s _ => some s
  | .exit _ => none

/-- The state after a move. -/
def Threaded.move (μ : Malloc Node) (fuel mutex : ℕ) (f : Threaded) : Move → Option Threaded
  | .create =>
    if f.pc f.mem.caller = .idle then do
      let mem ← (← workerCreate μ fuel f.mem).state
      some { f with mem := mem }
    else none
  | .switch => do
    let mem ← (← interruptHandler μ fuel f.mem).state
    some { f with mem := mem }
  | .call id pc =>
    if f.mem.runningThread = some id ∧ f.pc id = .idle ∧ (pc = .lockTest ∨ pc = .unlockTest) then
      some { f with pc := Function.update f.pc id pc }
    else none
  | .statement id ret => do
    let (mem, pc, r) ← statement fuel mutex f.mem id (f.pc id)
    if f.mem.runningThread = some id ∧ r = ret then
      some ⟨mem, Function.update f.pc id pc,
        Function.update f.holds id (holdsAfter (f.pc id) pc (f.holds id))⟩
    else none
  | .yield id =>
    if f.mem.runningThread = some id ∧ f.pc id = .lockYield then do
      let mem ← (← workerYield μ fuel f.mem).state
      some { f with mem := mem, pc := Function.update f.pc id .lockTest }
    else none

/-- The state after some moves, if `check` accepts each of them. -/
def play (μ : Malloc Node) (fuel mutex : ℕ) (check : Threaded → Move → Bool) :
    Threaded → List Move → Option Threaded
  | f, [] => some f
  | f, e :: es =>
    if check f e then do
      let g ← f.move μ fuel mutex e
      play μ fuel mutex check g es
    else none

/-- The check that no statement of `pcs` is executed. -/
def avoids (pcs : List Pc) (f : Threaded) : Move → Bool
  | .statement id _ => !pcs.contains (f.pc id)
  | _ => true

theorem avoids_statement {pcs : List Pc} {pc : Pc} {id : ℕ} {ret : Option ℤ}
    (hc : avoids pcs f (.statement id ret) = true) (hpc : pc ∈ pcs) : f.pc id ≠ pc := by
  intro heq
  simp only [avoids, heq, Bool.not_eq_true', List.contains_eq_mem, decide_eq_false_iff_not] at hc
  exact hc hpc

theorem Outcome.state_eq {o : Outcome} (ho : o.state = some s) : ∃ ret, o = .ok s ret := by
  cases o with
  | ok u ret =>
    cases ho
    exact ⟨ret, rfl⟩
  | exit c => cases ho

theorem preempt_of_move (hm : f.move μ fuel mutex e = some g) : Preempt μ mutex f e g := by
  cases e with
  | create =>
    dsimp only [Threaded.move] at hm
    split_ifs at hm with hidle
    obtain ⟨o, hc, hm⟩ := Option.bind_eq_some_iff.1 hm
    obtain ⟨mem, ho, hm⟩ := Option.bind_eq_some_iff.1 hm
    obtain ⟨ret, rfl⟩ := Outcome.state_eq ho
    cases hm
    refine .create (fun id hid => ?_) hc
    rwa [State.caller, hid] at hidle
  | switch =>
    obtain ⟨o, hc, hm⟩ := Option.bind_eq_some_iff.1 hm
    obtain ⟨mem, ho, hm⟩ := Option.bind_eq_some_iff.1 hm
    obtain ⟨ret, rfl⟩ := Outcome.state_eq ho
    cases hm
    exact .switch hc
  | call id pc =>
    dsimp only [Threaded.move] at hm
    split_ifs at hm with h
    cases hm
    exact .advance (.call h.1 h.2.1 h.2.2)
  | statement id ret =>
    obtain ⟨⟨mem, pc, r⟩, hs, hm⟩ := Option.bind_eq_some_iff.1 hm
    dsimp only at hm
    split_ifs at hm with h
    cases hm
    obtain ⟨hid, rfl⟩ := h
    exact .advance (.statement hid hs)
  | yield id =>
    dsimp only [Threaded.move] at hm
    split_ifs at hm with h
    obtain ⟨o, hc, hm⟩ := Option.bind_eq_some_iff.1 hm
    obtain ⟨mem, ho, hm⟩ := Option.bind_eq_some_iff.1 hm
    obtain ⟨ret, rfl⟩ := Outcome.state_eq ho
    cases hm
    exact .yield h.1 h.2 hc

/-- Executing moves makes a run, of the steps that meet `ok` if the check is sound. -/
theorem run_of_play {ok : Threaded → Move → Prop} (fuel : ℕ) (check : Threaded → Move → Bool)
    (hok : ∀ f e, check f e = true → ok f e) (hp : play μ fuel mutex check f es = some g) :
    Run (Guarded ok (Preempt μ mutex)) f es g := by
  induction es generalizing f with
  | nil =>
    cases hp
    exact .nil
  | cons e es ih =>
    rw [play] at hp
    split_ifs at hp with hcheck
    obtain ⟨h, hm, hp⟩ := Option.bind_eq_some_iff.1 hp
    have hfirst : Run (Guarded ok (Preempt μ mutex)) f [e] h :=
      .single ⟨hok f e hcheck, preempt_of_move hm⟩
    exact hfirst.append (ih hp)

/-- A mutex has been initialised and no thread created. -/
def Threaded.start (mutex : ℕ) : Threaded :=
  ⟨((workerMutexInit .start mutex).state).getD .start, fun _ => .idle, fun _ => false⟩

theorem initialised_start : Initialised mutex (.start mutex) :=
  ⟨⟨.start, rfl⟩, fun _ => rfl, fun _ => rfl⟩

/-- The state after some moves from the start. -/
def played (mutex : ℕ) (es : List Move) : Threaded :=
  (play (Malloc.bump Node) 9 mutex (fun _ _ => true) (.start mutex) es).getD (.start mutex)

theorem run_played (hp : play (Malloc.bump Node) 9 mutex (fun _ _ => true) (.start mutex) es =
    some (played mutex es)) :
    Run (Preempt (Malloc.bump Node) mutex) (.start mutex) es (played mutex es) := by
  have hrun : Run (Guarded (fun _ _ => True) (Preempt (Malloc.bump Node) mutex)) (.start mutex) es
      (played mutex es) := run_of_play 9 _ (fun _ _ _ => trivial) hp
  exact hrun.mono fun _ _ _ h => h.2

end UserOS.Worker
