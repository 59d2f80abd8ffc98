import Mathlib.Algebra.BigOperators.Group.Finset.Piecewise
import UserOS.Lib.SharedSum
import UserOS.Worker.Mutex

/-!
# Threads that add to a sum under the mutex

The benchmarks start threads that call `worker_mutex_lock`, add a value to a global variable and
call `worker_mutex_unlock`, over and over. The addition reads the variable and writes it back, and
the timer may switch threads in between and between any two statements of the two functions.

* `instructions`: what a statement of such a program executes.
* `Summing.Step`: the steps of all threads.
* `sum_of_threads`: when all threads are done, the sum is what their programs add, one by one.
-/

namespace UserOS.Worker

open Lib Finset

/-- An instruction. Each thread has a register of its own, and the sum and the cells are global. -/
inductive Instr (W : Type)
  | lock
  | unlock
  | load (value : W → (ℕ → W) → W)
  | storeCell (cell : ℕ)
  | storeSum

/-- The instructions of a statement: a private cell is written, or the mutex is taken around the
addition. -/
def instructions {W : Type} [Add W] : Stmt W → List (Instr W)
  | .write cell value => [.load fun _ c => value c, .storeCell cell]
  | .add value => [.lock, .load fun s c => s + value c, .storeSum, .unlock]

/-- The threads with the mutex, the globals, the registers, and what each thread has left to do. -/
structure Summing (W : Type) where
  threads : Threaded
  sum : W
  cells : ℕ → W
  reg : ℕ → W
  rest : ℕ → List (Instr W)

/-- What happens in a step: a thread executes an instruction of its own, or something happens in the
mutex functions or the scheduler. -/
inductive Act
  | execute (id : ℕ)
  | move (e : Move)
  deriving DecidableEq, Repr

/-- The thread that runs is not in a mutex function, and `i` is its next instruction. -/
structure Next {W : Type} (f : Summing W) (id : ℕ) (i : Instr W) (is : List (Instr W)) : Prop where
  running : f.threads.mem.runningThread = some id
  idle : f.threads.pc id = .idle
  rest : f.rest id = i :: is

/-- The steps: the thread that runs executes its next instruction, which may be a call of a mutex
function, or goes on in such a function; or the scheduler switches, at any time. -/
inductive Summing.Step {W : Type} (mutex : ℕ) (f : Summing W) : Act → Summing W → Prop
  | load {id : ℕ} {value : W → (ℕ → W) → W} {is : List (Instr W)} : Next f id (.load value) is →
      Step mutex f (.execute id) { f with
        reg := Function.update f.reg id (value f.sum f.cells)
        rest := Function.update f.rest id is }
  | storeCell {id cell : ℕ} {is : List (Instr W)} : Next f id (.storeCell cell) is →
      Step mutex f (.execute id) { f with
        cells := Function.update f.cells cell (f.reg id)
        rest := Function.update f.rest id is }
  | storeSum {id : ℕ} {is : List (Instr W)} : Next f id .storeSum is →
      Step mutex f (.execute id) { f with
        sum := f.reg id
        rest := Function.update f.rest id is }
  | lock {id : ℕ} {is : List (Instr W)} {g : Threaded} : Next f id .lock is →
      Turn mutex f.threads (.call id .lockTest) g →
      Step mutex f (.move (.call id .lockTest)) { f with
        threads := g
        rest := Function.update f.rest id is }
  | unlock {id : ℕ} {is : List (Instr W)} {g : Threaded} : Next f id .unlock is →
      Turn mutex f.threads (.call id .unlockTest) g →
      Step mutex f (.move (.call id .unlockTest)) { f with
        threads := g
        rest := Function.update f.rest id is }
  | move {e : Move} {g : Threaded} : (∀ id pc, e ≠ .call id pc) → Turn mutex f.threads e g →
      Step mutex f (.move e) { f with threads := g }

/-- The mutex has just been initialised, and each thread has its program before it. -/
structure Summing.Starts {W : Type} [Add W] (mutex : ℕ) (program : ℕ → List (Stmt W))
    (f : Summing W) : Prop where
  mutex : Initialised mutex f.threads
  rest : ∀ id, f.rest id = (program id).flatMap instructions

/-- All threads are done. -/
def Summing.Done {W : Type} (f : Summing W) : Prop := ∀ id, f.rest id = []

variable {W : Type} {mutex id i : ℕ} {f g : Summing W} {e : Act} {t u : Threaded} {m : Move}

/-! ## The mutex -/

/-- What holds of the mutex functions: the words are right, and the threads that hold the mutex are
known. -/
structure Sound (mutex : ℕ) (t : Threaded) : Prop where
  exclusive : ∃ b o, Exclusive mutex t b o
  recorded : ∀ id, ∃ r, Recorded t id r

theorem Sound.turn (h : Sound mutex t) (ht : Turn mutex t m u) : Sound mutex u where
  exclusive := turn_exclusive h.exclusive ht
  recorded id := by
    obtain ⟨b, o, hx⟩ := h.exclusive
    obtain ⟨r, hr⟩ := h.recorded id
    exact ⟨_, turn_recorded hx hr ht⟩

theorem initialised_sound (h : Initialised mutex t) : Sound mutex t where
  exclusive := ⟨_, _, initialised_exclusive h⟩
  recorded id := ⟨(.idle, false), fun hpc => absurd (h.2.1 id) hpc, by
    rw [h.2.2 id, h.2.1 id]
    rfl⟩

/-- In a call of `worker_mutex_lock`, or back from it with the mutex. -/
def Locking (t : Threaded) (id : ℕ) : Prop :=
  t.pc id = .idle ∧ t.holds id = true ∨ (t.pc id).function = .lockTest

theorem Sound.unique (h : Sound mutex t) (hi : t.holds id = true) {j : ℕ}
    (hj : t.holds j = true) : id = j := by
  obtain ⟨b, o, hx⟩ := h.exclusive
  exact hx.unique id j hi hj

/-- A step in the mutex functions or the scheduler leaves alone a thread that is in neither. -/
theorem turn_idle (ht : Turn mutex t m u) (hm : ∀ id pc, m ≠ .call id pc)
    (hpc : t.pc id = .idle) : u.pc id = .idle ∧ u.holds id = t.holds id := by
  cases ht with
  | switch => exact ⟨hpc, rfl⟩
  | @yield i mem _ hi _ =>
    have hne : id ≠ i := fun heq => by rw [← heq, hpc] at hi; cases hi
    exact ⟨(Function.update_of_ne hne ..).trans hpc, rfl⟩
  | advance ha =>
    cases ha with
    | call => exact absurd rfl (hm _ _)
    | @statement i fuel mem pc ret _ hs =>
      have hne : id ≠ i := fun heq => by
        rw [← heq, hpc] at hs
        cases hs
      exact ⟨(Function.update_of_ne hne ..).trans hpc, Function.update_of_ne hne ..⟩

theorem locking_flow {pc pc' : Pc} {ret : Option ℤ} {c : Bool} (hflow : (pc', ret) ∈ pc.flow)
    (hfun : pc.function = .lockTest) (hsame : pc = .lockSame → pc' = .idle → c = true)
    (hflag : pc = .takeFlag → c = true) :
    pc' = .idle ∧ holdsAfter pc pc' c = true ∨ pc'.function = .lockTest := by
  cases pc with
  | lockTest | lockSame =>
    simp only [Pc.flow, List.mem_cons, Prod.mk.injEq, List.not_mem_nil, or_false] at hflow
    rcases hflow with ⟨rfl, rfl⟩ | ⟨rfl, rfl⟩ <;> simp_all [Pc.function, holdsAfter]
  | _ => simp_all [Pc.flow, Pc.function, holdsAfter]

/-- **The lock.** A call of `worker_mutex_lock` returns with the mutex. -/
theorem Locking.turn (hl : Locking t id) (h : Sound mutex t) (ht : Turn mutex t m u)
    (hm : ∀ id pc, m ≠ .call id pc) : Locking u id := by
  rcases hl with ⟨hpc, hholds⟩ | hfun
  · obtain ⟨hpc', hholds'⟩ := turn_idle ht hm hpc
    exact .inl ⟨hpc', hholds'.trans hholds⟩
  cases ht with
  | switch => exact .inr hfun
  | @yield i mem _ hi _ =>
    right
    by_cases hne : id = i
    · subst hne
      change ((Function.update t.pc id .lockTest) id).function = _
      rw [Function.update_self]
      rfl
    · change ((Function.update t.pc i .lockTest) id).function = _
      rwa [Function.update_of_ne hne]
  | advance ha =>
    cases ha with
    | call => exact absurd rfl (hm _ _)
    | @statement i fuel mem pc ret _ hs =>
      by_cases hne : id = i
      · subst hne
        obtain ⟨b, o, hx⟩ := h.exclusive
        obtain ⟨r, hr⟩ := h.recorded id
        change (t.next mem id pc).pc id = .idle ∧ (t.next mem id pc).holds id = true ∨
          ((t.next mem id pc).pc id).function = .lockTest
        rw [next_pc_self, next_holds_self]
        refine locking_flow (statement_flow hs) hfun (fun hpc hidle => ?_) fun hpc => ?_
        · exact hx.named (lockSame_owner (hidle ▸ hpc ▸ hs) hx.words) (by rw [hpc]; decide)
        · rw [hr.holds, hpc]
          rfl
      · change (t.next mem i pc).pc id = .idle ∧ (t.next mem i pc).holds id = true ∨
          ((t.next mem i pc).pc id).function = .lockTest
        rw [next_pc_of_ne hne]
        exact .inr hfun

theorem Summing.Step.sound (hs : Summing.Step mutex f e g) (h : Sound mutex f.threads) :
    Sound mutex g.threads := by
  cases hs with
  | load | storeCell | storeSum => exact h
  | lock _ ht | unlock _ ht | move _ ht => exact h.turn ht

theorem Summing.Step.rest_nil (hs : Summing.Step mutex f e g) (h : f.rest id = []) :
    g.rest id = [] := by
  cases hs with
  | move => exact h
  | @load i _ _ hn | @storeCell i _ _ hn | @storeSum i _ hn | @lock i _ _ hn _
  | @unlock i _ _ hn _ =>
    have hne : id ≠ i := fun heq => by
      rw [← heq] at hn
      rw [hn.rest] at h
      cases h
    exact (Function.update_of_ne hne ..).trans h

/-! ## The sum -/

variable [AddCommMonoid W] {O : ℕ → Set ℕ} {w : W}

/-- Where thread `id` stands in its program, and what it has still to add. The statements that are
left use the cells of `O`. -/
inductive At (f : Summing W) (id : ℕ) (O : Set ℕ) : W → Prop
  | start {p : List (Stmt W)} : (∀ s ∈ p, s.Uses O) → f.rest id = p.flatMap instructions →
      At f id O (added p f.cells)
  | writing {cell : ℕ} {p : List (Stmt W)} : cell ∈ O → (∀ s ∈ p, s.Uses O) →
      f.rest id = .storeCell cell :: p.flatMap instructions →
      At f id O (added p (Function.update f.cells cell (f.reg id)))
  | locking {value : (ℕ → W) → W} {p : List (Stmt W)} : (Stmt.add value).Uses O →
      (∀ s ∈ p, s.Uses O) → Locking f.threads id →
      f.rest id = .load (fun s c => s + value c) :: .storeSum :: .unlock ::
        p.flatMap instructions →
      At f id O (value f.cells + added p f.cells)
  | adding {value : (ℕ → W) → W} {p : List (Stmt W)} : (Stmt.add value).Uses O →
      (∀ s ∈ p, s.Uses O) → f.threads.pc id = .idle → f.threads.holds id = true →
      f.reg id = f.sum + value f.cells →
      f.rest id = .storeSum :: .unlock :: p.flatMap instructions →
      At f id O (value f.cells + added p f.cells)
  | leaving {p : List (Stmt W)} : (∀ s ∈ p, s.Uses O) →
      f.rest id = .unlock :: p.flatMap instructions → At f id O (added p f.cells)

/-- The first instruction of a program. -/
theorem instructions_cons {p : List (Stmt W)} {i : Instr W} {is : List (Instr W)}
    (h : i :: is = p.flatMap instructions) :
    (∃ cell value q, p = .write cell value :: q ∧ i = .load (fun _ c => value c) ∧
      is = .storeCell cell :: q.flatMap instructions) ∨
    ∃ value q, p = .add value :: q ∧ i = .lock ∧
      is = .load (fun s c => s + value c) :: .storeSum :: .unlock :: q.flatMap instructions := by
  cases p with
  | nil => cases h
  | cons s q =>
    cases s with
    | write cell value =>
      simp only [List.flatMap_cons, instructions, List.cons_append, List.nil_append,
        List.cons.injEq] at h
      exact .inl ⟨cell, value, q, rfl, h⟩
    | add value =>
      simp only [List.flatMap_cons, instructions, List.cons_append, List.nil_append,
        List.cons.injEq] at h
      exact .inr ⟨value, q, rfl, h⟩

/-- What a thread has still to add when others take a step. -/
theorem At.frame (h : At f id (O id) w) (hrest : g.rest id = f.rest id)
    (hreg : g.reg id = f.reg id) (hcells : Set.EqOn f.cells g.cells (O id))
    (hlock : Locking f.threads id → Locking g.threads id)
    (hsum : f.threads.pc id = .idle → f.threads.holds id = true →
      g.threads.pc id = .idle ∧ g.threads.holds id = true ∧ g.sum = f.sum) : At g id (O id) w := by
  cases h with
  | start hp hr =>
    rw [added_congr hp hcells]
    exact .start hp (hrest.trans hr)
  | writing hcell hp hr =>
    rw [← hreg, added_congr hp (eqOn_update hcells ..)]
    exact .writing hcell hp (hrest.trans hr)
  | locking hvalue hp hl hr =>
    rw [added_congr hp hcells, hvalue _ _ hcells]
    exact .locking hvalue hp (hlock hl) (hrest.trans hr)
  | adding hvalue hp hpc hholds hloaded hr =>
    obtain ⟨hpc', hholds', hsum'⟩ := hsum hpc hholds
    rw [added_congr hp hcells, hvalue _ _ hcells]
    refine .adding hvalue hp hpc' hholds' ?_ (hrest.trans hr)
    rw [hreg, hloaded, hsum', hvalue _ _ hcells]
  | leaving hp hr =>
    rw [added_congr hp hcells]
    exact .leaving hp (hrest.trans hr)

/-- The other threads, when a thread executes an instruction of its own. -/
theorem At.other {j : ℕ} (h : At f j (O j) w) (hj : j ≠ id) {is : List (Instr W)}
    (hthreads : g.threads = f.threads) (hrest : g.rest = Function.update f.rest id is)
    (hreg : g.reg j = f.reg j) (hcells : Set.EqOn f.cells g.cells (O j))
    (hsum : f.threads.holds j = true → g.sum = f.sum) : At g j (O j) w := by
  refine h.frame ?_ hreg hcells (fun hl => hthreads.symm ▸ hl) fun hpc hholds => ?_
  · rw [hrest, Function.update_of_ne hj]
  · rw [hthreads]
    exact ⟨hpc, hholds, hsum hholds⟩

section Step

variable {value : W → (ℕ → W) → W} {is : List (Instr W)} {cell : ℕ} {v : ℕ → W}
  (hat : ∀ j, At f j (O j) (v j))

include hat

/-- A thread evaluates an expression. -/
theorem at_load (hn : Next f id (.load value) is) (j : ℕ) :
    At { f with
      reg := Function.update f.reg id (value f.sum f.cells)
      rest := Function.update f.rest id is } j (O j) (v j) := by
  by_cases hj : j = id
  · subst hj
    have hthis := hat j
    have hrest := hn.rest
    generalize v j = x at hthis
    cases hthis with
    | start hp hr =>
      rw [hr] at hrest
      rcases instructions_cons hrest.symm with ⟨cell, value, q, rfl, hi, rfl⟩ | ⟨_, _, _, hi, -⟩
      · cases hi
        have hcell := hp _ List.mem_cons_self
        have hat : At { f with
            reg := Function.update f.reg j (value f.cells)
            rest := Function.update f.rest j (.storeCell cell :: q.flatMap instructions) } j (O j)
            (added q (Function.update f.cells cell (Function.update f.reg j (value f.cells) j))) :=
          .writing hcell.1 (fun s hs => hp s (List.mem_cons_of_mem _ hs)) (Function.update_self ..)
        rwa [Function.update_self] at hat
      · cases hi
    | locking hvalue hp hl hr =>
      rw [hr] at hrest
      cases hrest
      have hholds : f.threads.holds j = true := by
        rcases hl with hl | hl
        · exact hl.2
        · rw [hn.idle] at hl
          cases hl
      exact .adding hvalue hp hn.idle hholds (Function.update_self ..) (Function.update_self ..)
    | writing _ _ hr | adding _ _ _ _ _ hr | leaving _ hr =>
      rw [hr] at hrest
      cases hrest
  · exact (hat j).other hj rfl rfl (Function.update_of_ne hj ..) (fun _ _ => rfl) fun _ => rfl

/-- A thread writes a cell of its own. -/
theorem at_storeCell (hO : Separate O)
    (hn : Next f id (.storeCell cell) is) (j : ℕ) :
    At { f with
      cells := Function.update f.cells cell (f.reg id)
      rest := Function.update f.rest id is } j (O j) (v j) := by
  have hthis := hat id
  have hrest := hn.rest
  generalize hx : v id = x at hthis
  cases hthis with
  | writing hcell hp hr =>
    rw [hr] at hrest
    cases hrest
    by_cases hj : j = id
    · subst hj
      rw [hx]
      exact .start hp (Function.update_self ..)
    · have hnot : cell ∉ O j := hO (Ne.symm hj) hcell
      exact (hat j).other hj rfl rfl rfl (eqOn_update_of_notMem hnot _).symm fun _ => rfl
  | start hp hr =>
    rw [hr] at hrest
    rcases instructions_cons hrest.symm with ⟨_, _, _, _, hi, -⟩ | ⟨_, _, _, hi, -⟩ <;> cases hi
  | locking _ _ _ hr | adding _ _ _ _ _ hr | leaving _ hr =>
    rw [hr] at hrest
    cases hrest

/-- **The addition.** The value leaves what its thread has still to add and enters the sum. No other
thread has read the sum in between. -/
theorem at_storeSum (h : Sound mutex f.threads) (hn : Next f id .storeSum is) :
    ∃ w, (∀ j, At { f with
      sum := f.reg id
      rest := Function.update f.rest id is } j (O j) (Function.update v id w j)) ∧
      f.reg id + w = f.sum + v id := by
  have hthis := hat id
  have hrest := hn.rest
  generalize hx : v id = x at hthis
  cases hthis with
  | @adding value p hvalue hp hpc hholds hloaded hr =>
    rw [hr] at hrest
    cases hrest
    refine ⟨added p f.cells, fun j => ?_, by rw [hloaded, add_assoc]⟩
    by_cases hj : j = id
    · subst hj
      rw [Function.update_self]
      exact .leaving hp (Function.update_self ..)
    · rw [Function.update_of_ne hj]
      exact (hat j).other hj rfl rfl rfl (fun _ _ => rfl) fun hholds' =>
        absurd (h.unique hholds' hholds) hj
  | start hp hr =>
    rw [hr] at hrest
    rcases instructions_cons hrest.symm with ⟨_, _, _, _, hi, -⟩ | ⟨_, _, _, hi, -⟩ <;> cases hi
  | locking _ _ _ hr | writing _ _ hr | leaving _ hr =>
    rw [hr] at hrest
    cases hrest

/-- A thread calls a mutex function. -/
theorem at_call {i : Instr W} {pc : Pc} (hn : Next f id i is)
    (hi : i = .lock ∧ pc = .lockTest ∨ i = .unlock) (ht : Turn mutex f.threads (.call id pc) t)
    (j : ℕ) : At { f with
      threads := t
      rest := Function.update f.rest id is } j (O j) (v j) := by
  obtain rfl : t = { f.threads with pc := Function.update f.threads.pc id pc } := by
    cases ht with
    | switch he => rcases he with he | he <;> cases he
    | advance ha =>
      cases ha
      rfl
  by_cases hj : j = id
  · subst hj
    have hthis := hat j
    have hrest := hn.rest
    generalize v j = x at hthis
    cases hthis with
    | start hp hr =>
      rw [hr] at hrest
      rcases instructions_cons hrest.symm with ⟨_, _, _, _, rfl, -⟩ | ⟨value, q, rfl, rfl, rfl⟩
      · rcases hi with ⟨hi, -⟩ | hi <;> cases hi
      · obtain ⟨-, rfl⟩ := hi.resolve_right fun hi => by cases hi
        refine .locking (hp _ List.mem_cons_self) (fun s hs => hp s (List.mem_cons_of_mem _ hs))
          (.inr ?_) (Function.update_self ..)
        change (Function.update f.threads.pc j .lockTest j).function = _
        rw [Function.update_self]
        rfl
    | leaving hp hr =>
      rw [hr] at hrest
      cases hrest
      exact .start hp (Function.update_self ..)
    | locking _ _ _ hr | writing _ _ hr | adding _ _ _ _ _ hr =>
      rw [hr] at hrest
      rcases hi with ⟨rfl, -⟩ | rfl <;> cases hrest
  · have hpc : Function.update f.threads.pc id pc j = f.threads.pc j := Function.update_of_ne hj ..
    refine (hat j).frame (Function.update_of_ne hj ..) rfl (fun _ _ => rfl) (fun hl => ?_)
      fun hidle hholds => ⟨hpc.trans hidle, hholds, rfl⟩
    exact hl.imp (fun hl => ⟨hpc.trans hl.1, hl.2⟩) fun hl => (congrArg Pc.function hpc).trans hl

end Step

/-- **One step** keeps what the threads have still to add and the sum, together. -/
theorem Summing.Step.at {v : ℕ → W} (hs : Summing.Step mutex f e g) (h : Sound mutex f.threads)
    (hO : Separate O) (hat : ∀ j, At f j (O j) (v j)) :
    (∀ j, At g j (O j) (v j)) ∧ g.sum = f.sum ∨
      ∃ id w, f.rest id ≠ [] ∧ (∀ j, At g j (O j) (Function.update v id w j)) ∧
        g.sum + w = f.sum + v id := by
  cases hs with
  | load hn => exact .inl ⟨at_load hat hn, rfl⟩
  | storeCell hn => exact .inl ⟨at_storeCell hat hO hn, rfl⟩
  | lock hn ht => exact .inl ⟨at_call hat hn (.inl ⟨rfl, rfl⟩) ht, rfl⟩
  | unlock hn ht => exact .inl ⟨at_call hat hn (.inr rfl) ht, rfl⟩
  | @storeSum id _ hn =>
    obtain ⟨w, hw, heq⟩ := at_storeSum hat h hn
    exact .inr ⟨id, w, by rw [hn.rest]; simp, hw, heq⟩
  | move hm ht =>
    refine .inl ⟨fun j => (hat j).frame rfl rfl (fun _ _ => rfl)
      (fun hl => hl.turn h ht hm) fun hpc hholds => ?_, rfl⟩
    obtain ⟨hpc', hholds'⟩ := turn_idle ht hm hpc
    exact ⟨hpc', hholds'.trans hholds, rfl⟩

/-- A thread that is done has nothing to add. -/
theorem At.done {U : Set ℕ} (h : At f id U w) (hr : f.rest id = []) : w = 0 := by
  cases h with
  | @start p _ hrest =>
    cases p with
    | nil => rfl
    | cons s p =>
      rw [hr] at hrest
      cases s <;> cases hrest
  | writing _ _ hrest | locking _ _ _ hrest | adding _ _ _ _ _ hrest | leaving _ hrest =>
    rw [hr] at hrest
    cases hrest

/-- The threads below `T` have statements left, and what they have still to add makes the sum up to
`total`. -/
structure Adds (mutex : ℕ) (O : ℕ → Set ℕ) (T : ℕ) (total : W) (f : Summing W) : Prop where
  sound : Sound mutex f.threads
  nil : ∀ id, T ≤ id → f.rest id = []
  left : ∃ v : ℕ → W, (∀ j, At f j (O j) (v j)) ∧ f.sum + ∑ id ∈ range T, v id = total

theorem Adds.step {T : ℕ} {total : W} (h : Adds mutex O T total f)
    (hO : Separate O) (hs : Summing.Step mutex f e g) :
    Adds mutex O T total g where
  sound := hs.sound h.sound
  nil id hid := hs.rest_nil (h.nil id hid)
  left := by
    obtain ⟨v, hat, hsum⟩ := h.left
    rcases hs.at h.sound hO hat with ⟨hat', heq⟩ | ⟨id, w, hne, hat', heq⟩
    · exact ⟨v, hat', by rw [heq, hsum]⟩
    · have hid : id ∈ range T := mem_range.2 (by
        by_contra hle
        exact hne (h.nil id (by omega)))
      refine ⟨_, hat', ?_⟩
      rw [sum_update_of_mem hid, ← add_assoc, heq, add_assoc, ← hsum,
        sum_eq_add_sum_sdiff_singleton_of_mem hid]

/-- **No addition is lost.** `T` threads run programs that use different cells and add to the sum
under the mutex. In every run, whenever the timer switches threads, the sum is in the end what the
programs add, one after the other. -/
theorem sum_of_threads {program : ℕ → List (Stmt W)} {T : ℕ} {es : List Act}
    (hO : Separate O) (huses : ∀ id, ∀ s ∈ program id, s.Uses (O id))
    (hT : ∀ id, T ≤ id → program id = []) (hstart : f.Starts mutex program)
    (hrun : Run (Summing.Step mutex) f es g) (hdone : g.Done) :
    g.sum = f.sum + ∑ id ∈ range T, added (program id) f.cells := by
  have hnil : ∀ id, T ≤ id → f.rest id = [] := fun id hid => by
    rw [hstart.rest, hT id hid]
    rfl
  obtain ⟨-, -, v, hat, hsum⟩ := hrun.invariant
    (I := Adds mutex O T (f.sum + ∑ id ∈ range T, added (program id) f.cells))
    ⟨initialised_sound hstart.mutex, hnil, _, fun j => .start (huses j) (hstart.rest j), rfl⟩
    fun _ _ _ h hs => h.step hO hs
  rw [← hsum, sum_eq_zero fun id _ => (hat id).done (hdone id), add_zero]

/-! ## Executing -/

/-- The state after a step. -/
def Summing.act (μ : Malloc Node) (fuel mutex : ℕ) (f : Summing W) : Act → Option (Summing W)
  | .execute id =>
    if f.threads.mem.runningThread = some id ∧ f.threads.pc id = .idle then
      match f.rest id with
      | .load value :: is => some { f with
          reg := Function.update f.reg id (value f.sum f.cells)
          rest := Function.update f.rest id is }
      | .storeCell cell :: is => some { f with
          cells := Function.update f.cells cell (f.reg id)
          rest := Function.update f.rest id is }
      | .storeSum :: is => some { f with
          sum := f.reg id
          rest := Function.update f.rest id is }
      | _ => none
    else none
  | .move (.call id pc) => do
    let g ← f.threads.move μ fuel mutex (.call id pc)
    match pc, f.rest id with
    | .lockTest, .lock :: is => some { f with
        threads := g
        rest := Function.update f.rest id is }
    | .unlockTest, .unlock :: is => some { f with
        threads := g
        rest := Function.update f.rest id is }
    | _, _ => none
  | .move e => do
    let g ← f.threads.move μ fuel mutex e
    some { f with threads := g }

omit [AddCommMonoid W] in
theorem step_of_act {μ : Malloc Node} {fuel : ℕ} (h : f.act μ fuel mutex e = some g) :
    Summing.Step mutex f e g := by
  cases e with
  | execute id =>
    dsimp only [Summing.act] at h
    split_ifs at h with hid
    split at h <;> cases h
    · exact .load ⟨hid.1, hid.2, ‹_›⟩
    · exact .storeCell ⟨hid.1, hid.2, ‹_›⟩
    · exact .storeSum ⟨hid.1, hid.2, ‹_›⟩
  | move m =>
    cases m with
    | call id pc =>
      obtain ⟨t, ht, h⟩ := Option.bind_eq_some_iff.1 h
      have hturn := (preempt_of_move ht).turn
      dsimp only [Threaded.move] at ht
      split_ifs at ht with hid
      split at h <;> cases h
      · exact .lock ⟨hid.1, hid.2.1, ‹_›⟩ hturn
      · exact .unlock ⟨hid.1, hid.2.1, ‹_›⟩ hturn
    | _ =>
      obtain ⟨t, ht, h⟩ := Option.bind_eq_some_iff.1 h
      cases h
      exact .move (fun _ _ hcall => by cases hcall) (preempt_of_move ht).turn

/-- The state after some steps. -/
def Summing.perform (μ : Malloc Node) (fuel mutex : ℕ) :
    Summing W → List Act → Option (Summing W)
  | f, [] => some f
  | f, e :: es => (f.act μ fuel mutex e).bind fun g => g.perform μ fuel mutex es

omit [AddCommMonoid W] in
theorem run_of_perform {μ : Malloc Node} {fuel : ℕ} {es : List Act}
    (h : f.perform μ fuel mutex es = some g) : Run (Summing.Step mutex) f es g := by
  induction es generalizing f with
  | nil =>
    cases h
    exact .nil
  | cons e es ih =>
    obtain ⟨k, hact, hrest⟩ := Option.bind_eq_some_iff.1 h
    exact (Run.single (step_of_act hact)).append (ih hrest)

/-- The state after some steps. -/
def performed (f : Summing W) (es : List Act) : Summing W :=
  (f.perform (Malloc.bump Node) 9 0 es).getD f

omit [AddCommMonoid W] in
theorem run_performed (f : Summing W) (es : List Act)
    (h : f.perform (Malloc.bump Node) 9 0 es = some (performed f es)) :
    Run (Summing.Step 0) f es (performed f es) :=
  run_of_perform h

/-- The state in which the mutex has been initialised and the programs start. -/
def Summing.begin (program : ℕ → List (Stmt W)) : Summing W :=
  ⟨.start 0, 0, fun _ => 0, fun _ => 0, fun id => (program id).flatMap instructions⟩

theorem begin_starts {program : ℕ → List (Stmt W)} :
    (Summing.begin program).Starts 0 program :=
  ⟨initialised_start, fun _ => rfl⟩

/-- `n` statements that go on, and one that returns 0. -/
def statements (id n : ℕ) : List Act :=
  List.replicate n (.move (.statement id none)) ++ [.move (.statement id (some 0))]

/-- A thread takes the mutex, which is free. -/
def takes (id : ℕ) : List Act := .move (.call id .lockTest) :: statements id 5

/-- A thread gives the mutex up. No other thread waits for it. -/
def gives (id : ℕ) : List Act := .move (.call id .unlockTest) :: statements id 4

/-- The addition of thread 1 is interrupted by thread 2, which has to wait. -/
def contended : List Act :=
  takes 1 ++ [.execute 1, .move .switch, .move (.call 2 .lockTest)] ++
    List.replicate 8 (.move (.statement 2 none)) ++ [.move (.yield 2), .move .switch, .execute 1] ++
    .move (.call 1 .unlockTest) :: statements 1 6 ++ [.move .switch, .move .switch] ++
    statements 2 5 ++ [.execute 2, .execute 2] ++ gives 2

end UserOS.Worker
