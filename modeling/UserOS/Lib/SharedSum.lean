import Mathlib.Algebra.BigOperators.Group.List.Basic
import Mathlib.Data.List.Nodup
import Mathlib.Data.Set.Function

/-!
# Programs that add to a shared sum

The threads of a program write cells of their own and add values to one sum. A thread's program is
a list of such statements, and what it adds is a function of its own cells.

* `added`: what a program adds to the sum.
* `added_congr`: it depends on the cells that the program uses and on no others.
* `foldl_run`: executed alone, it adds that.
* `added_flatMap`: programs on different cells add up.
-/

namespace UserOS.Lib

/-- A statement: a cell gets a value, or a value is added to the sum. Values depend on the cells. -/
inductive Stmt (W : Type*)
  | write (cell : ℕ) (value : (ℕ → W) → W)
  | add (value : (ℕ → W) → W)

variable {W : Type*}

/-- A statement uses no cells but those in `O`. -/
def Stmt.Uses (O : Set ℕ) : Stmt W → Prop
  | .write cell value => cell ∈ O ∧ ∀ c c', Set.EqOn c c' O → value c = value c'
  | .add value => ∀ c c', Set.EqOn c c' O → value c = value c'

/-- The cells after a program. -/
def cellsAfter : List (Stmt W) → (ℕ → W) → ℕ → W
  | [], c => c
  | .write cell value :: p, c => cellsAfter p (Function.update c cell (value c))
  | .add _ :: p, c => cellsAfter p c

/-- What a program adds to the sum. -/
def added [AddCommMonoid W] : List (Stmt W) → (ℕ → W) → W
  | [], _ => 0
  | .write cell value :: p, c => added p (Function.update c cell (value c))
  | .add value :: p, c => value c + added p c

/-- No cell is used by two programs. -/
def Separate (U : ℕ → Set ℕ) : Prop := ∀ ⦃i j⦄, i ≠ j → ∀ ⦃x⦄, x ∈ U i → x ∉ U j

variable {O O' : Set ℕ} {p q : List (Stmt W)} {c c' : ℕ → W} {j : ℕ} {s : Stmt W}

theorem Stmt.Uses.mono (h : s.Uses O) (hO : O ⊆ O') : s.Uses O' := by
  cases s with
  | write cell value => exact ⟨hO h.1, fun c c' heq => h.2 c c' (heq.mono hO)⟩
  | add value => exact fun c c' heq => h c c' (heq.mono hO)

theorem eqOn_update (h : Set.EqOn c c' O) (j : ℕ) (v : W) :
    Set.EqOn (Function.update c j v) (Function.update c' j v) O := by
  intro i hi
  by_cases hij : i = j
  · subst hij
    rw [Function.update_self, Function.update_self]
  · rw [Function.update_of_ne hij, Function.update_of_ne hij, h hi]

theorem eqOn_update_of_notMem (hj : j ∉ O) (v : W) : Set.EqOn (Function.update c j v) c O :=
  fun i hi => Function.update_of_ne (fun heq : i = j => hj (heq ▸ hi)) ..

theorem cellsAfter_append : cellsAfter (p ++ q) c = cellsAfter q (cellsAfter p c) := by
  induction p generalizing c with
  | nil => rfl
  | cons s p ih => cases s <;> exact ih

/-- A program leaves the cells alone that it does not use. -/
theorem cellsAfter_of_notMem (hp : ∀ s ∈ p, Stmt.Uses O s) (hj : j ∉ O) :
    cellsAfter p c j = c j := by
  induction p generalizing c with
  | nil => rfl
  | cons s p ih =>
    have hrest : ∀ s ∈ p, Stmt.Uses O s := fun s hs => hp s (List.mem_cons_of_mem _ hs)
    cases s with
    | write cell value =>
      have hne : j ≠ cell := fun heq => hj (heq ▸ (hp _ List.mem_cons_self).1)
      exact (ih hrest).trans (Function.update_of_ne hne ..)
    | add value => exact ih hrest

variable [AddCommMonoid W]

/-- What a program adds depends on the cells that it uses. -/
theorem added_congr (hp : ∀ s ∈ p, Stmt.Uses O s) (h : Set.EqOn c c' O) :
    added p c = added p c' := by
  induction p generalizing c c' with
  | nil => rfl
  | cons s p ih =>
    have hrest : ∀ s ∈ p, Stmt.Uses O s := fun s hs => hp s (List.mem_cons_of_mem _ hs)
    cases s with
    | write cell value =>
      have hvalue : value c = value c' := (hp _ List.mem_cons_self).2 c c' h
      rw [added, added, hvalue]
      exact ih hrest (eqOn_update h ..)
    | add value =>
      have hvalue : value c = value c' := hp (.add value) List.mem_cons_self c c' h
      rw [added, added, hvalue, ih hrest h]

theorem added_append : added (p ++ q) c = added p c + added q (cellsAfter p c) := by
  induction p generalizing c with
  | nil => exact (zero_add _).symm
  | cons s p ih =>
    cases s with
    | write cell value => exact ih
    | add value =>
      rw [List.cons_append, added, added, ih, add_assoc]
      rfl

/-- Writes add nothing. -/
theorem added_of_writes (hp : ∀ s ∈ p, ∃ cell value, s = .write cell value) : added p c = 0 := by
  induction p generalizing c with
  | nil => rfl
  | cons s p ih =>
    obtain ⟨cell, value, rfl⟩ := hp s List.mem_cons_self
    exact ih fun s hs => hp s (List.mem_cons_of_mem _ hs)

theorem added_map_add {value : ℕ → (ℕ → W) → W} {l : List ℕ} :
    added (l.map fun i => .add (value i)) c = (l.map fun i => value i c).sum := by
  induction l with
  | nil => rfl
  | cons i l ih => rw [List.map_cons, added, ih, List.map_cons, List.sum_cons]

/-- A statement, executed with no other thread around. -/
def Stmt.run : (ℕ → W) × W → Stmt W → (ℕ → W) × W
  | (c, sum), .write cell value => (Function.update c cell (value c), sum)
  | (c, sum), .add value => (c, sum + value c)

/-- A program without other threads. -/
theorem foldl_run {sum : W} : p.foldl Stmt.run (c, sum) = (cellsAfter p c, sum + added p c) := by
  induction p generalizing c sum with
  | nil => exact congrArg _ (add_zero sum).symm
  | cons s p ih =>
    cases s with
    | write cell value => exact ih
    | add value =>
      rw [List.foldl_cons, Stmt.run, ih, cellsAfter, added, add_assoc]

/-- **Programs on different cells add up.** -/
theorem added_flatMap {P : ℕ → List (Stmt W)} {U : ℕ → Set ℕ} (hP : ∀ k, ∀ s ∈ P k, s.Uses (U k))
    (hU : Separate U) {l : List ℕ} (hl : l.Nodup) :
    added (l.flatMap P) c = (l.map fun k => added (P k) c).sum := by
  induction l generalizing c with
  | nil => rfl
  | cons k l ih =>
    obtain ⟨hk, hl⟩ := List.nodup_cons.1 hl
    rw [List.flatMap_cons, added_append, ih hl, List.map_cons, List.sum_cons]
    congr 2
    refine List.map_congr_left fun k' hk' => added_congr (hP k') fun i hi => ?_
    have hne : k ≠ k' := fun heq => hk (heq ▸ hk')
    exact cellsAfter_of_notMem (hP k) (hU hne.symm hi)

end UserOS.Lib
