import Mathlib.Data.List.Induction
import Mathlib.Data.Nat.Notation
import UserOS.Lib.Run

/-!
# Heaps

A heap says what is stored at each address that is allocated. Blocks are allocated, written, read
and freed; a new block holds the value `z` everywhere.

* `Heap.Step`: what the four actions do.
* `Heap.ofBlocks`: the heap that some blocks of a memory make up.
* `content`: what a history of actions leaves at an address.
* `Heap.eq_content`: a run leaves just that.
* `Heap.get_last`: a `get` reads what was put last, and `z` where nothing was put.
-/

namespace UserOS.Lib

variable {β : Type*}

/-- What is stored at each address. -/
abbrev Heap (β : Type*) := ℕ → Option β

/-- An action on the addresses from `a` on, `n` of them. `get` has read the values `f`. -/
inductive HeapOp (β : Type*)
  | alloc (a n : ℕ)
  | free (a n : ℕ)
  | put (a n : ℕ) (f : ℕ → β)
  | get (a n : ℕ) (f : ℕ → β)

/-- The address `x` is one of `n` from `a` on. -/
def Within (a n x : ℕ) : Prop := a ≤ x ∧ x < a + n

instance {a n x : ℕ} : Decidable (Within a n x) := inferInstanceAs (Decidable (_ ∧ _))

namespace Heap

/-- Nothing is allocated. -/
def empty : Heap β := fun _ => none

/-- The addresses from `a` on, `n` of them, get what `f` says. -/
def write (h : Heap β) (a n : ℕ) (f : ℕ → Option β) : Heap β :=
  fun x => if Within a n x then f (x - a) else h x

variable {h h' : Heap β} {a n x : ℕ} {f : ℕ → Option β}

theorem write_inside (hx : Within a n x) : h.write a n f x = f (x - a) := if_pos hx

theorem write_outside (hx : ¬Within a n x) : h.write a n f x = h x := if_neg hx

/-- **One action.** What is allocated was free, and what is freed, written or read was allocated. -/
inductive Step (z : β) (h : Heap β) : HeapOp β → Heap β → Prop
  | alloc {a n : ℕ} : (∀ x, Within a n x → h x = none) →
    Step z h (.alloc a n) (h.write a n fun _ => some z)
  | free {a n : ℕ} : (∀ x, Within a n x → h x ≠ none) →
    Step z h (.free a n) (h.write a n fun _ => none)
  | put {a n : ℕ} {f : ℕ → β} : (∀ x, Within a n x → h x ≠ none) →
    Step z h (.put a n f) (h.write a n fun j => some (f j))
  | get {a n : ℕ} {f : ℕ → β} : (∀ j < n, h (a + j) = some (f j)) → Step z h (.get a n f) h

end Heap

/-! ## Blocks of a memory -/

namespace Heap

/-- The heap that the blocks make up, where `read` says what the memory holds. -/
def ofBlocks (blocks : List (ℕ × ℕ)) (read : ℕ → β) : Heap β := fun x =>
  if ∃ r ∈ blocks, Within r.1 r.2 x then some (read x) else none

variable {l l' : List (ℕ × ℕ)} {read read' f : ℕ → β} {z : β} {r : ℕ × ℕ} {a n x : ℕ}

theorem ofBlocks_of_mem (hr : r ∈ l) (hx : Within r.1 r.2 x) : ofBlocks l read x = some (read x) :=
  if_pos ⟨r, hr, hx⟩

theorem ofBlocks_of_not (h : ∀ r ∈ l, ¬Within r.1 r.2 x) : ofBlocks l read x = none :=
  if_neg fun ⟨r, hr, hx⟩ => h r hr hx

@[simp] theorem ofBlocks_nil : ofBlocks [] read = empty :=
  funext fun _ => ofBlocks_of_not fun _ hr => absurd hr List.not_mem_nil

/-- The heaps agree at an address of blocks that stay, when the memory does. -/
theorem ofBlocks_congr (hlive : ∀ r, Within r.1 r.2 x → (r ∈ l' ↔ r ∈ l))
    (hread : ∀ r ∈ l, Within r.1 r.2 x → read' x = read x) :
    ofBlocks l' read' x = ofBlocks l read x := by
  by_cases hin : ∃ r ∈ l, Within r.1 r.2 x
  · obtain ⟨r, hr, hx⟩ := hin
    rw [ofBlocks_of_mem hr hx, ofBlocks_of_mem ((hlive r hx).2 hr) hx, hread r hr hx]
  · have hno : ∀ r ∈ l, ¬Within r.1 r.2 x := fun r hr hx => hin ⟨r, hr, hx⟩
    rw [ofBlocks_of_not hno, ofBlocks_of_not fun r hr hx => hno r ((hlive r hx).1 hr) hx]

/-- **A new block** apart from the others, which holds `z`. -/
theorem Step.ofBlocks_alloc (hlive : ∀ r, r ∈ l' ↔ r ∈ l ∨ r = (a, n))
    (hapart : ∀ r ∈ l, ∀ x, Within a n x → ¬Within r.1 r.2 x)
    (hnew : ∀ x, Within a n x → read' x = z)
    (hkept : ∀ r ∈ l, ∀ x, Within r.1 r.2 x → read' x = read x) :
    Step z (ofBlocks l read) (.alloc a n) (ofBlocks l' read') := by
  have hheap : ofBlocks l' read' = (ofBlocks l read).write a n fun _ => some z := by
    funext x
    by_cases hx : Within a n x
    · rw [write_inside hx, ofBlocks_of_mem ((hlive (a, n)).2 (.inr rfl)) hx, hnew x hx]
    · rw [write_outside hx]
      refine ofBlocks_congr (fun r hxr => (hlive r).trans (or_iff_left ?_)) fun r hr =>
        hkept r hr x
      rintro rfl
      exact hx hxr
  rw [hheap]
  exact .alloc fun x hx => ofBlocks_of_not fun r hr => hapart r hr x hx

/-- **A block goes** that is apart from those left. -/
theorem Step.ofBlocks_free (hmem : (a, n) ∈ l) (hlive : ∀ r, r ≠ (a, n) → (r ∈ l' ↔ r ∈ l))
    (hapart : ∀ r ∈ l', ∀ x, Within a n x → ¬Within r.1 r.2 x)
    (hkept : ∀ r ∈ l', ∀ x, Within r.1 r.2 x → read' x = read x) :
    Step z (ofBlocks l read) (.free a n) (ofBlocks l' read') := by
  have hheap : ofBlocks l' read' = (ofBlocks l read).write a n fun _ => none := by
    funext x
    by_cases hx : Within a n x
    · rw [write_inside hx]
      exact ofBlocks_of_not fun r hr => hapart r hr x hx
    · have hne : ∀ r, Within r.1 r.2 x → r ≠ (a, n) := by
        rintro r hxr rfl
        exact hx hxr
      rw [write_outside hx]
      exact ofBlocks_congr (fun r hxr => hlive r (hne r hxr)) fun r hr hxr =>
        hkept r ((hlive r (hne r hxr)).2 hr) x hxr
  rw [hheap]
  refine .free fun x hx => ?_
  rw [ofBlocks_of_mem hmem hx]
  exact Option.some_ne_none _

/-- **A part of a block is written.** -/
theorem Step.ofBlocks_put (hr : r ∈ l) (hin : ∀ x, Within a n x → Within r.1 r.2 x)
    (hread : ∀ r ∈ l, ∀ x, Within r.1 r.2 x →
      read' x = if Within a n x then f (x - a) else read x) :
    Step z (ofBlocks l read) (.put a n f) (ofBlocks l read') := by
  have hheap : ofBlocks l read' = (ofBlocks l read).write a n fun j => some (f j) := by
    funext x
    by_cases hx : Within a n x
    · rw [write_inside hx, ofBlocks_of_mem hr (hin x hx), hread r hr x (hin x hx), if_pos hx]
    · rw [write_outside hx]
      refine ofBlocks_congr (fun _ _ => .rfl) fun r hr hxr => ?_
      rw [hread r hr x hxr, if_neg hx]
  rw [hheap]
  refine .put fun x hx => ?_
  rw [ofBlocks_of_mem hr (hin x hx)]
  exact Option.some_ne_none _

/-- **A part of a block is read**, and the memory stays. -/
theorem Step.ofBlocks_get (hr : r ∈ l) (hin : ∀ x, Within a n x → Within r.1 r.2 x)
    (hf : ∀ j < n, f j = read (a + j))
    (hkept : ∀ r ∈ l, ∀ x, Within r.1 r.2 x → read' x = read x) :
    Step z (ofBlocks l read) (.get a n f) (ofBlocks l read') := by
  have hheap : ofBlocks l read' = ofBlocks l read := funext fun x =>
    ofBlocks_congr (fun _ _ => .rfl) fun r hr => hkept r hr x
  rw [hheap]
  refine .get fun j hj => ?_
  rw [ofBlocks_of_mem hr (hin (a + j) ⟨by omega, by omega⟩), hf j hj]

end Heap

/-! ## Histories -/

/-- What an action leaves at address `x`, where `o` was before. -/
def HeapOp.after (z : β) (x : ℕ) (o : Option β) : HeapOp β → Option β
  | alloc a n => if Within a n x then some z else o
  | free a n => if Within a n x then none else o
  | put a n f => if Within a n x then some (f (x - a)) else o
  | get _ _ _ => o

/-- What some actions leave at address `x`, when nothing was allocated before: what was put there
last since it was allocated, and `z` when nothing was put there. -/
def content (z : β) (ops : List (HeapOp β)) (x : ℕ) : Option β :=
  ops.foldl (HeapOp.after z x) none

/-- The action neither writes, frees nor allocates an address of the range. -/
def HeapOp.Spares (b m : ℕ) : HeapOp β → Prop
  | alloc a n | free a n | put a n _ => ∀ x, Within b m x → ¬Within a n x
  | get _ _ _ => True

variable {z : β} {h h' : Heap β} {ops ops' : List (HeapOp β)} {op : HeapOp β} {b m x : ℕ}

theorem Heap.Step.after (hs : Heap.Step z h op h') : h' x = op.after z x (h x) := by
  cases hs <;> rfl

theorem content_append : content z (ops ++ ops') x =
    ops'.foldl (HeapOp.after z x) (content z ops x) := List.foldl_append ..

/-- **A run leaves what its history says.** -/
theorem Heap.eq_content (hrun : Run (Heap.Step z) Heap.empty ops h) (x : ℕ) :
    h x = content z ops x := by
  induction hrun with
  | nil => rfl
  | snoc _ hstep ih =>
    rw [content_append, ← ih]
    exact hstep.after

theorem HeapOp.after_of_spares {o : Option β} (hs : op.Spares b m) (hx : Within b m x) :
    op.after z x o = o := by
  cases op with
  | get => rfl
  | _ => exact if_neg (hs x hx)

/-- **Actions elsewhere** leave it alone. -/
theorem content_append_of_spares (hs : ∀ op ∈ ops', HeapOp.Spares b m op) (hx : Within b m x) :
    content z (ops ++ ops') x = content z ops x := by
  rw [content_append]
  induction ops' using List.reverseRecOn with
  | nil => rfl
  | append_singleton ops' op ih =>
    have hlast : op.after z x (ops'.foldl (HeapOp.after z x) (content z ops x)) =
        ops'.foldl (HeapOp.after z x) (content z ops x) :=
      HeapOp.after_of_spares (hs op (by simp)) hx
    rw [List.foldl_append]
    exact hlast.trans (ih fun op hop => hs op (by simp [hop]))

/-- What an action has left at an address, after actions elsewhere. -/
theorem Heap.eq_after {ops₁ ops₂ : List (HeapOp β)}
    (hrun : Run (Heap.Step z) Heap.empty (ops₁ ++ op :: ops₂) h)
    (hs : ∀ op ∈ ops₂, HeapOp.Spares b m op) (hx : Within b m x) :
    h x = op.after z x (content z ops₁ x) := by
  rw [Heap.eq_content hrun, List.append_cons, content_append_of_spares hs hx, content_append]
  rfl

/-- What a `get` has read was there. -/
theorem Heap.Step.read {a n : ℕ} {f : ℕ → β} (hs : Heap.Step z h (.get a n f) h') :
    ∀ j < n, h (a + j) = some (f j) := by
  cases hs with
  | get hread => exact hread

/-- **A `get` reads what was put last**, when only other addresses were put, freed and allocated
since, and `z` when nothing was put since the addresses were allocated. -/
theorem Heap.get_last {a n : ℕ} {f : ℕ → β} (hrun : Run (Heap.Step z) Heap.empty ops h)
    (hget : Heap.Step z h (.get a n f) h') (h1 : b ≤ a) (h2 : a + n ≤ b + m) :
    (∀ ops₁ g ops₂, ops = ops₁ ++ .put b m g :: ops₂ → (∀ op ∈ ops₂, op.Spares b m) →
      ∀ j < n, f j = g (a - b + j)) ∧
    ∀ ops₁ ops₂, ops = ops₁ ++ .alloc b m :: ops₂ → (∀ op ∈ ops₂, op.Spares b m) →
      ∀ j < n, f j = z := by
  have hin : ∀ {j}, j < n → Within b m (a + j) := fun hj => ⟨by omega, by omega⟩
  refine ⟨fun ops₁ g ops₂ heq hspares j hj => ?_, fun ops₁ ops₂ heq hspares j hj => ?_⟩
  all_goals
    subst heq
    have hlast := (hget.read j hj).symm.trans (Heap.eq_after hrun hspares (hin hj))
    rw [HeapOp.after, if_pos (hin hj)] at hlast
  · rw [Option.some.inj hlast, show a + j - b = a - b + j by omega]
  · exact Option.some.inj hlast

end UserOS.Lib
