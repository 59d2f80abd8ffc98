import Mathlib.Data.Finset.Card
import Mathlib.Data.Nat.Bitwise
import Mathlib.Tactic.IntervalCases
import UserOS.Lib.Bytes

/-!
# Bitmaps and linear search

A bitmap keeps the bit of index `i` in byte `i / 8`; the order of the bits inside a byte is a
parameter `pos`, which gives the place of the bit `i % 8`.

* `bit_or`, `bit_and`: the effect of setting and of clearing one bit on all bits.
* `countBits_set`, `countBits_clear`: the number of bits that are set.
* `firstFrom`: the loop that looks for the first index with a property.
-/

namespace UserOS.Lib

/-! ## Bits of a byte array -/

/-- The bit of index `i`. -/
def bit (pos : ℕ → ℕ) (b : Bytes) (i : ℕ) : Bool := (b (i / 8)).toNat.testBit (pos (i % 8))

/-- `pos` places the eight bits of a byte at eight different places. -/
structure BitOrder (pos : ℕ → ℕ) : Prop where
  lt : ∀ x < 8, pos x < 8
  inj : ∀ x < 8, ∀ y < 8, pos x = pos y → x = y

variable {pos : ℕ → ℕ} {b : Bytes} {i j : ℕ} {m : UInt8}

/-- Or-ing the mask of bit `i` into its byte sets that bit and no other. -/
theorem bit_or (hp : BitOrder pos) (hm : ∀ k < 8, m.toNat.testBit k = decide (k = pos (i % 8))) :
    bit pos (Function.update b (i / 8) (b (i / 8) ||| m)) j =
      (decide (j = i) || bit pos b j) := by
  have hj := Nat.mod_lt j (by decide : 0 < 8)
  have hi := Nat.mod_lt i (by decide : 0 < 8)
  unfold bit
  by_cases hb : j / 8 = i / 8
  · rw [hb, Function.update_self, UInt8.toNat_or, Nat.testBit_or, hm _ (hp.lt _ hj), Bool.or_comm]
    congr 1
    by_cases hji : j = i
    · simp [hji]
    · have : pos (j % 8) ≠ pos (i % 8) := fun h => hji (by have := hp.inj _ hj _ hi h; omega)
      simp [hji, this]
  · have hji : j ≠ i := fun h => hb (by rw [h])
    rw [Function.update_of_ne hb]
    simp [hji]

/-- And-ing its byte with the complement of the mask of bit `i` clears that bit and no other. -/
theorem bit_and (hp : BitOrder pos)
    (hm : ∀ k < 8, m.toNat.testBit k = !decide (k = pos (i % 8))) :
    bit pos (Function.update b (i / 8) (b (i / 8) &&& m)) j =
      (!decide (j = i) && bit pos b j) := by
  have hj := Nat.mod_lt j (by decide : 0 < 8)
  have hi := Nat.mod_lt i (by decide : 0 < 8)
  unfold bit
  by_cases hb : j / 8 = i / 8
  · rw [hb, Function.update_self, UInt8.toNat_and, Nat.testBit_and, hm _ (hp.lt _ hj),
      Bool.and_comm]
    congr 2
    by_cases hji : j = i
    · simp [hji]
    · have : pos (j % 8) ≠ pos (i % 8) := fun h => hji (by have := hp.inj _ hj _ hi h; omega)
      simp [hji, this]
  · have hji : j ≠ i := fun h => hb (by rw [h])
    rw [Function.update_of_ne hb]
    simp [hji]

/-! ## Counting bits -/

/-- The number of the first `n` bits that are set. -/
def countBits (f : ℕ → Bool) (n : ℕ) : ℕ := ((Finset.range n).filter fun i => f i = true).card

theorem countBits_le (f : ℕ → Bool) (n : ℕ) : countBits f n ≤ n :=
  (Finset.card_filter_le _ _).trans_eq (Finset.card_range n)

/-- A bit that was clear is set. -/
theorem countBits_set {f : ℕ → Bool} {n : ℕ} (hi : i < n) (h : f i = false) :
    countBits (Function.update f i true) n = countBits f n + 1 := by
  have hinsert : (Finset.range n).filter (fun j => Function.update f i true j = true) =
      insert i ((Finset.range n).filter fun j => f j = true) := by
    ext j
    rw [Finset.mem_insert, Finset.mem_filter, Finset.mem_filter, Finset.mem_range]
    by_cases hj : j = i
    · simp [hj, hi]
    · simp [hj]
  unfold countBits
  rw [hinsert, Finset.card_insert_of_notMem]
  simp [h]

/-- A bit that was set is cleared. -/
theorem countBits_clear {f : ℕ → Bool} {n : ℕ} (hi : i < n) (h : f i = true) :
    countBits f n = countBits (Function.update f i false) n + 1 := by
  have hset := countBits_set (f := Function.update f i false) hi (Function.update_self ..)
  rwa [Function.update_idem, ← h, Function.update_eq_self] at hset

/-! ## Linear search -/

/-- The first of the `n` indices from `i` on that has the property `p`. -/
def firstFrom (p : ℕ → Bool) : ℕ → ℕ → Option ℕ
  | 0, _ => none
  | n + 1, i => if p i then some i else firstFrom p n (i + 1)

variable {p q : ℕ → Bool} {n k : ℕ}

theorem firstFrom_eq_some : firstFrom p n i = some k ↔
    i ≤ k ∧ k < i + n ∧ p k = true ∧ ∀ j, i ≤ j → j < k → p j = false := by
  induction n generalizing i with
  | zero => simp [firstFrom]; omega
  | succ n ih =>
    rw [firstFrom]
    split_ifs with hi
    · constructor
      · rintro h
        cases h
        exact ⟨le_rfl, by omega, hi, fun j h1 h2 => absurd h1 (by omega)⟩
      · rintro ⟨h1, -, -, h2⟩
        by_cases hik : i = k
        · rw [hik]
        · exact absurd (h2 i le_rfl (by omega)) (by simp [hi])
    · rw [ih]
      constructor
      · rintro ⟨h1, h2, h3, h4⟩
        refine ⟨by omega, by omega, h3, fun j hj hjk => ?_⟩
        by_cases hij : j = i
        · subst hij; simpa using hi
        · exact h4 j (by omega) hjk
      · rintro ⟨h1, h2, h3, h4⟩
        have hik : i ≠ k := fun h => hi (h ▸ h3)
        exact ⟨by omega, by omega, h3, fun j hj => h4 j (by omega)⟩

theorem firstFrom_eq_none : firstFrom p n i = none ↔ ∀ j, i ≤ j → j < i + n → p j = false := by
  induction n generalizing i with
  | zero => simp [firstFrom]; omega
  | succ n ih =>
    rw [firstFrom]
    split_ifs with hi
    · simp only [false_iff, not_forall]
      exact ⟨i, le_rfl, by omega, by simp [hi]⟩
    · rw [ih]
      constructor
      · intro h j hj hj'
        by_cases hij : j = i
        · subst hij; simpa using hi
        · exact h j (by omega) (by omega)
      · intro h j hj hj'
        exact h j (by omega) (by omega)

end UserOS.Lib
