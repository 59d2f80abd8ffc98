import Mathlib.Tactic.Ring
import Mathlib.Logic.Function.Basic

/-!
# Byte buffers and little-endian words

A buffer is a function from offsets to bytes; a C object of `n` bytes is its first `n` values.
Words of `n` bytes are read and stored at an offset, least significant byte first.

* `getNat_setNat_self`, `getNat_setNat_of_disjoint`: a word read back after a store.
* `getInt_setInt_self`: the same for 32-bit two's complement words.
* `copy`, `fill`, `slice`: the effect of `memcpy` and `memset`.
-/

namespace UserOS.Lib

/-- A byte buffer. -/
abbrev Bytes := ℕ → UInt8

namespace Bytes

variable {b b' : Bytes} {off off' n n' v k : ℕ}

/-! ## Words -/

/-- The `n`-byte little-endian word at `off`. -/
def getNat (b : Bytes) (off : ℕ) : ℕ → ℕ
  | 0 => 0
  | n + 1 => (b off).toNat + 256 * getNat b (off + 1) n

/-- Store the low `n` bytes of `v` at `off`. -/
def setNat (b : Bytes) (off n v : ℕ) : Bytes := fun k =>
  if off ≤ k ∧ k < off + n then UInt8.ofNat (v / 256 ^ (k - off)) else b k

theorem getNat_congr (h : ∀ k < n, b (off + k) = b' (off' + k)) :
    b.getNat off n = b'.getNat off' n := by
  induction n generalizing off off' with
  | zero => rfl
  | succ n ih =>
    have h0 := h 0 (Nat.succ_pos n)
    have ih' : b.getNat (off + 1) n = b'.getNat (off' + 1) n := ih fun k hk => by
      have := h (k + 1) (by omega)
      rwa [show off + (k + 1) = off + 1 + k by omega,
        show off' + (k + 1) = off' + 1 + k by omega] at this
    simp only [Nat.add_zero] at h0
    simp only [getNat, h0, ih']

theorem getNat_lt (b : Bytes) (off n : ℕ) : b.getNat off n < 256 ^ n := by
  induction n generalizing off with
  | zero => simp [getNat]
  | succ n ih =>
    have h := ih (off + 1)
    have hb := (b off).toNat_lt
    simp only [getNat, Nat.pow_succ]
    omega

theorem setNat_of_outside (h : k < off ∨ off + n ≤ k) : b.setNat off n v k = b k := by
  unfold setNat
  rw [if_neg (by omega)]

theorem setNat_of_inside (h : k < n) :
    b.setNat off n v (off + k) = UInt8.ofNat (v / 256 ^ k) := by
  unfold setNat
  rw [if_pos (by omega), Nat.add_sub_cancel_left]

/-- Storing 0 stores zero bytes. -/
theorem setNat_zero (h : off ≤ k) (h' : k < off + n) : b.setNat off n 0 k = 0 := by
  unfold setNat
  rw [if_pos ⟨h, h'⟩]
  simp

theorem getNat_setNat_of_disjoint (h : off' + n' ≤ off ∨ off + n ≤ off') :
    (b.setNat off n v).getNat off' n' = b.getNat off' n' :=
  getNat_congr fun k hk => setNat_of_outside (by omega)

/-- The word at `off` of a buffer that holds the base-256 digits of `v` there. -/
theorem getNat_of_digits (h : ∀ k < n, b (off + k) = UInt8.ofNat (v / 256 ^ k)) :
    b.getNat off n = v % 256 ^ n := by
  induction n generalizing off v with
  | zero => simp [getNat, Nat.mod_one]
  | succ n ih =>
    have h0 := h 0 (Nat.succ_pos n)
    have ih' : b.getNat (off + 1) n = v / 256 % 256 ^ n := ih fun k hk => by
      have := h (k + 1) (by omega)
      rw [show off + (k + 1) = off + 1 + k by omega] at this
      rw [this, Nat.div_div_eq_div_mul, Nat.pow_succ, Nat.mul_comm (256 ^ k)]
    simp only [Nat.add_zero, Nat.pow_zero, Nat.div_one] at h0
    have hpow : 256 ^ (n + 1) = 256 * 256 ^ n := Nat.pow_succ'
    rw [getNat, h0, ih', UInt8.toNat_ofNat', hpow, Nat.mod_mul]

@[simp] theorem getNat_setNat_self (b : Bytes) (off n v : ℕ) :
    (b.setNat off n v).getNat off n = v % 256 ^ n :=
  getNat_of_digits fun k hk => by
    unfold setNat
    rw [if_pos (by omega), Nat.add_sub_cancel_left]

/-- A 32-bit two's complement word. -/
def toInt32 (v : ℕ) : ℤ := if v < 2 ^ 31 then v else (v : ℤ) - 2 ^ 32

/-- The `int` at `off`. -/
def getInt (b : Bytes) (off : ℕ) : ℤ := toInt32 (b.getNat off 4)

/-- Store the `int` `v` at `off`. -/
def setInt (b : Bytes) (off : ℕ) (v : ℤ) : Bytes := b.setNat off 4 (v % 2 ^ 32).toNat

theorem toInt32_mod {v : ℤ} (h : -2 ^ 31 ≤ v) (h' : v < 2 ^ 31) :
    toInt32 (v % 2 ^ 32).toNat = v := by
  unfold toInt32
  split_ifs <;> omega

theorem getInt_congr (h : ∀ k < 4, b (off + k) = b' (off' + k)) :
    b.getInt off = b'.getInt off' := by
  unfold getInt
  rw [getNat_congr h]

theorem getInt_setInt_self {v : ℤ} (h : -2 ^ 31 ≤ v) (h' : v < 2 ^ 31) :
    (b.setInt off v).getInt off = v := by
  unfold getInt setInt
  rw [getNat_setNat_self, Nat.mod_eq_of_lt (by omega), toInt32_mod h h']

theorem getInt_setInt_of_disjoint {v : ℤ} (h : off' + 4 ≤ off ∨ off + 4 ≤ off') :
    (b.setInt off v).getInt off' = b.getInt off' := by
  unfold getInt setInt
  rw [getNat_setNat_of_disjoint h]

theorem getNat_setInt_of_disjoint {v : ℤ} (h : off' + n' ≤ off ∨ off + 4 ≤ off') :
    (b.setInt off v).getNat off' n' = b.getNat off' n' :=
  getNat_setNat_of_disjoint h

/-! ## Ranges -/

/-- `memcpy(b + off, src + soff, n)`. -/
def copy (b : Bytes) (off : ℕ) (src : Bytes) (soff n : ℕ) : Bytes := fun k =>
  if off ≤ k ∧ k < off + n then src (soff + (k - off)) else b k

/-- `memset(b + off, v, n)`. -/
def fill (b : Bytes) (off n : ℕ) (v : UInt8) : Bytes := fun k =>
  if off ≤ k ∧ k < off + n then v else b k

/-- The `n` bytes from `off` on, as an object of their own (zero past its end). -/
def slice (b : Bytes) (off n : ℕ) : Bytes := fun k => if k < n then b (off + k) else 0

/-- A buffer of zero bytes. -/
def zero : Bytes := fun _ => 0

theorem copy_of_inside {src : Bytes} {soff : ℕ} (h : off ≤ k) (h' : k < off + n) :
    b.copy off src soff n k = src (soff + (k - off)) := if_pos ⟨h, h'⟩

theorem copy_of_outside {src : Bytes} {soff : ℕ} (h : k < off ∨ off + n ≤ k) :
    b.copy off src soff n k = b k := if_neg (by omega)

theorem fill_of_inside {v : UInt8} (h : off ≤ k) (h' : k < off + n) : b.fill off n v k = v :=
  if_pos ⟨h, h'⟩

theorem fill_of_outside {v : UInt8} (h : k < off ∨ off + n ≤ k) : b.fill off n v k = b k :=
  if_neg (by omega)

theorem slice_of_lt (h : k < n) : b.slice off n k = b (off + k) := if_pos h

theorem getNat_slice (h : off' + n' ≤ n) :
    (b.slice off n).getNat off' n' = b.getNat (off + off') n' :=
  getNat_congr fun k hk => by rw [slice_of_lt (by omega), Nat.add_assoc]

theorem getInt_slice (h : off' + 4 ≤ n) : (b.slice off n).getInt off' = b.getInt (off + off') := by
  unfold getInt
  rw [getNat_slice h]

theorem slice_slice {m : ℕ} (h : off' + m ≤ n) :
    (b.slice off n).slice off' m = b.slice (off + off') m := by
  funext k
  unfold slice
  split_ifs
  · rw [Nat.add_assoc]
  · omega
  · rfl

/-- A byte inside is changed. -/
theorem slice_update {v : UInt8} (h : k < n) :
    slice (Function.update (b.slice off n) k v) 0 n = Function.update (b.slice off n) k v := by
  funext j
  by_cases hj : j = k
  · rw [hj, slice_of_lt h, Nat.zero_add]
  · rw [Function.update_of_ne hj]
    unfold slice
    rw [Nat.zero_add, Function.update_of_ne hj]
    split <;> rfl

/-- Bytes elsewhere are not changed by a copy. -/
theorem slice_copy_of_disjoint {src : Bytes} {soff : ℕ} (h : off + n ≤ off' ∨ off' + n' ≤ off) :
    (b.copy off src soff n).slice off' n' = b.slice off' n' := by
  funext k
  unfold slice
  split_ifs
  · exact copy_of_outside (by omega)
  · rfl

theorem slice_copy_self {src : Bytes} {soff : ℕ} :
    (b.copy off src soff n).slice off n = src.slice soff n := by
  funext k
  unfold slice
  split_ifs
  · rw [copy_of_inside (by omega) (by omega), Nat.add_sub_cancel_left]
  · rfl

/-- Part of a range that is copied out, changed and copied back. -/
theorem copy_slice_copy {src : Bytes} {m : ℕ} (h : off' + m ≤ n) :
    b.copy off ((b.slice off n).copy off' src 0 m) 0 n = b.copy (off + off') src 0 m := by
  funext k
  by_cases hin : off ≤ k ∧ k < off + n
  · rw [copy_of_inside hin.1 hin.2, Nat.zero_add]
    by_cases hk : off + off' ≤ k ∧ k < off + off' + m
    · rw [copy_of_inside (by omega) (by omega), copy_of_inside hk.1 hk.2, Nat.sub_sub]
    · rw [copy_of_outside (by omega), copy_of_outside (by omega), slice_of_lt (by omega),
        Nat.add_sub_cancel' hin.1]
  · rw [copy_of_outside (by omega), copy_of_outside (by omega)]

/-- A word of zero bytes is zero. -/
theorem getNat_of_zero (h : ∀ k < n, b (off + k) = 0) : b.getNat off n = 0 := by
  have hword : b.getNat off n = 0 % 256 ^ n := getNat_of_digits fun k hk => by
    rw [h k hk]
    simp
  simpa using hword

end Bytes

end UserOS.Lib
