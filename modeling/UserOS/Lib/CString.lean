import UserOS.Lib.Bytes

/-!
# C strings in buffers

A C string is the list of its bytes, without the zero byte that ends it.

* `readStr_congr`, `readStr_strcpy`: the string at an offset after a store.
* `strEq_iff`: what `strcmp` compares.
-/

namespace UserOS.Lib

/-- The bytes of a C string. -/
abbrev CString := List UInt8

namespace Bytes

/-- The string at `off`, which ends at the first zero byte, or after `n` bytes. -/
def readStr (b : Bytes) (off : ℕ) : ℕ → CString
  | 0 => []
  | n + 1 => if b off = 0 then [] else b off :: readStr b (off + 1) n

/-- `strcmp(b + off, s) == 0`. -/
def strEq (b : Bytes) (off : ℕ) : CString → Bool
  | [] => b off == 0
  | c :: s => b off == c && strEq b (off + 1) s

/-- `strcpy(b + off, s)`. -/
def strcpy (b : Bytes) (off : ℕ) (s : CString) : Bytes := fun k =>
  if off ≤ k ∧ k ≤ off + s.length then s.getD (k - off) 0 else b k

variable {b b' : Bytes} {off off' n k : ℕ} {s s' : CString}

theorem readStr_congr (h : ∀ k < n, b (off + k) = b' (off' + k)) :
    b.readStr off n = b'.readStr off' n := by
  induction n generalizing off off' with
  | zero => rfl
  | succ n ih =>
    have h0 : b off = b' off' := h 0 (Nat.succ_pos n)
    have hrest : b.readStr (off + 1) n = b'.readStr (off' + 1) n := ih fun k hk => by
      rw [Nat.add_right_comm, Nat.add_right_comm off']
      exact h (k + 1) (by omega)
    rw [readStr, readStr, h0, hrest]

/-- Without a zero byte the string fills the range. -/
theorem readStr_length (h : ∀ k < n, b (off + k) ≠ 0) : (b.readStr off n).length = n := by
  induction n generalizing off with
  | zero => rfl
  | succ n ih =>
    have hrest : (b.readStr (off + 1) n).length = n := ih fun k hk => by
      rw [Nat.add_right_comm, Nat.add_assoc]
      exact h (k + 1) (by omega)
    have h0 : b off ≠ 0 := h 0 (Nat.succ_pos n)
    rw [readStr, if_neg h0, List.length_cons, hrest]

/-- A string that ends is the same in a longer range. -/
theorem readStr_of_le {m : ℕ} (hlen : (b.readStr off n).length < n) (hm : n ≤ m) :
    b.readStr off m = b.readStr off n := by
  induction n generalizing off m with
  | zero => exact absurd hlen (Nat.not_lt_zero _)
  | succ n ih =>
    obtain ⟨m, rfl⟩ := Nat.exists_eq_add_of_lt (Nat.lt_of_lt_of_le (Nat.zero_lt_succ n) hm)
    rw [Nat.zero_add] at hm ⊢
    rw [readStr] at hlen
    rw [readStr, readStr]
    split at hlen
    next h0 => rw [if_pos h0, if_pos h0]
    next h0 =>
      rw [if_neg h0, if_neg h0, ih (Nat.lt_of_succ_lt_succ hlen) (Nat.le_of_succ_le_succ hm)]

/-- **Comparison.** A string that ends in its buffer is equal to those that `strcmp` says. -/
theorem strEq_iff (hlen : (b.readStr off n).length < n) (hs : 0 ∉ s) :
    b.strEq off s = true ↔ b.readStr off n = s := by
  induction n generalizing off s with
  | zero => exact absurd hlen (Nat.not_lt_zero _)
  | succ n ih =>
    rw [readStr] at hlen ⊢
    cases s with
    | nil =>
      rw [strEq, beq_iff_eq]
      split <;> simp [*]
    | cons c s =>
      obtain ⟨hc, hs⟩ := not_or.1 (mt List.mem_cons.2 hs)
      rw [strEq, Bool.and_eq_true, beq_iff_eq]
      split at hlen
      next h0 =>
        rw [if_pos h0]
        constructor
        · rintro ⟨rfl, -⟩
          exact absurd h0.symm hc
        · intro h
          cases h
      next h0 =>
        rw [if_neg h0, List.cons.injEq, ih (Nat.lt_of_succ_lt_succ hlen) hs]

/-- `strcmp` compares the bytes up to and including the zero that ends the string. -/
theorem strEq_iff_bytes : b.strEq off s = true ↔ ∀ k ≤ s.length, b (off + k) = s.getD k 0 := by
  induction s generalizing off with
  | nil =>
    rw [strEq, beq_iff_eq]
    constructor
    · intro h k hk
      rw [Nat.le_zero.1 hk]
      exact h
    · intro h
      exact h 0 le_rfl
  | cons c s ih =>
    rw [strEq, Bool.and_eq_true, beq_iff_eq, ih]
    constructor
    · intro ⟨hc, hs⟩ k hk
      cases k with
      | zero => exact hc
      | succ k =>
        rw [← Nat.add_assoc, Nat.add_right_comm, hs k (Nat.le_of_succ_le_succ hk)]
        rfl
    · intro h
      refine ⟨h 0 (Nat.zero_le _), fun k hk => ?_⟩
      rw [Nat.add_right_comm, Nat.add_assoc, h (k + 1) (Nat.succ_le_succ hk)]
      rfl

theorem strEq_congr (h : ∀ k ≤ s.length, b (off + k) = b' (off' + k)) :
    b.strEq off s = b'.strEq off' s := by
  rw [Bool.eq_iff_iff, strEq_iff_bytes, strEq_iff_bytes]
  exact forall₂_congr fun k hk => by rw [h k hk]

theorem strcpy_of_inside (h : k ≤ s.length) : b.strcpy off s (off + k) = s.getD k 0 := by
  unfold strcpy
  rw [if_pos (by omega), Nat.add_sub_cancel_left]

theorem strcpy_of_outside (h : k < off ∨ off + s.length < k) : b.strcpy off s k = b k :=
  if_neg (by omega)

/-- The string copied is read back. -/
theorem readStr_strcpy (hs : 0 ∉ s) (hn : s.length < n) : (b.strcpy off s).readStr off n = s := by
  -- By induction on the string, with the bytes from its first on.
  have hread : ∀ (n : ℕ) (t : CString) (off' : ℕ), 0 ∉ t → t.length < n →
      (∀ k ≤ t.length, b.strcpy off s (off' + k) = t.getD k 0) →
      (b.strcpy off s).readStr off' n = t := by
    intro n
    induction n with
    | zero => exact fun t _ _ hlen _ => absurd hlen (Nat.not_lt_zero _)
    | succ n ih =>
      intro t off' h0 hlen hbytes
      rw [readStr]
      cases t with
      | nil =>
        have hbyte : b.strcpy off s off' = 0 := hbytes 0 le_rfl
        rw [if_pos hbyte]
      | cons c t =>
        obtain ⟨hc, ht⟩ := not_or.1 (mt List.mem_cons.2 h0)
        have hbyte : b.strcpy off s off' = c := hbytes 0 (Nat.zero_le _)
        rw [hbyte, if_neg fun h => hc h.symm, ih t (off' + 1) ht (Nat.lt_of_succ_lt_succ hlen)]
        intro k hk
        rw [Nat.add_right_comm, Nat.add_assoc, hbytes (k + 1) (Nat.succ_le_succ hk)]
        rfl
  refine hread n s off hs hn fun k hk => ?_
  unfold strcpy
  rw [if_pos (by omega), Nat.add_sub_cancel_left]

end Bytes

end UserOS.Lib
