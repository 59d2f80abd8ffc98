import UserOS.Lib.Bits

/-!
# The disk and its blocks

The device of `block.c`, and the bitmaps of `rufs.h`. The disk is a file, given by its bytes, that
reads as zeros past its end; the device reads and writes one block at a time.

* `bioRead_eq`, `bioWrite_eq`: for the blocks of the file system the offset is an `int`.
* `setBitmap_bit`, `unsetBitmap_bit`: one bit changes.
-/

namespace UserOS.Rufs

open Lib

/-! ## The device -/

/-- `BLOCK_SIZE`. -/
def blockSize : ℕ := 4096

theorem blockSize_eq : blockSize = 4096 := rfl

/-- The bytes of the disk file. -/
abbrev Disk := Bytes

/-- The offset `block_num*BLOCK_SIZE`, an `int`. -/
def blockOffset (blockNum : ℤ) : ℤ := Bytes.toInt32 (blockNum * blockSize % 2 ^ 32).toNat

/-- `bio_read`. A negative offset is refused, and the buffer cleared. -/
def bioRead (d : Disk) (blockNum : ℤ) : Bytes :=
  if 0 ≤ blockOffset blockNum then d.slice (blockOffset blockNum).toNat blockSize else Bytes.zero

/-- `bio_write`. A negative offset is refused. -/
def bioWrite (d : Disk) (blockNum : ℤ) (buf : Bytes) : Disk :=
  if 0 ≤ blockOffset blockNum then d.copy (blockOffset blockNum).toNat buf 0 blockSize else d

variable {d : Disk} {b buf : Bytes} {k n i j : ℕ} {p : ℤ}

/-- Block numbers below 2^19 have an offset that is an `int`. -/
theorem blockOffset_eq (h0 : 0 ≤ p) (h : p < 2 ^ 19) : blockOffset p = p * 4096 := by
  unfold blockOffset blockSize
  exact Bytes.toInt32_mod (by push_cast; omega) (by push_cast; omega)

theorem bioRead_eq (h0 : 0 ≤ p) (h : p < 2 ^ 19) : bioRead d p = d.slice (p.toNat * 4096) 4096 := by
  unfold bioRead
  rw [blockOffset_eq h0 h, if_pos (by omega), show (p * 4096).toNat = p.toNat * 4096 by omega]
  rfl

theorem bioWrite_eq (h0 : 0 ≤ p) (h : p < 2 ^ 19) :
    bioWrite d p buf = d.copy (p.toNat * 4096) buf 0 4096 := by
  unfold bioWrite
  rw [blockOffset_eq h0 h, if_pos (by omega), show (p * 4096).toNat = p.toNat * 4096 by omega]
  rfl

/-- The null pointer names no block. -/
theorem bioRead_null : bioRead d (-1) = Bytes.zero := by
  unfold bioRead
  exact if_neg (by decide)

/-! ## Bitmaps -/

/-- `set_bitmap`. -/
def setBitmap (b : Bytes) (i : ℕ) : Bytes :=
  Function.update b (i / 8) (b (i / 8) ||| UInt8.ofNat (1 <<< (i &&& 7)))

/-- `unset_bitmap`. -/
def unsetBitmap (b : Bytes) (i : ℕ) : Bytes :=
  Function.update b (i / 8) (b (i / 8) &&& ~~~UInt8.ofNat (1 <<< (i &&& 7)))

/-- `get_bitmap`. -/
def getBitmap (b : Bytes) (i : ℕ) : Bool := ((b (i / 8)).toNat &&& 1 <<< (i &&& 7)) != 0

/-- The least significant bit comes first. -/
theorem bitOrder_id : BitOrder id where
  lt _ h := h
  inj _ _ _ _ h := h

theorem and_seven (i : ℕ) : i &&& 7 = i % 8 := Nat.and_two_pow_sub_one_eq_mod i 3

theorem getBitmap_eq : getBitmap b i = bit id b i := by
  unfold getBitmap bit
  rw [and_seven, Nat.shiftLeft_eq, Nat.one_mul, id, Nat.and_two_pow]
  cases (b (i / 8)).toNat.testBit (i % 8) <;> simp

theorem setBitmap_bit : bit id (setBitmap b i) j = (decide (j = i) || bit id b j) := by
  have hmask : ∀ x < 8, ∀ k < 8,
      (UInt8.ofNat (1 <<< x)).toNat.testBit k = decide (k = x) := by decide
  unfold setBitmap
  rw [and_seven]
  exact bit_or bitOrder_id (hmask _ (Nat.mod_lt _ (by decide)))

theorem unsetBitmap_bit : bit id (unsetBitmap b i) j = (!decide (j = i) && bit id b j) := by
  have hmask : ∀ x < 8, ∀ k < 8,
      (~~~UInt8.ofNat (1 <<< x)).toNat.testBit k = !decide (k = x) := by decide
  unfold unsetBitmap
  rw [and_seven]
  exact bit_and bitOrder_id (hmask _ (Nat.mod_lt _ (by decide)))

end UserOS.Rufs
