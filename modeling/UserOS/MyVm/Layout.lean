import Mathlib.Tactic.Ring
import Mathlib.Data.Nat.Bitwise

/-!
# Virtual addresses

The constants of `my_vm.h`, the bit widths that `calculate_entries_bits` derives from the page
size, and the functions that take virtual addresses apart and put them together. The program is
built with `-m32`, so `unsigned long` and pointers have 32 bits; a null pointer is `0`.

* `extractBits_eq`: a bit field is a quotient and a remainder.
* `formVirtualAddress_eq`: the two loops put the directory and table index in place.
* `getNextPage_page`: stepping to the next page increments the page number.
-/

namespace UserOS.MyVm

/-! ## Constants -/

/-- `PGSIZE`. -/
def pgSize : ℕ := 65536

/-- `MEMSIZE`, the size of the simulated physical memory. -/
def memSize : ℕ := 1024 * 1024 * 1024

/-- `BITS`. -/
def addressBits : ℕ := 32

/-- `LEVELS`. -/
def levels : ℕ := 2

/-- `sizeof(pte_t)` and `sizeof(pde_t)` in the 32-bit build. -/
def pteSize : ℕ := 4

/-! ## Bit widths -/

/-- The globals that `calculate_entries_bits` sets. -/
structure Layout where
  offsetBits : ℕ
  pageTableBits : ℕ
  pageDirBits : ℕ
  pageTableEntries : ℕ
  pageDirEntries : ℕ
  deriving DecidableEq, Repr

/-- `calculate_entries_bits`, for a page size of `pgsize` bytes. -/
def calculateEntriesBits (pgsize : ℕ) : Layout :=
  let offsetBits := Nat.log2 pgsize
  let pageTableEntries := pgsize / pteSize
  let pageDirEntries := pgsize / pteSize
  let remainingBits := addressBits - offsetBits
  let pageTableBits := Nat.log2 pageTableEntries
  let split : ℕ × ℕ × ℕ :=
    if pageTableBits > remainingBits then
      let bitsPerLevel := (addressBits - offsetBits) / levels
      (bitsPerLevel, if pageTableEntries > 2 ^ bitsPerLevel then 2 ^ bitsPerLevel
        else pageTableEntries, remainingBits - bitsPerLevel)
    else (pageTableBits, pageTableEntries, remainingBits - pageTableBits)
  { offsetBits := offsetBits
    pageTableBits := split.1
    pageDirBits := split.2.2
    pageTableEntries := split.2.1
    pageDirEntries := if pageDirEntries > 2 ^ split.2.2 then 2 ^ split.2.2 else pageDirEntries }

/-- The layout of the build. -/
def layout : Layout := calculateEntriesBits pgSize

theorem layout_eq : layout = ⟨16, 14, 2, 16384, 4⟩ := by decide

/-! ## Bit fields -/

/-- `extract_bits`. A shift count is taken modulo 32, as the x86 shift instructions do. -/
def extractBits (num start bitsLen : ℕ) : ℕ :=
  let mask := (1 <<< (bitsLen % 32)) - 1
  let num := num >>> ((32 - (bitsLen : ℤ) - start + 1) % 32).toNat
  num &&& mask

theorem extractBits_eq {num start len : ℕ} (hlen : len < 32) (hstart : 0 < start)
    (h : start + len ≤ 33) :
    extractBits num start len = num / 2 ^ (33 - len - start) % 2 ^ len := by
  have hshift : ((32 - (len : ℤ) - start + 1) % 32).toNat = (33 - len - start) % 32 := by omega
  unfold extractBits
  rw [hshift, Nat.mod_eq_of_lt hlen, Nat.shiftLeft_eq, Nat.one_mul, Nat.and_two_pow_sub_one_eq_mod,
    Nat.shiftRight_eq_div_pow]
  by_cases h0 : 33 - len - start = 32
  · have : len = 0 := by omega
    subst this
    simp [Nat.mod_one]
  · rw [Nat.mod_eq_of_lt (show 33 - len - start < 32 by omega)]

/-- The loop of `form_virtual_address` that shifts the low `n` bits of an index into the address
from the top. -/
def shiftIn : ℕ → ℕ → ℕ → ℕ
  | 0, _, virtAddr => virtAddr
  | n + 1, index, virtAddr => shiftIn n (index >>> 1) (virtAddr >>> 1 ||| (index &&& 1) <<< 31)

/-- `form_virtual_address`. -/
def formVirtualAddress (L : Layout) (pageDirIndex pageTableIndex : ℕ) : ℕ :=
  let virtAddr := (fun v => v >>> 1)^[L.offsetBits] 4294967295
  shiftIn L.pageDirBits pageDirIndex (shiftIn L.pageTableBits pageTableIndex virtAddr)

theorem shiftIn_eq {n : ℕ} (hn : n ≤ 32) {x v : ℕ} (hv : v < 2 ^ 32) :
    shiftIn n x v = v / 2 ^ n + x % 2 ^ n * 2 ^ (32 - n) := by
  induction n generalizing x v with
  | zero => simp [shiftIn, Nat.mod_one]
  | succ n ih =>
    have hor : v >>> 1 ||| (x &&& 1) <<< 31 = v / 2 + x % 2 * 2 ^ 31 := by
      rw [Nat.shiftRight_eq_div_pow, Nat.and_one_is_mod, Nat.shiftLeft_eq, Nat.lor_comm,
        Nat.mul_comm, ← Nat.two_pow_add_eq_or_of_lt (by omega)]
      omega
    have hlt : v / 2 + x % 2 * 2 ^ 31 < 2 ^ 32 := by omega
    have hpow : 2 ^ (32 - n) = 2 * 2 ^ (31 - n) := by
      rw [show 32 - n = 31 - n + 1 by omega, Nat.pow_succ, Nat.mul_comm]
    have hsplit : (2 : ℕ) ^ 31 = 2 ^ n * 2 ^ (31 - n) := by
      rw [← Nat.pow_add, show n + (31 - n) = 31 by omega]
    have hdiv : (v / 2 + x % 2 * 2 ^ 31) / 2 ^ n = v / 2 / 2 ^ n + x % 2 * 2 ^ (31 - n) := by
      rw [hsplit, show x % 2 * (2 ^ n * 2 ^ (31 - n)) = 2 ^ n * (x % 2 * 2 ^ (31 - n)) by ring,
        Nat.add_mul_div_left _ _ (Nat.two_pow_pos n)]
    rw [shiftIn, hor, ih (by omega) hlt, hdiv, Nat.div_div_eq_div_mul, Nat.shiftRight_eq_div_pow,
      Nat.pow_one, hpow, show 32 - (n + 1) = 31 - n by omega, Nat.pow_succ, Nat.mul_comm 2 (2 ^ n),
      Nat.mul_comm (2 ^ n) 2, Nat.mod_mul]
    ring

theorem iterate_shiftRight (n v : ℕ) : (fun v => v >>> 1)^[n] v = v / 2 ^ n := by
  induction n generalizing v with
  | zero => simp
  | succ n ih =>
    rw [Function.iterate_succ_apply, ih, Nat.shiftRight_eq_div_pow, Nat.div_div_eq_div_mul,
      ← Nat.pow_add, Nat.add_comm]

/-- **The two loops place both indices**, and shift out the ones the address starts with. -/
theorem formVirtualAddress_eq {L : Layout} (h : L.offsetBits + L.pageTableBits + L.pageDirBits = 32)
    (d t : ℕ) : formVirtualAddress L d t =
      (d % 2 ^ L.pageDirBits * 2 ^ L.pageTableBits + t % 2 ^ L.pageTableBits) *
        2 ^ L.offsetBits := by
  obtain ⟨o, tb, db, te, de⟩ := L
  simp only at h ⊢
  have hones : 4294967295 / 2 ^ o < 2 ^ (tb + db) := by
    rw [Nat.div_lt_iff_lt_mul (Nat.two_pow_pos o), ← Nat.pow_add, show tb + db + o = 32 by omega]
    decide
  have hpos : 4294967295 / 2 ^ o < 2 ^ 32 :=
    hones.trans_le (Nat.pow_le_pow_right (by decide) (by omega))
  have hdiv : 4294967295 / 2 ^ o / 2 ^ tb < 2 ^ db := by
    rw [Nat.div_lt_iff_lt_mul (Nat.two_pow_pos tb), ← Nat.pow_add, Nat.add_comm db]
    exact hones
  have hmod : t % 2 ^ tb < 2 ^ tb := Nat.mod_lt _ (Nat.two_pow_pos tb)
  have h32 : (2 : ℕ) ^ (32 - tb) = 2 ^ db * 2 ^ o := by
    rw [← Nat.pow_add]; congr 1; omega
  have h32' : (2 : ℕ) ^ 32 = 2 ^ tb * 2 ^ (32 - tb) := by
    rw [← Nat.pow_add]; congr 1; omega
  have hinner : 4294967295 / 2 ^ o / 2 ^ tb + t % 2 ^ tb * 2 ^ (32 - tb) < 2 ^ 32 := by
    have hle : 4294967295 / 2 ^ o / 2 ^ tb < 2 ^ (32 - tb) := by
      rw [h32]
      exact hdiv.trans_le (Nat.le_mul_of_pos_right _ (Nat.two_pow_pos o))
    calc _ < 2 ^ (32 - tb) + t % 2 ^ tb * 2 ^ (32 - tb) := by omega
      _ = (t % 2 ^ tb + 1) * 2 ^ (32 - tb) := by ring
      _ ≤ 2 ^ tb * 2 ^ (32 - tb) := Nat.mul_le_mul_right _ hmod
      _ = 2 ^ 32 := h32'.symm
  unfold formVirtualAddress
  simp only
  rw [iterate_shiftRight, shiftIn_eq (by omega) hpos, shiftIn_eq (by omega) hinner, h32,
    show t % 2 ^ tb * (2 ^ db * 2 ^ o) = 2 ^ db * (t % 2 ^ tb * 2 ^ o) by ring,
    Nat.add_mul_div_left _ _ (Nat.two_pow_pos db), Nat.div_eq_of_lt hdiv,
    show 32 - db = tb + o by omega, Nat.pow_add]
  ring

/-! ## The fields of an address -/

/-- The page directory index of `va`, as `translate` extracts it. -/
def dirIndex (va : ℕ) : ℕ := extractBits va 1 layout.pageDirBits

/-- The page table index of `va`. -/
def tableIndex (va : ℕ) : ℕ := extractBits va (layout.pageDirBits + 1) layout.pageTableBits

/-- The offset of `va` in its page, as `put_value` and `get_value` extract it. -/
def pageOffset (va : ℕ) : ℕ :=
  extractBits va (layout.pageTableBits * (levels - 1) + layout.pageDirBits + 1) layout.offsetBits

theorem dirIndex_eq (va : ℕ) : dirIndex va = va / 2 ^ 30 % 4 := by
  unfold dirIndex
  rw [layout_eq]
  exact extractBits_eq (by decide) (by decide) (by decide)

theorem tableIndex_eq (va : ℕ) : tableIndex va = va / 65536 % 16384 := by
  unfold tableIndex
  rw [layout_eq]
  exact extractBits_eq (by decide) (by decide) (by decide)

theorem pageOffset_eq (va : ℕ) : pageOffset va = va % 65536 := by
  unfold pageOffset
  rw [layout_eq, extractBits_eq (by decide) (by decide) (by decide)]
  simp [levels]

theorem dirIndex_lt (va : ℕ) : dirIndex va < 4 := by
  rw [dirIndex_eq]; omega

theorem tableIndex_lt (va : ℕ) : tableIndex va < 16384 := by
  rw [tableIndex_eq]; omega

theorem formVirtualAddress_layout (d t : ℕ) :
    formVirtualAddress layout d t = (d % 4 * 16384 + t % 16384) * 65536 := by
  rw [layout_eq]
  exact formVirtualAddress_eq (by decide) d t

/-- The number of the virtual page of `va`. -/
def pageNumber (va : ℕ) : ℕ := va / pgSize

theorem pageNumber_eq {va : ℕ} (hva : va < 2 ^ 32) :
    pageNumber va = dirIndex va * 16384 + tableIndex va := by
  rw [dirIndex_eq, tableIndex_eq, pageNumber, pgSize]
  omega

/-- The page address that the TLB is searched for. -/
theorem formVirtualAddress_fields {va : ℕ} (hva : va < 2 ^ 32) :
    formVirtualAddress layout (dirIndex va) (tableIndex va) = pageNumber va * pgSize := by
  rw [formVirtualAddress_layout, pageNumber_eq hva, Nat.mod_eq_of_lt (dirIndex_lt va),
    Nat.mod_eq_of_lt (tableIndex_lt va), pgSize]

/-! ## The next page -/

/-- `get_next_page`. The field at position 21 of width 32 has an empty mask, so that the offset
subtracted is 0. -/
def getNextPage (va : ℕ) : ℕ :=
  let offset := extractBits va 21 32
  if tableIndex va = layout.pageTableEntries - 1 then
    if dirIndex va = layout.pageDirEntries - 1 then 0
    else formVirtualAddress layout (dirIndex va + 1) 0
  else (va + (pgSize - offset)) % 2 ^ 32

theorem extractBits_empty (va : ℕ) : extractBits va 21 32 = 0 := by
  simp [extractBits]

theorem getNextPage_eq {va : ℕ} (hva : va < 2 ^ 32) : getNextPage va =
    if va / 65536 % 16384 = 16383 then
      if va / 65536 = 65535 then 0 else (va / 65536 + 1) * 65536
    else va + 65536 := by
  have htables : layout.pageTableEntries - 1 = 16383 := by decide
  have hdirs : layout.pageDirEntries - 1 = 3 := by decide
  have hdir := dirIndex_eq va
  unfold getNextPage
  rw [extractBits_empty, htables, hdirs, formVirtualAddress_layout, tableIndex_eq]
  dsimp only
  by_cases hlast : va / 65536 % 16384 = 16383
  · rw [if_pos hlast, if_pos hlast]
    by_cases hend : va / 65536 = 65535
    · rw [if_pos hend, if_pos (by omega)]
    · rw [if_neg hend, if_neg (by omega)]
      omega
  · rw [if_neg hlast, if_neg hlast]
    unfold pgSize
    omega

theorem getNextPage_lt {va : ℕ} (hva : va < 2 ^ 32) : getNextPage va < 2 ^ 32 := by
  rw [getNextPage_eq hva]
  split_ifs <;> omega

/-- **Stepping forward**: from any page but the last, the page number grows by one. -/
theorem getNextPage_page {va : ℕ} (h : pageNumber va < 65535) :
    pageNumber (getNextPage va) = pageNumber va + 1 := by
  unfold pageNumber pgSize at *
  rw [getNextPage_eq (by omega)]
  split_ifs <;> omega

/-- From the last page the result is null. -/
theorem getNextPage_last {va : ℕ} (hva : va < 2 ^ 32) (h : pageNumber va = 65535) :
    getNextPage va = 0 := by
  unfold pageNumber pgSize at h
  rw [getNextPage_eq hva, if_pos (by omega), if_pos h]

end UserOS.MyVm
