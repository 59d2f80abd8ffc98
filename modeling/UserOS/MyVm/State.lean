import UserOS.Lib.Bits
import UserOS.MyVm.Layout
import UserOS.MyVm.Tlb

/-!
# The globals of `my_vm.c` and its bitmaps

`Vm` holds the simulated physical memory, as bytes at their 32-bit addresses, the two bitmaps, the
page directory and the TLB. The bitmaps keep bit `i` of a byte at place `7 - i`.

* `setBitAtIndex_bit`: setting a bit sets that bit and no other.
* `unsetBitAtIndex_bit`: the mask of `unset_bit_at_index` compares the loop counter with the
  whole index instead of the position in the byte, so that only the bits below 8 are ever cleared.
* `findFreePhysicalPage_eq`: the frames returned are the lowest free ones.
* `getNextAvail_eq`: the pages returned are the lowest run that is long enough.
-/

namespace UserOS.MyVm

open Lib

/-- The globals. `memoryStart` is 0 before `set_physical_mem`; `mutex` tells whether the lock is
held. -/
structure Vm where
  mem : Bytes
  memoryStart : ℕ
  phyBitmap : Bytes
  virtBitmap : Bytes
  pageDir : ℕ
  tlb : Tlb
  mutex : Bool

/-! ## Bitmaps -/

/-- `set_bit_at_index`. -/
def setBitAtIndex (bitmap : Bytes) (index : ℕ) : Bytes :=
  let bytePos := index / 8
  let bitPos := index % 8
  Function.update bitmap bytePos (bitmap bytePos ||| UInt8.ofNat (128 >>> bitPos))

/-- `get_bit_at_index`. -/
def getBitAtIndex (bitmap : Bytes) (index : ℕ) : ℕ :=
  let bytePos := index / 8
  let bitPos := index % 8
  ((bitmap bytePos).toNat >>> (8 - bitPos - 1)) &&& 1

/-- The mask that the loop of `unset_bit_at_index` builds. -/
def unsetMask (index : ℕ) : ℕ :=
  (List.range 8).foldl
    (fun mask i => if i = index then mask <<< 1 ||| 0 else mask <<< 1 ||| 1) 0

/-- `unset_bit_at_index`. -/
def unsetBitAtIndex (bitmap : Bytes) (index : ℕ) : Bytes :=
  let bytePos := index / 8
  Function.update bitmap bytePos (bitmap bytePos &&& UInt8.ofNat (unsetMask index))

/-- The place of bit `x` of a byte, counted from the least significant bit. -/
def msbFirst (x : ℕ) : ℕ := 7 - x

theorem bitOrder_msbFirst : BitOrder msbFirst where
  lt := by decide
  inj := by decide

/-- The bit of a bitmap at an index. -/
def isSet (bitmap : Bytes) (index : ℕ) : Bool := bit msbFirst bitmap index

variable {bm : Bytes} {i j : ℕ}

theorem getBitAtIndex_eq : getBitAtIndex bm i = (isSet bm i).toNat := by
  simp only [getBitAtIndex, isSet, bit, msbFirst, Nat.and_one_is_mod, Nat.shiftRight_eq_div_pow,
    Nat.toNat_testBit, show 8 - i % 8 - 1 = 7 - i % 8 by omega]

@[simp] theorem setBitAtIndex_bit :
    isSet (setBitAtIndex bm i) j = (decide (j = i) || isSet bm j) := by
  have hmask : ∀ x < 8, ∀ k < 8,
      (UInt8.ofNat (128 >>> x)).toNat.testBit k = decide (k = msbFirst x) := by decide
  exact bit_or bitOrder_msbFirst (hmask _ (Nat.mod_lt _ (by decide)))

/-- **Only indices below 8 are cleared.** -/
@[simp] theorem unsetBitAtIndex_bit :
    isSet (unsetBitAtIndex bm i) j = (!decide (j = i ∧ i < 8) && isSet bm j) := by
  by_cases hi : i < 8
  · have hmask : ∀ x < 8, ∀ k < 8,
        (UInt8.ofNat (unsetMask x)).toNat.testBit k = !decide (k = msbFirst (x % 8)) := by decide
    have hbit := bit_and bitOrder_msbFirst (b := bm) (j := j) (hmask i hi)
    simp only [hi, and_true]
    exact hbit
  · have hmask : UInt8.ofNat (unsetMask i) = 255 := by
      have hne : ∀ k < 8, k ≠ i := by omega
      simp [unsetMask, List.range_succ, hne]
    have hsame : unsetBitAtIndex bm i = bm := by
      have h255 : ∀ x : UInt8, x &&& 255 = x := fun x => by
        apply UInt8.toNat.inj
        have := x.toNat_lt
        rw [UInt8.toNat_and, show (255 : UInt8).toNat = 2 ^ 8 - 1 from rfl,
          Nat.and_two_pow_sub_one_eq_mod, Nat.mod_eq_of_lt this]
      simp only [unsetBitAtIndex, hmask, h255, Function.update_eq_self]
    simp [hsame, hi]

theorem isSet_fill {n : ℕ} (hi : i < 8 * n) : isSet (bm.fill 0 n 0) i = false := by
  simp [isSet, bit, Bytes.fill_of_inside (Nat.zero_le _) (show i / 8 < 0 + n by omega)]

/-! ## The scans -/

/-- The bit that the scans read at position `j` of the byte `num`. -/
def scanBit (num : UInt8) (j : ℕ) : ℕ := (num.toNat >>> (8 - j - 1)) &&& 1

/-- The scans read the bit that `get_bit_at_index` reads. -/
theorem scanBit_eq {k : ℕ} : scanBit (bm (k / 8)) (k % 8) = getBitAtIndex bm k := rfl

theorem scanBit_eq_zero {k : ℕ} : scanBit (bm (k / 8)) (k % 8) = 0 ↔ isSet bm k = false := by
  rw [scanBit_eq, getBitAtIndex_eq]
  cases isSet bm k <;> simp

/-- The number of frames that `phy_bitmap` covers: `no_chars` bytes of 8 bits. -/
def numFrames : ℕ := 8 * (memSize / (8 * pgSize))

/-- The address of a frame. -/
def frameAddr (memoryStart f : ℕ) : ℕ := memoryStart + f * pgSize

/-- The two nested loops of `find_free_physical_page`, which visit the bits `8 * i + j` in order:
`n` bits are left, from bit `k` on. -/
def findFreeLoop (bitmap : Bytes) (memoryStart numPages : ℕ) : ℕ → ℕ → List ℕ → Option (List ℕ)
  | 0, _, _ => none
  | n + 1, k, pagePointers =>
    if scanBit (bitmap (k / 8)) (k % 8) = 0 then
      let pagePointers := pagePointers ++ [memoryStart + k * pgSize]
      if pagePointers.length = numPages then some pagePointers
      else findFreeLoop bitmap memoryStart numPages n (k + 1) pagePointers
    else findFreeLoop bitmap memoryStart numPages n (k + 1) pagePointers

/-- `find_free_physical_page`. -/
def findFreePhysicalPage (vm : Vm) (numPages : ℕ) : Option (List ℕ) :=
  findFreeLoop vm.phyBitmap vm.memoryStart numPages numFrames 0 []

/-- `find_free_physical_page(1)[0]`; reading an element of a null result fails. -/
def firstFreePage (vm : Vm) : Option ℕ := findFreePhysicalPage vm 1 >>= List.head?

/-- The loops collect the free frames in order until there are enough. -/
theorem findFreeLoop_eq {ms numPages n k : ℕ} {acc : List ℕ} (h : acc.length < numPages) :
    findFreeLoop bm ms numPages n k acc =
      let free := (List.range' k n).filter fun f => !isSet bm f
      if numPages - acc.length ≤ free.length then
        some (acc ++ (free.take (numPages - acc.length)).map (frameAddr ms))
      else none := by
  induction n generalizing k acc with
  | zero => simp [findFreeLoop]; omega
  | succ n ih =>
    rw [findFreeLoop, List.range'_succ]
    by_cases hk : isSet bm k = false
    · rw [if_pos (scanBit_eq_zero.2 hk)]
      simp only [List.filter_cons, hk, Bool.not_false, if_true, List.length_append,
        List.length_cons, List.length_nil, Nat.zero_add]
      obtain ⟨m, hm⟩ : ∃ m, numPages - acc.length = m + 1 := ⟨numPages - acc.length - 1, by omega⟩
      rw [hm, List.take_succ_cons, List.map_cons]
      split_ifs with hlen hle hle
      · obtain rfl : m = 0 := by omega
        simp [frameAddr]
      · omega
      · rw [ih (by simp; omega)]
        simp only [List.length_append, List.length_singleton,
          show numPages - (acc.length + 1) = m by omega]
        rw [if_pos (by omega)]
        simp [frameAddr]
      · rw [ih (by simp; omega)]
        simp only [List.length_append, List.length_singleton,
          show numPages - (acc.length + 1) = m by omega]
        rw [if_neg (by omega)]
    · have hk' : isSet bm k = true := by simpa using hk
      rw [if_neg (fun h => hk (scanBit_eq_zero.1 h)), ih h]
      simp [hk']

/-- **The lowest free frames**: `find_free_physical_page(n)` is null exactly when fewer than `n`
frames are free, and otherwise lists the `n` lowest. -/
theorem findFreePhysicalPage_eq {vm : Vm} {n : ℕ} (hn : 0 < n) : findFreePhysicalPage vm n =
    let free := (List.range numFrames).filter fun f => !isSet vm.phyBitmap f
    if n ≤ free.length then some ((free.take n).map (frameAddr vm.memoryStart)) else none := by
  rw [findFreePhysicalPage, findFreeLoop_eq (by simpa using hn), List.range_eq_range']
  simp

/-- What `find_free_physical_page(1)[0]` returns is the lowest free frame. -/
theorem firstFreePage_eq_some {vm : Vm} {a : ℕ} (h : firstFreePage vm = some a) :
    ∃ f < numFrames, a = frameAddr vm.memoryStart f ∧ isSet vm.phyBitmap f = false := by
  rw [firstFreePage, findFreePhysicalPage_eq Nat.one_pos] at h
  simp only at h
  split_ifs at h with hle
  · cases hfree : (List.range numFrames).filter (fun f => !isSet vm.phyBitmap f) with
    | nil => rw [hfree] at hle; simp at hle
    | cons f fs =>
      have hf : f ∈ (List.range numFrames).filter fun f => !isSet vm.phyBitmap f := by simp [hfree]
      rw [List.mem_filter, List.mem_range] at hf
      rw [hfree] at h
      simp only [List.take_succ_cons, List.take_zero, List.map_cons, List.map_nil,
        Option.bind_eq_bind, Option.bind_some, List.head?_cons, Option.some.injEq] at h
      exact ⟨f, hf.1, h.symm, by simpa using hf.2⟩
  · cases h

/-- The two nested loops of `get_next_avail`. -/
def getNextAvailLoop (bitmap : Bytes) (numPages : ℕ) : ℕ → ℕ → ℕ → ℕ → Option ℕ
  | 0, _, _, _ => none
  | n + 1, k, pageCount, startPage =>
    if scanBit (bitmap (k / 8)) (k % 8) = 0 then
      if pageCount = 0 then getNextAvailLoop bitmap numPages n (k + 1) 1 k
      else if pageCount + 1 = numPages ∨ pageCount = numPages then
        some (formVirtualAddress layout (startPage / layout.pageTableEntries)
          (startPage % layout.pageTableEntries))
      else getNextAvailLoop bitmap numPages n (k + 1) (pageCount + 1) startPage
    else getNextAvailLoop bitmap numPages n (k + 1) 0 startPage

/-- `get_next_avail`; `none` is the null result of the end of the function. -/
def getNextAvail (vm : Vm) (numPages : ℕ) : Option ℕ :=
  getNextAvailLoop vm.virtBitmap numPages
    (8 * (layout.pageDirEntries * layout.pageTableEntries / 8)) 0 0 0

/-- `n` consecutive free pages from page `p` on. -/
structure FreeRun (bm : Bytes) (p n : ℕ) : Prop where
  fits : p + n ≤ 65536
  free : ∀ i, p ≤ i → i < p + n → isSet bm i = false

theorem FreeRun.mono {p m n : ℕ} (h : FreeRun bm p n) (hmn : m ≤ n) : FreeRun bm p m :=
  ⟨by have := h.fits; omega, fun i h1 h2 => h.free i h1 (by omega)⟩

/-- The loop counts the free bits up to the bit it reads and asks for the length of the run
before it counts the bit, so that a run of one page is only seen at the page after it. -/
theorem getNextAvailLoop_spec {n k pageCount startPage numPages : ℕ} (hn : 0 < numPages)
    (hk : k + n = 65536) (hpc : pageCount < max numPages 2) (hle : pageCount ≤ k)
    (hstart : 0 < pageCount → startPage + pageCount = k)
    (hfree : ∀ i, k - pageCount ≤ i → i < k → isSet bm i = false)
    (hleast : ∀ p, FreeRun bm p (max numPages 2) → k - pageCount ≤ p) :
    (∃ p, IsLeast {p | FreeRun bm p (max numPages 2)} p ∧
      getNextAvailLoop bm numPages n k pageCount startPage =
        some (formVirtualAddress layout (p / layout.pageTableEntries)
          (p % layout.pageTableEntries))) ∨
    (∀ p, ¬ FreeRun bm p (max numPages 2)) ∧
      getNextAvailLoop bm numPages n k pageCount startPage = none := by
  induction n generalizing k pageCount startPage with
  | zero =>
    refine .inr ⟨fun p hp => ?_, rfl⟩
    have h1 := hleast p hp
    have h2 := hp.fits
    omega
  | succ n ih =>
    rw [getNextAvailLoop]
    by_cases hbit : isSet bm k = false
    · rw [if_pos (scanBit_eq_zero.2 hbit)]
      have hfree' : ∀ i, k - pageCount ≤ i → i < k + 1 → isSet bm i = false := fun i h1 h2 => by
        by_cases hik : i = k
        · rw [hik, hbit]
        · exact hfree i h1 (by omega)
      split_ifs with hpc0 hret
      · -- The bit starts a run.
        subst hpc0
        exact ih (by omega) (by omega) (by omega) (fun _ => rfl)
          (fun i h1 h2 => hfree' i (by omega) h2) (fun p hp => by have := hleast p hp; omega)
      · -- The bit ends a run that is long enough.
        have hs := hstart (by omega)
        refine .inl ⟨startPage, ⟨⟨by omega, fun i h1 h2 => hfree' i (by omega) (by omega)⟩,
          fun p hp => ?_⟩, rfl⟩
        have := hleast p hp
        omega
      · have hs := hstart (by omega)
        exact ih (by omega) (by omega) (by omega) (fun _ => by omega)
          (fun i h1 h2 => hfree' i (by omega) h2) (fun p hp => by have := hleast p hp; omega)
    · -- A page in use: no run that is long enough goes over it.
      rw [if_neg (fun h0 => hbit (scanBit_eq_zero.1 h0))]
      refine ih (by omega) (by omega) (by omega) (by omega) (fun i h1 h2 => by omega)
        fun p hp => ?_
      have h1 := hleast p hp
      by_contra hlt
      exact hbit (hp.free k (by omega) (by omega))

/-- `get_next_avail` finds the lowest run of the length asked for, and of length 2 when one page
is asked for. -/
theorem getNextAvail_eq (vm : Vm) {numPages : ℕ} (hn : 0 < numPages) :
    (∃ p, IsLeast {p | FreeRun vm.virtBitmap p (max numPages 2)} p ∧
      getNextAvail vm numPages = some (p * pgSize)) ∨
    (∀ p, ¬ FreeRun vm.virtBitmap p (max numPages 2)) ∧ getNextAvail vm numPages = none := by
  have hentries : layout.pageDirEntries = 4 ∧ layout.pageTableEntries = 16384 := by
    rw [layout_eq]
    exact ⟨rfl, rfl⟩
  have haddr : ∀ p, formVirtualAddress layout (p / layout.pageTableEntries)
      (p % layout.pageTableEntries) = p % 65536 * pgSize := fun p => by
    rw [formVirtualAddress_layout, hentries.2, pgSize]
    omega
  have hspec := @getNextAvailLoop_spec vm.virtBitmap
    (8 * (layout.pageDirEntries * layout.pageTableEntries / 8)) 0 0 0 _ hn
    (by rw [hentries.1, hentries.2]) (by omega) le_rfl (by omega) (by omega) (by omega)
  rcases hspec with ⟨p, hp, hret⟩ | hnone
  · refine .inl ⟨p, hp, ?_⟩
    have hfits := hp.1.fits
    rw [getNextAvail, hret, haddr, Nat.mod_eq_of_lt (by omega)]
  · exact .inr hnone

/-- **A free run.** What `get_next_avail` returns is the first page of a run of free pages. -/
theorem getNextAvail_spec {vm : Vm} {numPages va : ℕ} (hn : 0 < numPages)
    (h : getNextAvail vm numPages = some va) :
    ∃ p, va = p * pgSize ∧ p + numPages ≤ 65536 ∧
      ∀ i, p ≤ i → i < p + numPages → isSet vm.virtBitmap i = false := by
  rcases getNextAvail_eq vm hn with ⟨p, hp, hret⟩ | ⟨-, hret⟩
  · have hrun := hp.1.mono (le_max_left numPages 2)
    rw [hret, Option.some.injEq] at h
    exact ⟨p, h.symm, hrun.fits, hrun.free⟩
  · rw [hret] at h
    cases h

end UserOS.MyVm
