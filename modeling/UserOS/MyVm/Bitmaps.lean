import Mathlib.Order.Interval.Finset.Nat
import UserOS.MyVm.Tables

/-!
# The algebra of the page bitmaps

Setting a bit and clearing it should be inverse to each other. The mask of `unset_bit_at_index` is
built in a loop over the eight positions of a byte, but it compares each with the whole index, so
that the bits from 8 on are never cleared.

* `BitAlgebra`: setting and clearing one bit, and what the scans read.
* `bit_algebra_iff`: the indices for which this holds.
* `lowest_free_frames`: the scan of `find_free_physical_page`.
-/

namespace UserOS.MyVm

open Lib

/-! ## Setting and clearing -/

/-- A `char` as the number that it is promoted to. -/
def signedChar (c : UInt8) : ℤ := if c.toNat < 128 then c.toNat else c.toNat - 256

variable {bm : Bytes} {i j n ms : ℕ}

/-- The shift of a negative `char` brings in ones from above, which the mask cuts off. -/
theorem signedChar_shift (c : UInt8) (hj : j < 8) :
    signedChar c / 2 ^ (8 - j - 1) % 2 = scanBit c j := by
  have hc := c.toNat_lt
  unfold signedChar scanBit
  rw [Nat.and_one_is_mod, Nat.shiftRight_eq_div_pow]
  generalize c.toNat = v at hc
  interval_cases j <;> split_ifs <;> norm_num <;> omega

theorem getBitAtIndex_set :
    getBitAtIndex (setBitAtIndex bm i) j = if j = i then 1 else getBitAtIndex bm j := by
  rw [getBitAtIndex_eq, getBitAtIndex_eq, setBitAtIndex_bit]
  by_cases hj : j = i
  · simp [hj]
  · simp [hj]

theorem getBitAtIndex_unset : getBitAtIndex (unsetBitAtIndex bm i) j =
    if j = i ∧ i < 8 then 0 else getBitAtIndex bm j := by
  rw [getBitAtIndex_eq, getBitAtIndex_eq, unsetBitAtIndex_bit]
  by_cases hj : j = i ∧ i < 8
  · simp [hj]
  · simp [hj]

/-- Bit `i` is set and cleared, no other bit is changed, and the scans read the bits of the byte at
`i` as `get_bit_at_index` does. -/
structure BitAlgebra (bm : Bytes) (i : ℕ) : Prop where
  set : ∀ j, getBitAtIndex (setBitAtIndex bm i) j = if j = i then 1 else getBitAtIndex bm j
  unset : ∀ j, getBitAtIndex (unsetBitAtIndex bm i) j = if j = i then 0 else getBitAtIndex bm j
  scan : ∀ j < 8, scanBit (bm i) j = getBitAtIndex bm (8 * i + j)

/-- The scans read the bit of index `8 * i + j` at position `j` of byte `i`. -/
theorem scanBit_byte (hj : j < 8) : scanBit (bm i) j = getBitAtIndex bm (8 * i + j) := by
  rw [← scanBit_eq, show (8 * i + j) / 8 = i by omega, show (8 * i + j) % 8 = j by omega]

/-- **The bitmap algebra** holds at an index exactly when it is below 8 or there is nothing to
clear. -/
theorem bit_algebra_iff (bm : Bytes) (i : ℕ) :
    BitAlgebra bm i ↔ i < 8 ∨ getBitAtIndex bm i = 0 := by
  constructor
  · intro h
    have hunset := h.unset i
    rw [getBitAtIndex_unset, if_pos rfl] at hunset
    by_cases hi : i < 8
    · exact .inl hi
    · rw [if_neg fun hh => hi hh.2] at hunset
      exact .inr hunset
  · intro h
    refine ⟨fun j => getBitAtIndex_set, fun j => ?_, fun j hj => scanBit_byte hj⟩
    rw [getBitAtIndex_unset]
    by_cases hj : j = i
    · subst hj
      rcases h with hlt | hclear
      · simp [hlt]
      · simp [hclear]
    · rw [if_neg fun hh => hj hh.1, if_neg hj]

/-- Bit 8 stays set. -/
theorem unset_keeps_bit_eight :
    getBitAtIndex (unsetBitAtIndex (setBitAtIndex Bytes.zero 8) 8) 8 = 1 ∧
      ¬ BitAlgebra (setBitAtIndex Bytes.zero 8) 8 := by
  have hkept : getBitAtIndex (unsetBitAtIndex (setBitAtIndex Bytes.zero 8) 8) 8 = 1 := by decide
  refine ⟨hkept, fun h => ?_⟩
  have hcleared := h.unset 8
  rw [hkept, if_pos rfl] at hcleared
  cases hcleared

/-! ## Free frames -/

/-- Frame `f` is covered by `phy_bitmap` and free. -/
def FreeFrame (bm : Bytes) (f : ℕ) : Prop := f < numFrames ∧ getBitAtIndex bm f = 0

instance {f : ℕ} : Decidable (FreeFrame bm f) := inferInstanceAs (Decidable (_ ∧ _))

/-- `fs` lists the `n` lowest free frames. -/
structure LowestFree (bm : Bytes) (n : ℕ) (fs : List ℕ) : Prop where
  length : fs.length = n
  sorted : fs.Pairwise (· < ·)
  free : ∀ f ∈ fs, FreeFrame bm f
  least : ∀ f, FreeFrame bm f → f ∉ fs → ∀ g ∈ fs, g < f

theorem filter_freeFrame : (List.range numFrames).filter (fun f => !isSet bm f) =
    (List.range numFrames).filter fun f => decide (FreeFrame bm f) := by
  refine List.filter_congr fun f hf => ?_
  rw [List.mem_range] at hf
  have hbit : FreeFrame bm f ↔ isSet bm f = false := by
    rw [FreeFrame, getBitAtIndex_eq, and_iff_right hf]
    cases isSet bm f <;> simp
  simp [hbit]

/-- The first elements of the list of all free frames are the lowest ones. -/
theorem lowestFree_take (hn : n ≤ ((List.range numFrames).filter
    fun f => decide (FreeFrame bm f)).length) :
    LowestFree bm n (((List.range numFrames).filter fun f => decide (FreeFrame bm f)).take n) := by
  have hsorted : ((List.range numFrames).filter fun f => decide (FreeFrame bm f)).Pairwise
      (· < ·) := List.pairwise_lt_range.filter _
  have hmem : ∀ f, f ∈ (List.range numFrames).filter (fun f => decide (FreeFrame bm f)) ↔
      FreeFrame bm f := fun f => by
    rw [List.mem_filter, List.mem_range, decide_eq_true_eq]
    exact and_iff_right_of_imp fun h => h.1
  generalize (List.range numFrames).filter (fun f => decide (FreeFrame bm f)) = l at hn hsorted hmem
  refine ⟨by simpa using hn, hsorted.sublist (List.take_sublist n l),
    fun f hf => (hmem f).1 (List.mem_of_mem_take hf), fun f hf hnot g hg => ?_⟩
  -- A free frame that is not taken comes later in the list.
  have hdrop : f ∈ l.drop n := by
    have hf' := (hmem f).2 hf
    rw [← List.take_append_drop n l, List.mem_append] at hf'
    exact hf'.resolve_left hnot
  rw [← List.take_append_drop n l, List.pairwise_append] at hsorted
  exact hsorted.2.2 g hg f hdrop

/-- **The lowest free frames.** `find_free_physical_page` is null exactly when there are too few
free frames, and otherwise returns the addresses of the lowest ones in order. -/
theorem lowest_free_frames (vm : Vm) (hn : 1 ≤ n) :
    (findFreePhysicalPage vm n = none ↔
      ((Finset.range numFrames).filter (FreeFrame vm.phyBitmap)).card < n) ∧
    ∀ pagePointers, findFreePhysicalPage vm n = some pagePointers →
      ∃ fs, LowestFree vm.phyBitmap n fs ∧
        pagePointers = fs.map fun f => vm.memoryStart + f * pgSize := by
  have hcard : ((Finset.range numFrames).filter (FreeFrame vm.phyBitmap)).card =
      ((List.range numFrames).filter fun f => decide (FreeFrame vm.phyBitmap f)).length := by
    rw [← List.toFinset_card_of_nodup (List.nodup_range.filter _), List.toFinset_filter,
      List.toFinset_range]
    simp
  rw [findFreePhysicalPage_eq hn, filter_freeFrame, hcard]
  dsimp only
  split_ifs with hle
  · refine ⟨by simpa using hle, fun pagePointers heq => ⟨_, lowestFree_take hle, ?_⟩⟩
    exact (Option.some.inj heq).symm
  · exact ⟨by simpa using hle, fun pagePointers heq => nomatch heq⟩

/-- With the frames 0 and 2 in use, the two lowest free frames are 1 and 3. -/
theorem lowest_free_frames_two : ∃ fs, LowestFree (fun b => if b = 0 then 160 else 0) 2 fs ∧
    [4096 + 65536, 4096 + 3 * 65536] = fs.map fun f => 4096 + f * pgSize :=
  (lowest_free_frames { Vm.start with
    memoryStart := 4096, phyBitmap := fun b => if b = 0 then 160 else 0 } (n := 2) (by decide)).2
    _ rfl

end UserOS.MyVm
