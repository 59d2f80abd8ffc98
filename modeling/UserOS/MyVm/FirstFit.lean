import UserOS.MyVm.Tables

/-!
# First fit

`get_next_avail` counts the free pages of a run and compares the count with the length asked for
only at a free page that goes on with a run. A single page is therefore found only when the page
above it is free too.

* `FirstFit`: what a first-fit search returns.
* `first_fit_iff`: the scan is first fit except for single pages that stand alone.
-/

namespace UserOS.MyVm

open Lib

/-- The pointer that `get_next_avail` returns. The address of page 0 is the null pointer. -/
def availPointer (vm : Vm) (numPages : ℕ) : ℕ := (getNextAvail vm numPages).getD 0

/-- `r` is the address of the lowest run of `n` free pages, or null when there is none. -/
structure FirstFit (bm : Bytes) (n r : ℕ) : Prop where
  lowest : ∀ p, IsLeast {p | FreeRun bm p n} p → r = p * pgSize
  null : (∀ p, ¬ FreeRun bm p n) → r = 0

/-- The lowest free page has a free neighbour above it. When page 0 is the lowest free page, its
address is null, which is also the result when no two neighbours are free. -/
def LowestPaired (bm : Bytes) : Prop :=
  ∀ p, IsLeast {p | FreeRun bm p 1} p →
    FreeRun bm p 2 ∨ p = 0 ∧ ∀ q, ¬ FreeRun bm q 2

variable {vm : Vm} {n : ℕ}

/-- A scan for more than one page asks for the right length. -/
theorem firstFit_of_two_le (hn : 2 ≤ n) : FirstFit vm.virtBitmap n (availPointer vm n) := by
  have hspec := getNextAvail_eq vm (show 0 < n by omega)
  rw [max_eq_left hn] at hspec
  unfold availPointer
  rcases hspec with ⟨p, hp, hret⟩ | ⟨hnone, hret⟩
  · exact ⟨fun q hq => by rw [hret, hq.unique hp]; rfl, fun hno => absurd hp.1 (hno p)⟩
  · exact ⟨fun q hq => absurd hq.1 (hnone q), fun _ => by rw [hret]; rfl⟩

/-- A scan for one page asks for two. -/
theorem firstFit_one_iff :
    FirstFit vm.virtBitmap 1 (availPointer vm 1) ↔ LowestPaired vm.virtBitmap := by
  have hspec := getNextAvail_eq vm Nat.one_pos
  rw [max_eq_right (by decide)] at hspec
  unfold availPointer
  rcases hspec with ⟨q, hq, hret⟩ | ⟨hnone, hret⟩
  · -- The pair at `q` is the result.
    rw [hret, Option.getD_some]
    constructor
    · intro hfit p hp
      have hqp : q = p := Nat.eq_of_mul_eq_mul_right (by decide) (hfit.lowest p hp)
      exact .inl (hqp ▸ hq.1)
    · intro hpair
      refine ⟨fun p hp => ?_, fun hno => absurd (hq.1.mono (by decide)) (hno q)⟩
      rcases hpair p hp with hp2 | ⟨-, hnone⟩
      · rw [le_antisymm (hq.2 hp2) (hp.2 (hq.1.mono (by decide)))]
      · exact absurd hq.1 (hnone q)
  · -- There is no pair.
    rw [hret, Option.getD_none]
    constructor
    · intro hfit p hp
      have hp0 : 0 = p := Nat.eq_of_mul_eq_mul_right (by decide)
        ((Nat.zero_mul pgSize).trans (hfit.lowest p hp))
      exact .inr ⟨hp0.symm, hnone⟩
    · intro hpair
      refine ⟨fun p hp => ?_, fun _ => rfl⟩
      rcases hpair p hp with hp2 | ⟨rfl, -⟩
      · exact absurd hp2 (hnone p)
      · rw [Nat.zero_mul]

/-- **First fit.** `get_next_avail` is first fit exactly when more than one page is asked for or
the lowest free page is not alone. -/
theorem first_fit_iff (vm : Vm) {n : ℕ} (hn : 0 < n) :
    FirstFit vm.virtBitmap n (availPointer vm n) ↔ 2 ≤ n ∨ LowestPaired vm.virtBitmap := by
  rcases Nat.lt_or_ge 1 n with hn2 | hn1
  · exact iff_of_true (firstFit_of_two_le hn2) (.inl hn2)
  · obtain rfl : n = 1 := by omega
    rw [firstFit_one_iff]
    simp

/-- The pages 0 and 2 are in use. -/
def loneFree : Vm := { Vm.start with virtBitmap := fun b => if b = 0 then 160 else 0 }

/-- Two pages beside them: the scan is first fit. -/
theorem first_fit_used : 0 < 2 ∧ isSet loneFree.virtBitmap 0 = true ∧
    isSet loneFree.virtBitmap 2 = true ∧
    FirstFit loneFree.virtBitmap 2 (availPointer loneFree 2) :=
  ⟨by decide, by decide, by decide, (first_fit_iff loneFree (by decide)).2 (.inl le_rfl)⟩

theorem loneFree_isSet (i : ℕ) : isSet loneFree.virtBitmap i = decide (i = 0 ∨ i = 2) := by
  by_cases hi : i < 8
  · have hlow : ∀ i < 8, isSet loneFree.virtBitmap i = decide (i = 0 ∨ i = 2) := by decide
    exact hlow i hi
  · have hbyte : i / 8 ≠ 0 := by omega
    have hne : ¬ (i = 0 ∨ i = 2) := by omega
    simp [isSet, bit, loneFree, hbyte, hne]

/-- The scan for one page passes over the free page 1, between two pages in use. -/
theorem lone_page_skipped : availPointer loneFree 1 = 3 * pgSize ∧
    IsLeast {p | FreeRun loneFree.virtBitmap p 1} 1 ∧
    ¬ FirstFit loneFree.virtBitmap 1 (availPointer loneFree 1) := by
  have hone : IsLeast {p | FreeRun loneFree.virtBitmap p 1} 1 := by
    refine ⟨⟨by decide, fun i h1 h2 => ?_⟩, fun p hp => ?_⟩
    · rw [loneFree_isSet]
      simp only [decide_eq_false_iff_not]
      omega
    · have hfree := hp.free p le_rfl (by omega)
      rw [loneFree_isSet] at hfree
      simp only [decide_eq_false_iff_not] at hfree
      omega
  have htwo : IsLeast {p | FreeRun loneFree.virtBitmap p 2} 3 := by
    refine ⟨⟨by decide, fun i h1 h2 => ?_⟩, fun p hp => ?_⟩
    · rw [loneFree_isSet]
      simp only [decide_eq_false_iff_not]
      omega
    · have h0 := hp.free p le_rfl (by omega)
      have h1 := hp.free (p + 1) (by omega) (by omega)
      rw [loneFree_isSet] at h0 h1
      simp only [decide_eq_false_iff_not] at h0 h1
      omega
  have hret : availPointer loneFree 1 = 3 * pgSize := by
    rcases getNextAvail_eq loneFree Nat.one_pos with ⟨p, hp, hret⟩ | ⟨hnone, -⟩
    · rw [availPointer, hret, hp.unique htwo]
      rfl
    · exact absurd htwo.1 (hnone 3)
  refine ⟨hret, hone, fun hfit => ?_⟩
  have h1 := hfit.lowest 1 hone
  rw [hret] at h1
  revert h1
  decide

end UserOS.MyVm
