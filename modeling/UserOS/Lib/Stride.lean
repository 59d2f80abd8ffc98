import Mathlib.Algebra.BigOperators.Group.Finset.Basic

/-!
# Work split by stride

A loop that starts at `n` and advances by `T` visits the indices that are `n` modulo `T`. `T` such
loops, from `0`, …, `T - 1` on, share the indices out.

* `mem_stride`: the indices that a loop visits.
* `sum_stride`: the loops together visit every index once.
-/

namespace UserOS.Lib

open Finset

/-- The indices from `i` on that a loop with stride `T` and bound `N` visits in `fuel` rounds. -/
def strideLoop (T N : ℕ) : ℕ → ℕ → List ℕ
  | 0, _ => []
  | fuel + 1, i => if i < N then i :: strideLoop T N fuel (i + T) else []

/-- The indices of `for (i = n; i < N; i += T)`, which takes at most `N` rounds. -/
def stride (T n N : ℕ) : List ℕ := strideLoop T N N n

variable {T N n i : ℕ}

theorem mem_strideLoop (hT : 0 < T) (fuel : ℕ) :
    ∀ {k : ℕ}, N ≤ k + fuel → (i ∈ strideLoop T N fuel k ↔ k ≤ i ∧ i < N ∧ i % T = k % T) := by
  induction fuel with
  | zero =>
    intro k hk
    simp only [strideLoop, List.not_mem_nil, false_iff]
    omega
  | succ fuel ih =>
    intro k hk
    rw [strideLoop]
    split_ifs with hlt
    · rw [List.mem_cons, ih (by omega), Nat.add_mod_right]
      constructor
      · rintro (rfl | ⟨h1, h2, h3⟩)
        · exact ⟨le_rfl, hlt, rfl⟩
        · exact ⟨by omega, h2, h3⟩
      · rintro ⟨h1, h2, h3⟩
        by_cases heq : i = k
        · exact .inl heq
        · -- The next index with the same remainder is `T` further on.
          have hdvd : T ∣ i - k := Nat.dvd_of_mod_eq_zero (Nat.sub_mod_eq_zero_of_mod_eq h3)
          have hle := Nat.le_of_dvd (by omega) hdvd
          exact .inr ⟨by omega, h2, h3⟩
    · simp only [List.not_mem_nil, false_iff]
      omega

/-- **One loop** visits the indices that are `n` modulo `T`. -/
theorem mem_stride (hn : n < T) : i ∈ stride T n N ↔ i < N ∧ i % T = n := by
  rw [stride, mem_strideLoop (by omega) N (by omega), Nat.mod_eq_of_lt hn]
  constructor
  · exact fun h => h.2
  · intro h
    exact ⟨h.2 ▸ Nat.mod_le i T, h⟩

theorem nodup_strideLoop (hT : 0 < T) (fuel : ℕ) :
    ∀ {k : ℕ}, N ≤ k + fuel → (strideLoop T N fuel k).Nodup := by
  induction fuel with
  | zero => exact fun _ => List.nodup_nil
  | succ fuel ih =>
    intro k hk
    rw [strideLoop]
    split_ifs with hlt
    · refine List.nodup_cons.2 ⟨fun hmem => ?_, ih (by omega)⟩
      have hle := ((mem_strideLoop hT fuel (by omega)).1 hmem).1
      omega
    · exact List.nodup_nil

theorem nodup_stride (hT : 0 < T) : (stride T n N).Nodup := nodup_strideLoop hT N (by omega)

/-- **All loops** together visit every index below `N` once. -/
theorem sum_stride {M : Type*} [AddCommMonoid M] (hT : 0 < T) (f : ℕ → M) :
    ∑ n ∈ range T, ((stride T n N).map f).sum = ∑ i ∈ range N, f i := by
  have hmaps : ∀ i ∈ range N, i % T ∈ range T := fun i _ => mem_range.2 (Nat.mod_lt i hT)
  refine Eq.trans (sum_congr rfl fun n hn => ?_) (sum_fiberwise_of_maps_to hmaps f)
  have hset : (stride T n N).toFinset = (range N).filter (· % T = n) := by
    ext i
    rw [List.mem_toFinset, mem_stride (mem_range.1 hn), mem_filter, mem_range]
  rw [← hset, List.sum_toFinset f (nodup_stride hT)]

end UserOS.Lib
