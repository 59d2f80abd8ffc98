import Mathlib.Data.List.Dedup

/-!
# Recency

The distinct elements of a history, the most recent first, and what the most recent `k` of them
become at one more access.

* `recent_concat`: an access moves its element to the front.
* `recent_take_concat`: among the most recent `k`, an element that is not there takes the place of
  the last when there are `k`.
-/

namespace UserOS.Lib

variable {α : Type*} [DecidableEq α]

/-- The distinct elements of a history, the most recent first. -/
def recent (ps : List α) : List α := ps.dedup.reverse

variable {ps : List α} {p : α} {k : ℕ}

@[simp] theorem mem_recent : p ∈ recent ps ↔ p ∈ ps := by simp [recent]

theorem dedup_concat (ps : List α) (p : α) : (ps ++ [p]).dedup = ps.dedup.erase p ++ [p] := by
  induction ps with
  | nil => rfl
  | cons q ps ih =>
    rw [List.cons_append, List.dedup_cons, List.dedup_cons]
    by_cases hqp : q = p
    · subst hqp
      rw [if_pos (by simp), ih]
      split_ifs with hq
      · rfl
      · rw [List.erase_cons_head, List.erase_of_not_mem (by simpa using hq)]
    · have hmem : q ∈ ps ++ [p] ↔ q ∈ ps := by simp [hqp]
      rw [if_congr hmem rfl rfl, ih]
      split_ifs
      · rfl
      · rw [List.erase_cons_tail (by simpa using hqp), List.cons_append]

/-- An access moves its element to the front. -/
theorem recent_concat (ps : List α) (p : α) : recent (ps ++ [p]) = p :: (recent ps).erase p := by
  have hnd := List.nodup_dedup ps
  rw [recent, dedup_concat, List.reverse_append, List.reverse_singleton, List.singleton_append,
    recent, hnd.erase_eq_filter, (List.nodup_reverse.2 hnd).erase_eq_filter, List.filter_reverse]

theorem take_erase (l : List α) (p : α) (k : ℕ) : (l.erase p).take k =
    if p ∈ l.take (k + 1) then (l.take (k + 1)).erase p else l.take k := by
  induction l generalizing k with
  | nil => simp
  | cons q l ih =>
    by_cases hqp : q = p
    · subst hqp
      simp
    rw [List.erase_cons_tail (by simpa using hqp), List.take_succ_cons]
    cases k with
    | zero => simp [Ne.symm hqp]
    | succ k =>
      have hmem : p ∈ q :: l.take (k + 1) ↔ p ∈ l.take (k + 1) := by simp [Ne.symm hqp]
      rw [List.take_succ_cons, ih, if_congr hmem rfl rfl, List.take_succ_cons]
      split_ifs
      · rw [List.erase_cons_tail (by simpa using hqp)]
      · rfl

/-- **Least recently used.** One more access, as the most recent `k + 1` elements see it. -/
theorem recent_take_concat (ps : List α) (p : α) (k : ℕ) :
    (recent (ps ++ [p])).take (k + 1) = p ::
      if p ∈ (recent ps).take (k + 1) then ((recent ps).take (k + 1)).erase p
      else (recent ps).take k := by
  rw [recent_concat, List.take_succ_cons, take_erase]

end UserOS.Lib
