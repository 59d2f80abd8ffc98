import Mathlib.Data.Finset.Card

/-!
# Exclusive ownership

Owners hold resources of a common pool. `Exclusive own used` says that no resource has two owners
and that every resource owned is marked used. The rules follow what programs do: an owner
acquires a resource that was not in use, or lets one go, and a marking may grow, or shrink where
nothing is owned.
-/

namespace UserOS.Lib

variable {ι ρ : Type*} {own own' : ι → Option ρ} {used used' : ρ → Prop}

/-- No resource has two owners, and every resource owned is in use. -/
structure Exclusive (own : ι → Option ρ) (used : ρ → Prop) : Prop where
  inj : ∀ {i j : ι} {r : ρ}, own i = some r → own j = some r → i = j
  used : ∀ {i : ι} {r : ρ}, own i = some r → used r

namespace Exclusive

/-- Owning less, and marking at least what is still owned. -/
theorem shrink (h : Exclusive own used) (hown : ∀ i r, own' i = some r → own i = some r)
    (hused : ∀ i r, own' i = some r → used' r) : Exclusive own' used' where
  inj hi hj := h.inj (hown _ _ hi) (hown _ _ hj)
  used hi := hused _ _ hi

theorem mono (h : Exclusive own used) (hused : ∀ r, used r → used' r) : Exclusive own used' :=
  h.shrink (fun _ _ hi => hi) fun _ _ hi => hused _ (h.used hi)

/-- **Acquiring.** An owner may take a resource that nobody owns. -/
theorem acquire [DecidableEq ι] (h : Exclusive own used) {i : ι} {r : ρ} (hr : ∀ j, own j ≠ some r)
    (hmono : ∀ x, used x → used' x) (hr' : used' r) :
    Exclusive (Function.update own i (some r)) used' where
  inj {j k x} hj hk := by
    by_cases hji : j = i <;> by_cases hki : k = i
    · rw [hji, hki]
    · subst hji
      rw [Function.update_self, Option.some.injEq] at hj
      rw [Function.update_of_ne hki] at hk
      exact absurd (hj ▸ hk) (hr k)
    · subst hki
      rw [Function.update_self, Option.some.injEq] at hk
      rw [Function.update_of_ne hji] at hj
      exact absurd (hk ▸ hj) (hr j)
    · rw [Function.update_of_ne hji] at hj
      rw [Function.update_of_ne hki] at hk
      exact h.inj hj hk
  used {j x} hj := by
    by_cases hji : j = i
    · subst hji
      rw [Function.update_self, Option.some.injEq] at hj
      exact hj ▸ hr'
    · rw [Function.update_of_ne hji] at hj
      exact hmono x (h.used hj)

/-- What is not in use has no owner. -/
theorem not_owned (h : Exclusive own used) {r : ρ} (hr : ¬ used r) (j : ι) : own j ≠ some r :=
  fun hj => hr (h.used hj)

/-- Distinct owners hold distinct resources. -/
theorem ne (h : Exclusive own used) {i j : ι} {r s : ρ} (hi : own i = some r) (hj : own j = some s)
    (hij : i ≠ j) : r ≠ s := fun hrs => hij (h.inj hi (hrs ▸ hj))

/-- Owners of resources in `t` are no more than `t` has. -/
theorem card_le (h : Exclusive own used) {s : Finset ι} {t : Finset ρ}
    (hs : ∀ i ∈ s, ∃ r ∈ t, own i = some r) : s.card ≤ t.card := by
  have hle : s.card ≤ (t.map .some).card := by
    refine Finset.card_le_card_of_injOn own (fun i hi => ?_) fun i hi j _ heq => ?_
    · obtain ⟨r, hr, hown⟩ := hs i hi
      exact Finset.mem_map.2 ⟨r, hr, hown.symm⟩
    · obtain ⟨r, -, hown⟩ := hs i hi
      exact h.inj hown (heq ▸ hown)
  rwa [Finset.card_map] at hle

end Exclusive

end UserOS.Lib
