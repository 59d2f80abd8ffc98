import Mathlib.Data.Nat.Notation

/-!
# What free frames hold

Owners hold frames of a memory, of `s` bytes each. An allocator that hands out frames as they are
gives clear ones as long as frames without an owner are clear.

* `Cleared`: every frame without an owner holds `z` everywhere.
* `Cleared.step`: a frame that is free afterwards was free and is as before, or was cleared.
* `GrownFrames`: more frames are owned, and only the frames of some owners were written.
* `Cleared.new`: what such growth hands out to the other owners is clear.
-/

namespace UserOS.Lib

variable {ι β : Type*}

/-- Every frame without an owner holds `z` everywhere. -/
def Cleared (s : ℕ) (z : β) (frame : ℕ → Prop) (own : ι → Option ℕ) (mem : ℕ → β) : Prop :=
  ∀ a, frame a → (∀ i, own i ≠ some a) → ∀ k < s, mem (a + k) = z

/-- Who owns a frame keeps it. What is in frames that are not those of `writers` stays. -/
structure GrownFrames (s : ℕ) (frame : ℕ → Prop) (writers : ι → Prop) (own own' : ι → Option ℕ)
    (mem mem' : ℕ → β) : Prop where
  own : ∀ i a, own i = some a → own' i = some a
  mem : ∀ a, frame a → (∀ i, writers i → own' i ≠ some a) → ∀ k < s, mem' (a + k) = mem (a + k)

variable {s : ℕ} {z : β} {frame : ℕ → Prop} {writers : ι → Prop} {own own' own'' : ι → Option ℕ}
  {mem mem' mem'' : ℕ → β}

/-- A frame that is free afterwards was free and is as before, or was cleared. -/
theorem Cleared.step (h : Cleared s z frame own mem) (hstep : ∀ a, frame a →
      (∀ i, own' i ≠ some a) → (∀ k < s, mem' (a + k) = z) ∨
        (∀ i, own i ≠ some a) ∧ ∀ k < s, mem' (a + k) = mem (a + k)) :
    Cleared s z frame own' mem' := by
  intro a ha hfree k hk
  obtain hclear | ⟨hbefore, hsame⟩ := hstep a ha hfree
  · exact hclear k hk
  · rw [hsame k hk]
    exact h a ha hbefore k hk

namespace GrownFrames

theorem refl : GrownFrames s frame writers own own mem mem := ⟨fun _ _ h => h, fun _ _ _ _ _ => rfl⟩

theorem trans (h : GrownFrames s frame writers own own' mem mem')
    (h' : GrownFrames s frame writers own' own'' mem' mem'') :
    GrownFrames s frame writers own own'' mem mem'' where
  own i a hi := h'.own i a (h.own i a hi)
  mem a ha hun k hk := by
    rw [h'.mem a ha hun k hk]
    exact h.mem a ha (fun i hi heq => hun i hi (h'.own i a heq)) k hk

/-- Growth leaves free frames clear. -/
theorem cleared (hs : GrownFrames s frame writers own own' mem mem')
    (h : Cleared s z frame own mem) : Cleared s z frame own' mem' :=
  h.step fun a ha hfree => .inr ⟨fun i hi => hfree i (hs.own i a hi),
    hs.mem a ha fun i _ => hfree i⟩

/-- **A new frame is clear**, when its owner is not one who writes. -/
theorem new (hs : GrownFrames s frame writers own own' mem mem') (h : Cleared s z frame own mem)
    (hinj : ∀ i j a, own' i = some a → own' j = some a → i = j) {i : ι} {a k : ℕ}
    (ha : frame a) (hi : ¬writers i) (hold : own i = none) (hnew : own' i = some a)
    (hk : k < s) : mem' (a + k) = z := by
  rw [hs.mem a ha (fun j hj heq => hi (hinj j i a heq hnew ▸ hj)) k hk]
  refine h a ha (fun j hj => ?_) k hk
  obtain rfl := hinj j i a (hs.own j a hj) hnew
  rw [hold] at hj
  cases hj

end GrownFrames

end UserOS.Lib
