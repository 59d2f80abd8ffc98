import Mathlib.Data.List.Induction
import Mathlib.Logic.Function.Basic

/-!
# Trees of files

A tree says what each path leads to, a path being its names from the root: nothing, a directory, or
a file. The contents of a file are kept in pages, some of which may be missing.

* `FileTree.WellFormed`: what is there lies in a directory.
* `WellFormed.set_new`, `WellFormed.set_file`, `WellFormed.prune`: making, changing and removing.
* `WellFormed.prune_eq`: what is removed leaves no trace if it was not there before.
* `storePage_inside`, `storePage_outside`: storing into one page.
-/

namespace UserOS.Lib

variable {ν φ β : Type*}

/-! ## Trees -/

/-- What there is at a path: a directory, or a file. -/
inductive Node (φ : Type*)
  | dir
  | file (x : φ)

instance {o : Option (Node φ)} : Decidable (o = some .dir) :=
  match o with
  | some .dir => .isTrue rfl
  | some (.file _) | none => .isFalse nofun

instance {o : Option (Node φ)} : Decidable (∀ x, o ≠ some (.file x)) :=
  match o with
  | some (.file x) => .isFalse fun h => h x rfl
  | some .dir | none => .isTrue nofun

/-- What each path leads to. -/
abbrev FileTree (ν φ : Type*) := List ν → Option (Node φ)

namespace FileTree

/-- The root alone. -/
def root : FileTree ν φ
  | [] => some .dir
  | _ :: _ => none

/-- The names in a directory, each once. -/
def Lists (t : FileTree ν φ) (cs : List ν) (names : List ν) : Prop :=
  names.Nodup ∧ ∀ n, n ∈ names ↔ t (cs ++ [n]) ≠ none

/-- The root is a directory, and what is there lies in a directory. -/
structure WellFormed (t : FileTree ν φ) : Prop where
  root : t [] = some .dir
  parent : ∀ cs n, t (cs ++ [n]) ≠ none → t cs = some .dir

theorem WellFormed.root_tree : WellFormed (FileTree.root : FileTree ν φ) where
  root := rfl
  parent cs n h := by
    obtain ⟨m, ds, heq⟩ := List.exists_cons_of_ne_nil (List.append_ne_nil_of_right_ne_nil cs
      (List.cons_ne_nil n []))
    exact absurd (by rw [heq]; rfl) h

variable [DecidableEq ν] {t t' : FileTree ν φ} {cs ds : List ν} {n : ν} {x y : Node φ} {f g : φ}

/-- `x` is put at a path. -/
def set (t : FileTree ν φ) (cs : List ν) (x : Node φ) : FileTree ν φ :=
  Function.update t cs (some x)

/-- A path is removed, with all that go on from it. -/
def prune (t : FileTree ν φ) (cs : List ν) : FileTree ν φ :=
  fun ds => if cs <+: ds then none else t ds

@[simp] theorem set_self : t.set cs x cs = some x := Function.update_self ..

theorem set_of_ne (h : ds ≠ cs) : t.set cs x ds = t ds := Function.update_of_ne h ..

theorem prune_below (h : cs <+: ds) : t.prune cs ds = none := if_pos h

theorem prune_apart (h : ¬cs <+: ds) : t.prune cs ds = t ds := if_neg h

theorem set_eq_self (h : t cs = some x) : t.set cs x = t :=
  Function.update_eq_self_iff.2 h.symm

namespace WellFormed

/-- Below a path that leads nowhere or to a file, nothing is there. -/
theorem below (h : t.WellFormed) (hcs : t cs ≠ some .dir) (hpre : cs <+: ds) (hne : cs ≠ ds) :
    t ds = none := by
  induction ds using List.reverseRecOn with
  | nil => exact absurd (List.prefix_nil.1 hpre) hne
  | append_singleton ds n ih =>
    by_contra hsome
    have hdir := h.parent ds n hsome
    obtain heq | hpre := List.prefix_concat_iff.1 hpre
    · exact hne heq
    · by_cases hds : cs = ds
      · exact hcs (hds ▸ hdir)
      · rw [ih hpre hds] at hdir
        cases hdir

/-- **Making.** -/
theorem set_new (h : t.WellFormed) (hdir : t cs = some .dir) (hnone : t (cs ++ [n]) = none) :
    (t.set (cs ++ [n]) x).WellFormed where
  root := (set_of_ne (by simp)).trans h.root
  parent ds m hm := by
    have hds : t ds = some .dir := by
      by_cases heq : ds ++ [m] = cs ++ [n]
      · rwa [(List.append_inj' heq rfl).1]
      · exact h.parent ds m (by rwa [set_of_ne heq] at hm)
    rwa [set_of_ne fun heq => by rw [heq, hnone] at hds; cases hds]

/-- **Changing a file.** -/
theorem set_file (h : t.WellFormed) (hfile : t cs = some (.file f)) :
    (t.set cs (.file g)).WellFormed where
  root := (set_of_ne fun heq => by rw [← heq, h.root] at hfile; cases hfile).trans h.root
  parent ds m hm := by
    have hds : t ds = some .dir := by
      by_cases heq : ds ++ [m] = cs
      · exact h.parent ds m (by rw [heq, hfile]; exact Option.some_ne_none _)
      · exact h.parent ds m (by rwa [set_of_ne heq] at hm)
    rwa [set_of_ne fun heq => by rw [heq, hfile] at hds; cases hds]

/-- **Removing.** -/
theorem prune (h : t.WellFormed) (hne : cs ≠ []) : (t.prune cs).WellFormed where
  root := (prune_apart fun hpre => hne (List.prefix_nil.1 hpre)).trans h.root
  parent ds m hm := by
    have hpre : ¬cs <+: ds ++ [m] := fun hpre => hm (prune_below hpre)
    rw [prune_apart hpre] at hm
    rw [prune_apart fun hpre' => hpre (hpre'.trans (List.prefix_append ds [m]))]
    exact h.parent ds m hm

/-- **Removing what was not there before** undoes all that has changed below it. -/
theorem prune_eq (h : t.WellFormed) (hnone : t cs = none)
    (hsame : ∀ ds, ¬cs <+: ds → t' ds = t ds) : t'.prune cs = t := by
  funext ds
  by_cases hpre : cs <+: ds
  · rw [prune_below hpre]
    by_cases heq : cs = ds
    · rw [← heq, hnone]
    · exact (h.below (by rw [hnone]; exact nofun) hpre heq).symm
  · rw [prune_apart hpre, hsame ds hpre]

end WellFormed

end FileTree

/-! ## Pages -/

/-- The first `n` bytes of a buffer are stored from `offset` on, within one page of `s` bytes. In a
page that was missing the other bytes are `z`. -/
def storePage (s : ℕ) (z : β) (f : ℕ → Option β) (buffer : ℕ → β) (n offset : ℕ) :
    ℕ → Option β := fun o =>
  if n ≠ 0 ∧ o / s = offset / s then
    if offset ≤ o ∧ o < offset + n then some (buffer (o - offset)) else some ((f o).getD z)
  else f o

variable {s n o j offset : ℕ} {z b : β} {f : ℕ → Option β} {buffer : ℕ → β}

@[simp] theorem storePage_zero : storePage s z f buffer 0 offset = f :=
  funext fun _ => if_neg fun h => h.1 rfl

/-- A range within one page. -/
theorem div_add (h : offset % s + n ≤ s) (hj : j < n) : (offset + j) / s = offset / s := by
  have hs : 0 < s := by omega
  have hlt : offset % s + j < s := by omega
  conv_lhs => rw [← Nat.div_add_mod offset s, Nat.add_assoc, Nat.mul_add_div hs,
    Nat.div_eq_of_lt hlt, Nat.add_zero]

/-- What has been stored is there. -/
theorem storePage_inside (h : offset % s + n ≤ s) (hj : j < n) :
    storePage s z f buffer n offset (offset + j) = some (buffer j) := by
  unfold storePage
  rw [if_pos ⟨by omega, div_add h hj⟩, if_pos (by omega), Nat.add_sub_cancel_left]

/-- What was there besides stays. -/
theorem storePage_outside (ho : o < offset ∨ offset + n ≤ o) (hb : f o = some b) :
    storePage s z f buffer n offset o = some b := by
  unfold storePage
  split
  next =>
    rw [if_neg (by omega), hb, Option.getD_some]
  next => exact hb

end UserOS.Lib
