import Mathlib.Data.Finset.Basic
import UserOS.Lib.Ownership
import UserOS.Rufs.Table
import UserOS.Rufs.View

/-!
# Inodes, blocks and names

The inodes in use own their data blocks, and are named by entries of directories. `Inv v T` says
that the inodes `T` are in order: no block has two owners, no inode two names, and what is owned or
named is marked in the bitmaps. An inode of `T` need not have a name.

* `View.own`, `View.children`: who owns a block, and who names an inode.
* `Inv`: the invariant.
* `At.unique`: an inode has at most one path.
-/

namespace UserOS.Rufs

open Lib

/-! ## Owners -/

/-- Where an inode keeps a block number: in a direct pointer, an indirect pointer, or a word of an
indirect block. -/
inductive Ref
  | direct (k : ℕ)
  | indirect (k : ℕ)
  | entry (k j : ℕ)
  deriving DecidableEq, Repr

/-- -1 is the null pointer. -/
def nonNull (p : ℤ) : Option ℤ := if p = -1 then none else some p

/-- The inode is a directory. -/
def IsDir (x : Inode) : Prop := get x .type = 1

instance {x : Inode} : Decidable (IsDir x) := inferInstanceAs (Decidable (_ = _))

namespace View

/-- The data block with number `p`. -/
def block (v : View) (p : ℤ) : Bytes := v.blk (p - 67).toNat

/-- The table of directory `i`. -/
def table (v : View) (i : ℕ) : Bytes := v.block (direct (v.slot i) 0)

/-- The block that the inode keeps at a place. -/
def names (v : View) (x : Inode) : Ref → Option ℤ
  | .direct k => if k < 16 then nonNull (Rufs.direct x k) else none
  | .indirect k => if k < 8 then nonNull (Rufs.indirect x k) else none
  | .entry k j =>
    if k < 8 ∧ j < 1024 ∧ Rufs.indirect x k ≠ -1 then
      nonNull ((v.block (Rufs.indirect x k)).getInt (4 * j))
    else none

/-- The blocks of the inodes `T`. -/
def own (v : View) (T : Finset ℕ) (o : ℕ × Ref) : Option ℤ :=
  if o.1 ∈ T then v.names (v.slot o.1) o.2 else none

/-- The block lies in the data region and is marked. -/
def Used (v : View) (p : ℤ) : Prop := ∃ k : ℕ, k < 16384 ∧ p = 67 + k ∧ v.dbit k = true

/-- The inodes that the directories of `T` name in their entries after the first two. -/
def children (v : View) (T : Finset ℕ) (o : ℕ × ℕ) : Option ℕ :=
  if o.1 ∈ T ∧ IsDir (v.slot o.1) ∧ 2 ≤ o.2 ∧ o.2 < 19 ∧ validAt (v.table o.1) o.2 = true then
    some (inoAt (v.table o.1) o.2)
  else none

/-- A directory has one block, which is a table. -/
structure DirOk (v : View) (i : ℕ) : Prop where
  ptr : direct (v.slot i) 0 ≠ -1
  direct : ∀ k, 0 < k → k < 16 → direct (v.slot i) k = -1
  indirect : ∀ k < 8, indirect (v.slot i) k = -1
  table : TableOk (v.table i)

/-- An inode in use. The word after its indirect pointers is a null pointer. -/
structure Tracked (v : View) (i : ℕ) : Prop where
  lt : i < 1024
  ibit : v.ibit i = true
  ino : get (v.slot i) .ino = i
  past : Rufs.indirect (v.slot i) 8 = -1
  kind : get (v.slot i) .type = 0 ∨ IsDir (v.slot i)
  dir : IsDir (v.slot i) → v.DirOk i

end View

/-- **The invariant** of the inodes `T`. -/
structure Inv (v : View) (T : Finset ℕ) : Prop where
  root : 0 ∈ T ∧ IsDir (v.slot 0)
  tracked : ∀ i ∈ T, v.Tracked i
  blocks : Exclusive (v.own T) v.Used
  tree : Exclusive (v.children T) fun c => c ∈ T ∧ c ≠ 0

variable {v v' : View} {T : Finset ℕ} {x y : Inode} {i j k c q : ℕ} {p : ℤ} {r : Ref}

theorem nonNull_eq_some {p q : ℤ} : nonNull p = some q ↔ p ≠ -1 ∧ p = q := by
  unfold nonNull
  split <;> simp [*]

theorem nonNull_eq_none {p : ℤ} : nonNull p = none ↔ p = -1 := by
  unfold nonNull
  split <;> simp [*]

@[simp] theorem View.block_add (v : View) (k : ℕ) : v.block (67 + k) = v.blk k := by
  unfold View.block
  rw [show (67 + (k : ℤ) - 67).toNat = k by omega]

theorem names_direct (hk : k < 16) : v.names x (.direct k) = nonNull (direct x k) := if_pos hk

theorem names_indirect (hk : k < 8) : v.names x (.indirect k) = nonNull (indirect x k) := if_pos hk

theorem names_entry (hk : k < 8) (hj : j < 1024) (hne : indirect x k ≠ -1) :
    v.names x (.entry k j) = nonNull ((v.block (indirect x k)).getInt (4 * j)) :=
  if_pos ⟨hk, hj, hne⟩

/-- The pointers of the two inodes are the same. -/
structure SamePtrs (x y : Inode) : Prop where
  direct : ∀ k < 16, direct y k = direct x k
  indirect : ∀ k ≤ 8, indirect y k = indirect x k

/-- The names depend on the pointers and the indirect blocks. -/
theorem names_congr (hp : SamePtrs x y)
    (hb : ∀ k < 8, indirect x k ≠ -1 → v'.block (indirect x k) = v.block (indirect x k)) :
    v'.names y = v.names x := by
  funext r
  cases r with
  | direct k =>
    refine if_congr_both fun hk => ?_
    rw [hp.direct k hk]
  | indirect k =>
    refine if_congr_both fun hk => ?_
    rw [hp.indirect k (by omega)]
  | entry k j =>
    simp only [View.names]
    by_cases hk : k < 8
    · rw [hp.indirect k (by omega)]
      refine if_congr_both fun hh => ?_
      rw [hb k hk hh.2.2]
    · rw [if_neg fun hh => hk hh.1, if_neg fun hh => hk hh.1]

theorem SamePtrs.refl (x : Inode) : SamePtrs x x := ⟨fun _ _ => rfl, fun _ _ => rfl⟩

/-! ## The invariant's parts -/

namespace Inv

/-- An owned block lies in the data region and is marked. -/
theorem used (h : Inv v T) (hi : i ∈ T) (hr : v.names (v.slot i) r = some p) : v.Used p :=
  h.blocks.used (i := (i, r)) ((if_pos hi).trans hr)

/-- Places that keep the same block are the same. -/
theorem owner (h : Inv v T) {s : Ref} (hi : i ∈ T) (hj : j ∈ T)
    (hr : v.names (v.slot i) r = some p) (hs : v.names (v.slot j) s = some p) : i = j ∧ r = s := by
  have hown := h.blocks.inj (i := (i, r)) (j := (j, s)) ((if_pos hi).trans hr)
      ((if_pos hj).trans hs)
  exact ⟨congrArg Prod.fst hown, congrArg Prod.snd hown⟩

theorem child (h : Inv v T) (hc : v.children T (i, k) = some c) : c ∈ T ∧ c ≠ 0 := h.tree.used hc

/-- The table of a directory is the block of its first direct pointer. -/
theorem table (h : Inv v T) (hi : i ∈ T) (hd : IsDir (v.slot i)) :
    ∃ k : ℕ, k < 16384 ∧ direct (v.slot i) 0 = 67 + k ∧ v.dbit k = true ∧ v.table i = v.blk k ∧
      v.names (v.slot i) (.direct 0) = some (67 + (k : ℤ)) := by
  have hptr := ((h.tracked i hi).dir hd).ptr
  have hname : v.names (v.slot i) (.direct 0) = some (direct (v.slot i) 0) :=
    (names_direct (by decide)).trans (nonNull_eq_some.2 ⟨hptr, rfl⟩)
  obtain ⟨k, hk, heq, hbit⟩ := h.used hi hname
  refine ⟨k, hk, heq, hbit, ?_, heq ▸ hname⟩
  unfold View.table
  rw [heq, View.block_add]

end Inv

theorem children_eq_some : v.children T (i, k) = some c ↔
    (i ∈ T ∧ IsDir (v.slot i) ∧ 2 ≤ k ∧ k < 19 ∧ validAt (v.table i) k = true) ∧
      inoAt (v.table i) k = c := by
  unfold View.children
  rw [Option.ite_none_right_eq_some, Option.some.injEq]

/-! ## Paths -/

/-- The inode has the path, from the root along the entries of directories. -/
inductive At (v : View) (T : Finset ℕ) : List CString → ℕ → Prop
  | root : At v T [] 0
  | child {cs : List CString} {i k c : ℕ} : At v T cs i → v.children T (i, k) = some c →
      At v T (cs ++ [nameAt (v.table i) k]) c

namespace At

variable {cs ds : List CString} {n : CString}

theorem mem (h : Inv v T) (hat : At v T cs i) : i ∈ T := by
  cases hat with
  | root => exact h.root.1
  | child _ hc => exact (h.child hc).1

theorem snoc_inv (hat : At v T (cs ++ [n]) c) : ∃ i k, At v T cs i ∧
    v.children T (i, k) = some c ∧ nameAt (v.table i) k = n := by
  generalize heq : cs ++ [n] = ds at hat
  cases hat with
  | root => simp at heq
  | child hat' hc =>
    obtain ⟨rfl, hn⟩ := List.append_inj' heq rfl
    exact ⟨_, _, hat', hc, (List.singleton_inj.1 hn).symm⟩

/-- **One path.** An inode has at most one. -/
theorem unique (h : Inv v T) (hat : At v T cs i) (hat' : At v T ds i) : cs = ds := by
  induction hat generalizing ds with
  | root =>
    generalize heq : 0 = i at hat'
    cases hat' with
    | root => rfl
    | child _ hc => exact absurd heq.symm (h.child hc).2
  | child hat hc ih =>
    cases hat' with
    | root => exact absurd rfl (h.child hc).2
    | child hat' hc' =>
      have hplace := h.tree.inj hc hc'
      rw [Prod.mk.injEq] at hplace
      obtain ⟨rfl, rfl⟩ := hplace
      rw [ih hat']

/-- A path leads to one inode. -/
theorem inode (h : Inv v T) (hat : At v T cs i) (hat' : At v T cs j) : i = j := by
  induction hat generalizing j with
  | root =>
    generalize heq : ([] : List CString) = ds at hat'
    cases hat' with
    | root => rfl
    | child _ _ => simp at heq
  | child hat hc ih =>
    obtain ⟨i', k', hat', hc', hname⟩ := hat'.snoc_inv
    obtain rfl := ih hat'
    rw [children_eq_some] at hc hc'
    obtain ⟨⟨hi, hd, h2, h19, hv⟩, rfl⟩ := hc
    obtain ⟨⟨-, -, -, h19', hv'⟩, rfl⟩ := hc'
    rw [((h.tracked _ hi).dir hd).table.inj _ h19 _ h19' hv hname.symm]

end At

end UserOS.Rufs
