import UserOS.Rufs.Consistency
import UserOS.Rufs.LongNames

/-!
# Making that fails

`rufs_mkdir` and `rufs_create` take an inode, and `rufs_mkdir` a data block, before they add the
name, and give nothing back when they fail afterwards.

* `create_keeps_iff`: when a call leaves the disk alone if it fails.
-/

namespace UserOS.Rufs

open Lib

/-- The bitmaps, the inodes and the data blocks are the same. -/
structure SameDisk (fs fs' : Fs) : Prop where
  inodeBits : fs'.inodeBit = fs.inodeBit
  dataBits : fs'.dataBit = fs.dataBit
  inodes : ∀ j < maxInum, readi fs' j = readi fs j
  blocks : ∀ k : ℕ, k < maxDnum →
    bioRead fs'.disk (fs.super .dStartBlk + k) = bioRead fs.disk (fs.super .dStartBlk + k)

/-- A call that returns a negative value leaves the disk alone. -/
def KeepsWhenFailing (fs : Fs) (call : Option (ℤ × Fs)) : Prop :=
  ∀ r fs', call = some (r, fs') → r < 0 → SameDisk fs fs'

/-- The call ends before anything is taken: the parent is not found, or no inode is free. -/
def NothingTaken (fs : Fs) (path : CString) : Prop :=
  pathIno fs (dirname path) 0 = some none ∨ ∀ i < maxInum, fs.inodeBit i = true

/-- The name is not in the parent, which has a free entry. -/
def RoomFor (fs : Fs) (path : CString) : Prop :=
  ∃ q, pathIno fs (dirname path) 0 = some (some q) ∧ dirFind fs q (basename path) = none ∧
    ∃ j < maxDirEntries, validAt (fs.table q) j = false

variable {disk : Disk} {fs fs₁ : Fs} {env : Env} {T : Finset ℕ} {i k q mode : ℕ} {n path : CString}

theorem SameDisk.refl (fs : Fs) : SameDisk fs fs := ⟨rfl, rfl, fun _ _ => rfl, fun _ _ => rfl⟩

/-- A directory in use has its table in a data block. -/
theorem Inv.tableAt (h : Inv fs.view T) (hm : fs.Mounted) (hq : q ∈ T)
    (hd : IsDir (fs.view.slot q)) :
    ∃ k, TableAt q k fs := by
  obtain ⟨k, hk, hptr, -⟩ := h.table hq hd
  have ht := h.tracked q hq
  have hread := readi_eq_of_mem h hm hq
  exact ⟨k, hm, ht.lt, hk, by rw [hread, ht.ino], by rw [hread, hptr]⟩

/-- There is room when `dir_add` does not refuse the name. -/
theorem roomFor_iff (hat : TableAt q k fs) (hpath : pathIno fs (dirname path) 0 = some (some q)) :
    RoomFor fs path ↔ ¬Refused fs q k (basename path) := by
  unfold RoomFor Refused Fs.table
  rw [hpath, not_or, not_not, maxDirEntries_eq]
  push Not
  constructor
  · intro ⟨q', hq', hfind, j, hj, hfree⟩
    obtain rfl : q = q' := by simpa using hq'
    rw [hat.ptr] at hfree
    exact ⟨hfind, j, hj, by simp [hfree]⟩
  · intro ⟨hfind, j, hj, hfree⟩
    refine ⟨q, rfl, hfind, j, hj, ?_⟩
    rw [hat.ptr]
    simpa using hfree

/-- Taking an inode or a block does not change what `dir_add` refuses. -/
theorem refused_congr (hslot : readi fs₁ q = readi fs q)
    (hblk : bioRead fs₁.disk (67 + k) = bioRead fs.disk (67 + k)) (hat : TableAt q k fs) :
    Refused fs₁ q k n ↔ Refused fs q k n := by
  have hat₁ : dirFind fs₁ q n = dirFind fs q n :=
    dirFind_congr hslot (by rw [hat.ptr]; exact hblk)
  unfold Refused
  rw [hat₁, hblk]

/-! ## What is taken -/

/-- An inode is given out, and the parent directory is found. -/
structure InodeTaken (fs : Fs) (path : CString) (q k i : ℕ) (fs₁ : Fs) : Prop where
  parent : pathIno fs (dirname path) 0 = some (some q)
  table : TableAt q k fs
  lt : i < 1024
  pos : i ≠ 0
  free : fs.view.ibit i = false
  eq : getAvailIno fs = ((i : ℤ), fs₁)
  mounted : fs₁.Mounted
  view : fs₁.view = fs.view.takeInode i

/-- **Nothing is taken**, or an inode is. -/
theorem taken_cases (h : Inv fs.view T) (hm : fs.Mounted) (hp : PathOk path)
    (hdirs : PrefixDirs fs path) :
    (NothingTaken fs path ∧ (∃ r, rufsCreate env fs path mode = some (r, fs)) ∧
      ∃ r, rufsMkdir env fs path = some (r, fs)) ∨
    ∃ q k i fs₁, InodeTaken fs path q k i fs₁ := by
  unfold rufsCreate rufsMkdir
  obtain hpar | ⟨q, hat, hd, hpar⟩ := parent_cases h hm hp hdirs
  · rw [hpar]
    refine .inl ⟨.inl ?_, ⟨_, rfl⟩, _, rfl⟩
    unfold getNodeByPath at hpar
    obtain ⟨r, hr, hnone⟩ := Option.map_eq_some_iff.1 hpar
    rw [hr, Option.map_eq_none_iff.1 hnone]
  · obtain ⟨i, hi, fs₁, ⟨hfree, -⟩, hget, hm₁, hview⟩ | ⟨hget, hall⟩ := getAvailIno_cases hm
    · obtain ⟨k, hk⟩ := h.tableAt hm (hat.mem h) hd
      refine .inr ⟨q, k, i, fs₁, ?_, hk, hi, (ne_zero_of_free h hfree).2, hfree, hget, hm₁, hview⟩
      obtain ⟨hnames, hpre, -⟩ := hdirs.parent h hm hp
      rw [pathIno_eq (isAbsolute_dirname hp.absolute), (walkPath_eq_some h hm hnames hpre).2 hat]
    · rw [hpar, hget]
      refine .inl ⟨.inr fun i hi => ?_, ⟨_, rfl⟩, _, rfl⟩
      rw [inodeBit_eq hm]
      exact hall i hi

namespace InodeTaken

variable {fs₂ : Fs}

theorem node (h : InodeTaken fs path q k i fs₁) :
    getNodeByPath fs (dirname path) 0 = some (some (readi fs q)) := by
  unfold getNodeByPath
  rw [h.parent]
  rfl

/-- Something has been taken. -/
theorem not_nothing (h : InodeTaken fs path q k i fs₁) : ¬NothingTaken fs path := by
  rintro (hnone | hall)
  · rw [h.parent] at hnone
    cases hnone
  · have hbit := hall i h.lt
    rw [inodeBit_eq h.table.mounted, h.free] at hbit
    cases hbit

/-- The inode stays taken, when nothing is done about it. -/
theorem not_same (h : InodeTaken fs path q k i fs₁) (hm : fs₂.Mounted)
    (hbit : fs₂.view.ibit = fs₁.view.ibit) : ¬SameDisk fs fs₂ := by
  intro hsame
  have hi := congrFun hsame.inodeBits i
  rw [inodeBit_eq hm, inodeBit_eq h.table.mounted, h.free, hbit, h.view, View.takeInode_ibit,
    Function.update_self] at hi
  cases hi

/-- The parent directory is as before, whatever has been taken. -/
theorem kept (h : InodeTaken fs path q k i fs₁) (hm : fs₂.Mounted)
    (hslot : fs₂.view.slot = fs₁.view.slot) (hblk : fs₂.view.blk = fs₁.view.blk) :
    readi fs₂ q = readi fs q ∧ TableAt q k fs₂ ∧
      (Refused fs₂ q k (basename path) ↔ ¬RoomFor fs path) := by
  obtain ⟨hm₀, hq, hk, hino, hptr⟩ := h.table
  have hread : readi fs₂ q = readi fs q := by
    rw [readi_eq hm hq, readi_eq hm₀ hq, hslot, h.view, View.takeInode_slot]
  have hb : bioRead fs₂.disk (67 + k) = bioRead fs.disk (67 + k) := by
    rw [bioRead_blk hk rfl, bioRead_blk hk rfl, hblk, h.view, View.takeInode_blk]
  refine ⟨hread, ⟨hm, hq, hk, by rw [hread, hino], by rw [hread, hptr]⟩, ?_⟩
  rw [refused_congr hread hb h.table, roomFor_iff h.table h.parent, not_not]

end InodeTaken

/-! ## The operations -/

/-- `rufs_create` after an inode has been taken. -/
theorem InodeTaken.create_iff (h : InodeTaken fs path q k i fs₁) :
    KeepsWhenFailing fs (rufsCreate env fs path mode) ↔ RoomFor fs path := by
  obtain ⟨hread, hat, hiff⟩ := h.kept h.mounted rfl rfl
  have hpos := h.pos
  unfold rufsCreate
  rw [h.node, Option.map_some, h.eq, ← hread]
  dsimp only
  rw [if_neg (by omega), Int.toNat_natCast]
  by_cases hr : Refused fs₁ q k (basename path)
  · obtain ⟨r, hneg, hadd⟩ := @TableAt.dirAdd_refused fs₁ env (basename path) q k i hat hr
    rw [hadd]
    dsimp only
    rw [if_pos (by omega)]
    refine ⟨fun hkeeps => ?_, fun hroom => absurd hroom (hiff.1 hr)⟩
    exact absurd (hkeeps r fs₁ rfl hneg) (h.not_same h.mounted rfl)
  · obtain ⟨j, -, fs₂, -, hadd, -⟩ := @TableAt.dirAdd_eq fs₁ env (basename path) q k i hat hr
    rw [hadd]
    refine ⟨fun _ => not_not.1 (mt hiff.2 hr), fun _ r fs' heq hneg => ?_⟩
    dsimp only at heq
    rw [if_neg (by decide), Option.some.injEq, Prod.mk.injEq] at heq
    omega

/-- `rufs_mkdir` after an inode has been taken. -/
theorem InodeTaken.mkdir_iff (h : InodeTaken fs path q k i fs₁) :
    KeepsWhenFailing fs (rufsMkdir env fs path) ↔
      RoomFor fs path ∧ ∃ k < maxDnum, fs.dataBit k = false := by
  have hpos := h.pos
  have hdbit : fs₁.view.dbit = fs.dataBit := by
    rw [h.view, dataBit_eq h.table.mounted]
    rfl
  unfold rufsMkdir
  rw [h.node, Option.map_some, h.eq]
  dsimp only
  rw [if_neg (by omega), Int.toNat_natCast]
  obtain ⟨d, hd, fs₂, hfree, hget, hm₂, hview₂⟩ | ⟨hget, hall⟩ := getAvailBlkno_cases h.mounted <;>
    rw [hget] <;> dsimp only
  · rw [hdbit] at hfree
    have hibit : fs₂.view.ibit = fs₁.view.ibit := by
      rw [hview₂]
      rfl
    obtain ⟨hread, hat, hiff⟩ := h.kept hm₂ (by rw [hview₂]; rfl) (by rw [hview₂]; rfl)
    rw [if_neg (by omega), ← hread]
    by_cases hr : Refused fs₂ q k (basename path)
    · obtain ⟨r, hneg, hadd⟩ := @TableAt.dirAdd_refused fs₂ env (basename path) q k i hat hr
      rw [hadd]
      dsimp only
      rw [if_pos (by omega)]
      refine ⟨fun hkeeps => ?_, fun hroom => absurd hroom.1 (hiff.1 hr)⟩
      exact absurd (hkeeps r fs₂ rfl hneg) (h.not_same hm₂ hibit)
    · obtain ⟨j, -, fs₃, -, hadd, -⟩ := @TableAt.dirAdd_eq fs₂ env (basename path) q k i hat hr
      rw [hadd]
      refine ⟨fun _ => ⟨not_not.1 (mt hiff.2 hr), d, hd, hfree⟩, fun _ r fs' heq hneg => ?_⟩
      dsimp only at heq
      rw [if_neg (by decide), Option.some.injEq, Prod.mk.injEq] at heq
      omega
  · rw [if_pos (by decide)]
    refine ⟨fun hkeeps => ?_, fun ⟨_, d, hd, hfree⟩ => ?_⟩
    · exact absurd (hkeeps _ fs₁ rfl (by decide)) (h.not_same h.mounted rfl)
    · have hbit := hall d hd
      rw [hdbit, hfree] at hbit
      cases hbit

/-- **Failing leaves no trace** if and only if the call fails before it takes anything, or does not
fail: an inode, and for `rufs_mkdir` a data block, stay taken when the name is there, the parent
directory is full or no data block is left. -/
theorem create_keeps_iff (h : Reached disk fs) (hp : PathOk path) (hdirs : PrefixDirs fs path) :
    (KeepsWhenFailing fs (rufsCreate env fs path mode) ↔ NothingTaken fs path ∨ RoomFor fs path) ∧
    (KeepsWhenFailing fs (rufsMkdir env fs path) ↔
      NothingTaken fs path ∨ RoomFor fs path ∧ ∃ k < maxDnum, fs.dataBit k = false) := by
  obtain ⟨hm, -, T, hinv⟩ := h.spec
  obtain ⟨hnothing, ⟨r, hcreate⟩, r', hmkdir⟩ | ⟨q, k, i, fs₁, htaken⟩ :=
    @taken_cases fs env T mode path hinv hm hp hdirs
  · refine ⟨iff_of_true (fun r' fs' heq _ => ?_) (.inl hnothing),
      iff_of_true (fun r'' fs' heq _ => ?_) (.inl hnothing)⟩
    · rw [hcreate, Option.some.injEq, Prod.mk.injEq] at heq
      exact heq.2 ▸ .refl fs
    · rw [hmkdir, Option.some.injEq, Prod.mk.injEq] at heq
      exact heq.2 ▸ .refl fs
  · have hnot := htaken.not_nothing
    rw [htaken.create_iff, htaken.mkdir_iff]
    exact ⟨(or_iff_right hnot).symm, (or_iff_right hnot).symm⟩

/-- A file is made in a directory that does not exist, and the call fails. -/
theorem create_keeps_iff_missing : ∃ (fs fs' : Fs) (r : ℤ),
    rufsCreate still fs [47, 100, 47, 102] 0 = some (r, fs') ∧ r < 0 ∧
    KeepsWhenFailing fs (rufsCreate still fs [47, 100, 47, 102] 0) := by
  obtain ⟨fs, hreached, hfs⟩ := reached_of_any Bytes.zero still [(still, .create [47, 102] 0)]
    (fun fs => decide (Passed fs [47, 100, 47, 102]) &&
      (pathIno fs (dirname [47, 100, 47, 102]) 0 == some none) &&
      (rufsCreate still fs [47, 100, 47, 102] 0).any fun r : ℤ × Fs => decide (r.1 < 0))
    (by decide +kernel)
  simp only [Bool.and_eq_true, decide_eq_true_eq, beq_iff_eq, Option.any_eq_true] at hfs
  obtain ⟨⟨hp, hi⟩, ⟨r, fs'⟩, hcall, hneg⟩ := hfs
  exact ⟨fs, fs', r, hcall, hneg, (create_keeps_iff hreached hp.ok hp.dirs).1.2 (.inl (.inl hi))⟩

/-- A file is made twice. -/
theorem create_keeps_leak : ¬∀ (fs : Fs) (path : CString) (mode : ℕ), Reached Bytes.zero fs →
    Passed fs path → KeepsWhenFailing fs (rufsCreate still fs path mode) := by
  intro hall
  obtain ⟨fs, hreached, hfs⟩ := reached_of_any Bytes.zero still [(still, .create [47, 102] 0)]
    (fun fs => decide (Passed fs [47, 102]) && !fs.inodeBit 2 &&
      (rufsCreate still fs [47, 102] 0).any fun r : ℤ × Fs => decide (r.1 < 0) && r.2.inodeBit 2)
    (by decide +kernel)
  simp only [Bool.and_eq_true, decide_eq_true_eq, Option.any_eq_true, Bool.not_eq_true'] at hfs
  obtain ⟨⟨hp, hfree⟩, ⟨r, fs'⟩, hcall, hneg, hbit⟩ := hfs
  have hsame := hall fs [47, 102] 0 hreached hp r fs' hcall hneg
  rw [congrFun hsame.inodeBits 2, hfree] at hbit
  cases hbit

end UserOS.Rufs
