import Mathlib.Logic.Relation
import Mathlib.Tactic.Simps.Basic
import UserOS.Rufs.Calls

/-!
# What the disk holds

On a mounted disk, block 0 is the superblock, blocks 1 and 2 are the bitmaps, blocks 3 to 66 hold
the inodes and the data blocks follow. The view of a state is what these regions say, with the
counters.

* `writei_view`, `bioWrite_view`: each region is written on its own.
* `getAvailIno_cases`, `getAvailBlkno_cases`, `clearInode_view`, `clearDataBlock_view`: what the
  helpers change.
* `View.Step`: the six changes that all operations consist of.
-/

namespace UserOS.Rufs

open Lib

/-- The regions of the disk, and the counters. -/
structure View where
  boot : Bytes
  ibit : ℕ → Bool
  dbit : ℕ → Bool
  slot : ℕ → Inode
  blk : ℕ → Bytes
  inodesUsed : BitVec 32
  inodesCleared : BitVec 32
  blocksUsed : BitVec 32
  blocksCleared : BitVec 32

/-- The view of a state of a mounted disk. -/
def Fs.view (fs : Fs) : View where
  boot := fs.disk.slice 0 4096
  ibit := bit id (fs.disk.slice 4096 4096)
  dbit := bit id (fs.disk.slice 8192 4096)
  slot i := if i < 1024 then fs.disk.slice (12288 + 256 * i) 256 else Bytes.zero
  blk k := fs.disk.slice ((67 + k) * 4096) 4096
  inodesUsed := fs.totalInodesUsed
  inodesCleared := fs.totalInodesCleared
  blocksUsed := fs.dataBlocksUsed
  blocksCleared := fs.dataBlocksCleared

/-- The superblock in memory is the one that `rufs_mkfs` writes. -/
def Fs.Mounted (fs : Fs) : Prop := fs.superBlock = newSuperBlock

namespace View

/-! ## Changes -/

/-- Inode `i` is given out. -/
@[simps -fullyApplied] def takeInode (v : View) (i : ℕ) : View :=
  { v with ibit := Function.update v.ibit i true, inodesUsed := v.inodesUsed + 1 }

/-- Data block `k` is given out. -/
@[simps -fullyApplied] def takeBlock (v : View) (k : ℕ) : View :=
  { v with dbit := Function.update v.dbit k true, blocksUsed := v.blocksUsed + 1 }

/-- Inode `i` is given back. -/
@[simps -fullyApplied] def dropInode (v : View) (i : ℕ) : View :=
  { v with ibit := Function.update v.ibit i false, inodesCleared := v.inodesCleared + 1 }

/-- Data block `k` is cleared and given back. -/
@[simps -fullyApplied] def dropBlock (v : View) (k : ℕ) : View :=
  { v with
    dbit := Function.update v.dbit k false
    blk := Function.update v.blk k Bytes.zero
    blocksCleared := v.blocksCleared + 1 }

/-- Inode `i` is stored. -/
@[simps -fullyApplied] def setSlot (v : View) (i : ℕ) (x : Inode) : View :=
  { v with slot := Function.update v.slot i x }

/-- Data block `k` is stored. -/
@[simps -fullyApplied] def setBlk (v : View) (k : ℕ) (b : Bytes) : View :=
  { v with blk := Function.update v.blk k b }

theorem setSlot_setSlot {v : View} {i : ℕ} {x y : Inode} :
    (v.setSlot i x).setSlot i y = v.setSlot i y := by
  unfold setSlot
  rw [Function.update_idem]

theorem setSlot_comm {v : View} {i j : ℕ} {x y : Inode} (h : i ≠ j) :
    (v.setSlot i x).setSlot j y = (v.setSlot j y).setSlot i x := by
  unfold setSlot
  rw [Function.update_comm h]

theorem setBlk_comm {v : View} {i j : ℕ} {b c : Bytes} (h : i ≠ j) :
    (v.setBlk i b).setBlk j c = (v.setBlk j c).setBlk i b := by
  unfold setBlk
  rw [Function.update_comm h]

/-- One change. What is given out was free, what is given back was not, and only blocks that are
given out are written. -/
inductive Step : View → View → Prop
  | takeInode {v : View} {i : ℕ} : i < 1024 → v.ibit i = false → Step v (v.takeInode i)
  | takeBlock {v : View} {k : ℕ} : k < 16384 → v.dbit k = false → Step v (v.takeBlock k)
  | dropInode {v : View} {i : ℕ} : i < 1024 → v.ibit i = true → Step v (v.dropInode i)
  | dropBlock {v : View} {k : ℕ} : k < 16384 → v.dbit k = true → Step v (v.dropBlock k)
  | setSlot {v : View} {i : ℕ} {x : Inode} : i < 1024 → Step v (v.setSlot i x)
  | setBlk {v : View} {k : ℕ} {b : Bytes} : k < 16384 → v.dbit k = true → Step v (v.setBlk k b)

/-- Any number of changes. -/
abbrev Steps : View → View → Prop := Relation.ReflTransGen Step

end View

variable {fs : Fs} {i k now : ℕ} {x : Inode} {b : Bytes} {p : ℤ}

/-! ## Regions -/

/-- Writing to the disk does not change the superblock in memory. -/
theorem Fs.Mounted.setDisk (hm : fs.Mounted) (d : Disk) : Fs.Mounted { fs with disk := d } := hm

theorem super_iBitmapBlk (hm : fs.Mounted) : fs.super .iBitmapBlk = 1 := by
  unfold Fs.super
  rw [hm]
  decide

theorem super_dBitmapBlk (hm : fs.Mounted) : fs.super .dBitmapBlk = 2 := by
  unfold Fs.super
  rw [hm]
  decide

theorem super_iStartBlk (hm : fs.Mounted) : fs.super .iStartBlk = 3 := by
  unfold Fs.super
  rw [hm]
  decide

theorem super_dStartBlk (hm : fs.Mounted) : fs.super .dStartBlk = 67 := by
  unfold Fs.super
  rw [hm]
  decide

/-- The block of an inode. -/
theorem inodeBlock (hm : fs.Mounted) :
    fs.super .iStartBlk + i / inodesPerBlock = ((3 + i / 16 : ℕ) : ℤ) := by
  rw [super_iStartBlk hm, show inodesPerBlock = 16 from rfl]
  push_cast
  rfl

theorem readi_eq (hm : fs.Mounted) (hi : i < 1024) : readi fs i = fs.view.slot i := by
  unfold readi inodeOffset inodeSize
  rw [inodeBlock hm, bioRead_eq (by omega) (by omega), Int.toNat_natCast,
    show inodesPerBlock = 16 from rfl, Bytes.slice_slice (by omega)]
  simp only [Fs.view, if_pos hi]
  congr 1
  omega

theorem if_congr_both {α : Type*} {c : Prop} [Decidable c] {a a' z : α} (h : c → a = a') :
    (if c then a else z) = if c then a' else z := by
  split
  next hc => exact h hc
  next => rfl

/-- An inode as `writei` stores it. -/
def stored (now : ℕ) (x : Inode) : Inode := (set x .stCtime now).slice 0 256

theorem writei_view (hm : fs.Mounted) (hi : i < 1024) :
    (writei fs now i x).view = fs.view.setSlot i (stored now x) := by
  have hdisk : writei fs now i x =
      { fs with disk := fs.disk.copy (12288 + 256 * i) (set x .stCtime now) 0 256 } := by
    unfold writei inodeOffset inodeSize
    rw [if_neg (by unfold maxInum; omega), inodeBlock hm]
    dsimp only
    rw [bioRead_eq (by omega) (by omega), bioWrite_eq (by omega) (by omega), Int.toNat_natCast,
      show inodesPerBlock = 16 from rfl, Bytes.copy_slice_copy (by omega),
      show (3 + i / 16) * 4096 + i % 16 * 256 = 12288 + 256 * i by omega]
  rw [hdisk]
  unfold Fs.view View.setSlot stored
  congr 1
  · exact Bytes.slice_copy_of_disjoint (by omega)
  · rw [Bytes.slice_copy_of_disjoint (by omega)]
  · rw [Bytes.slice_copy_of_disjoint (by omega)]
  · funext j
    by_cases hj : j = i
    · rw [hj, Function.update_self, if_pos hi, Bytes.slice_copy_self]
    · rw [Function.update_of_ne hj]
      refine if_congr_both fun hlt => ?_
      exact Bytes.slice_copy_of_disjoint (by omega)
  · funext j
    exact Bytes.slice_copy_of_disjoint (by omega)

theorem writei_mounted (hm : fs.Mounted) : (writei fs now i x).Mounted := by
  unfold writei
  split <;> exact hm

theorem bioRead_blk (hk : k < 16384) (hp : p = 67 + k) : bioRead fs.disk p = fs.view.blk k := by
  subst hp
  rw [bioRead_eq (by omega) (by omega), show (67 + (k : ℤ)).toNat = 67 + k by omega]
  rfl

theorem bioWrite_view (hk : k < 16384) (hp : p = 67 + k) :
    Fs.view { fs with disk := bioWrite fs.disk p b } = fs.view.setBlk k (b.slice 0 4096) := by
  subst hp
  rw [bioWrite_eq (by omega) (by omega), show (67 + (k : ℤ)).toNat = 67 + k by omega]
  unfold Fs.view View.setBlk
  congr 1
  · exact Bytes.slice_copy_of_disjoint (by omega)
  · rw [Bytes.slice_copy_of_disjoint (by omega)]
  · rw [Bytes.slice_copy_of_disjoint (by omega)]
  · funext j
    refine if_congr_both fun hlt => ?_
    exact Bytes.slice_copy_of_disjoint (by omega)
  · funext j
    by_cases hj : j = k
    · rw [hj, Function.update_self, Bytes.slice_copy_self]
    · rw [Function.update_of_ne hj]
      exact Bytes.slice_copy_of_disjoint (by omega)

/-! ## The boot block and the bitmaps -/

theorem setBitmap_slice {d : Disk} {o : ℕ} (hi : i < 32768) :
    Bytes.slice (setBitmap (d.slice o 4096) i) 0 4096 = setBitmap (d.slice o 4096) i :=
  Bytes.slice_update (by omega)

theorem unsetBitmap_slice {d : Disk} {o : ℕ} (hi : i < 32768) :
    Bytes.slice (unsetBitmap (d.slice o 4096) i) 0 4096 = unsetBitmap (d.slice o 4096) i :=
  Bytes.slice_update (by omega)

theorem bit_setBitmap : bit id (setBitmap b i) = Function.update (bit id b) i true := by
  funext j
  rw [setBitmap_bit]
  by_cases hj : j = i
  · simp [hj]
  · simp [hj]

theorem bit_unsetBitmap : bit id (unsetBitmap b i) = Function.update (bit id b) i false := by
  funext j
  rw [unsetBitmap_bit]
  by_cases hj : j = i
  · simp [hj]
  · simp [hj]

theorem bioRead_ibit : bioRead fs.disk 1 = fs.disk.slice 4096 4096 := by
  rw [bioRead_eq (by decide) (by decide)]
  rfl

theorem bioRead_dbit : bioRead fs.disk 2 = fs.disk.slice 8192 4096 := by
  rw [bioRead_eq (by decide) (by decide)]
  rfl

/-- The boot block is written. -/
theorem boot_view (fs : Fs) (b : Bytes) :
    Fs.view { fs with disk := bioWrite fs.disk 0 b } = { fs.view with boot := b.slice 0 4096 } := by
  rw [bioWrite_eq (by decide) (by decide), show (0 : ℤ).toNat * 4096 = 0 from rfl]
  unfold Fs.view
  congr 1
  · exact Bytes.slice_copy_self
  · rw [Bytes.slice_copy_of_disjoint (by omega)]
  · rw [Bytes.slice_copy_of_disjoint (by omega)]
  · funext j
    refine if_congr_both fun hlt => ?_
    exact Bytes.slice_copy_of_disjoint (by omega)
  · funext j
    exact Bytes.slice_copy_of_disjoint (by omega)

/-- The inode bitmap is written. -/
theorem ibit_view (fs : Fs) {b : Bytes} (hb : b.slice 0 4096 = b) :
    Fs.view { fs with disk := bioWrite fs.disk 1 b } = { fs.view with ibit := bit id b } := by
  rw [bioWrite_eq (by decide) (by decide), show (1 : ℤ).toNat * 4096 = 4096 from rfl]
  unfold Fs.view
  congr 1
  · exact Bytes.slice_copy_of_disjoint (by omega)
  · rw [Bytes.slice_copy_self, hb]
  · rw [Bytes.slice_copy_of_disjoint (by omega)]
  · funext j
    refine if_congr_both fun hlt => ?_
    exact Bytes.slice_copy_of_disjoint (by omega)
  · funext j
    exact Bytes.slice_copy_of_disjoint (by omega)

/-- The data bitmap is written. -/
theorem dbit_view (fs : Fs) {b : Bytes} (hb : b.slice 0 4096 = b) :
    Fs.view { fs with disk := bioWrite fs.disk 2 b } = { fs.view with dbit := bit id b } := by
  rw [bioWrite_eq (by decide) (by decide), show (2 : ℤ).toNat * 4096 = 8192 from rfl]
  unfold Fs.view
  congr 1
  · exact Bytes.slice_copy_of_disjoint (by omega)
  · rw [Bytes.slice_copy_of_disjoint (by omega)]
  · rw [Bytes.slice_copy_self, hb]
  · funext j
    refine if_congr_both fun hlt => ?_
    exact Bytes.slice_copy_of_disjoint (by omega)
  · funext j
    exact Bytes.slice_copy_of_disjoint (by omega)

/-! ## The helpers -/

/-- **`get_avail_ino`** gives out the first free inode. -/
theorem getAvailIno_cases (hm : fs.Mounted) :
    (∃ i < 1024, ∃ fs', (fs.view.ibit i = false ∧ ∀ j < i, fs.view.ibit j = true) ∧
      getAvailIno fs = ((i : ℤ), fs') ∧ fs'.Mounted ∧ fs'.view = fs.view.takeInode i) ∨
    getAvailIno fs = (-1, fs) ∧ ∀ i < 1024, fs.view.ibit i = true := by
  have hbit : ∀ i, getBitmap (bioRead fs.disk 1) i = fs.view.ibit i := fun i => by
    rw [getBitmap_eq, bioRead_ibit]
    rfl
  unfold getAvailIno
  rw [super_iBitmapBlk hm]
  dsimp only
  cases hfind : firstFrom (fun i => !getBitmap (bioRead fs.disk 1) i) maxInum 0 with
  | none =>
    have hnone := firstFrom_eq_none.1 hfind
    refine .inr ⟨rfl, fun i hi => ?_⟩
    have := hnone i (Nat.zero_le i) (by unfold maxInum; omega)
    simpa [hbit] using this
  | some i =>
    obtain ⟨-, hlt, hfree, hfirst⟩ := firstFrom_eq_some.1 hfind
    have hi : i < 1024 := by
      unfold maxInum at hlt
      omega
    have hfirst' : ∀ j < i, fs.view.ibit j = true := fun j hj => by
      simpa [hbit] using hfirst j (Nat.zero_le j) hj
    refine .inl ⟨i, hi, _, ⟨by simpa [hbit] using hfree, hfirst'⟩, rfl, hm, ?_⟩
    have hview := @ibit_view fs (setBitmap (bioRead fs.disk 1) i) (by
      rw [bioRead_ibit]
      exact setBitmap_slice (by omega))
    rw [bit_setBitmap, bioRead_ibit] at hview
    exact congrArg (fun v : View => { v with inodesUsed := fs.totalInodesUsed + 1 }) hview

/-- **`get_avail_blkno`** gives out the first free data block. -/
theorem getAvailBlkno_cases (hm : fs.Mounted) :
    (∃ k < 16384, ∃ fs', fs.view.dbit k = false ∧ getAvailBlkno fs = (67 + (k : ℤ), fs') ∧
      fs'.Mounted ∧ fs'.view = fs.view.takeBlock k) ∨
    getAvailBlkno fs = (-1, fs) ∧ ∀ k < 16384, fs.view.dbit k = true := by
  have hbit : ∀ i, getBitmap (bioRead fs.disk 2) i = fs.view.dbit i := fun i => by
    rw [getBitmap_eq, bioRead_dbit]
    rfl
  unfold getAvailBlkno
  rw [super_dBitmapBlk hm, super_dStartBlk hm]
  dsimp only
  cases hfind : firstFrom (fun i => !getBitmap (bioRead fs.disk 2) i) maxDnum 0 with
  | none =>
    have hnone := firstFrom_eq_none.1 hfind
    refine .inr ⟨rfl, fun i hi => ?_⟩
    have := hnone i (Nat.zero_le i) (by unfold maxDnum; omega)
    simpa [hbit] using this
  | some i =>
    obtain ⟨-, hlt, hfree, -⟩ := firstFrom_eq_some.1 hfind
    have hi : i < 16384 := by
      unfold maxDnum at hlt
      omega
    refine .inl ⟨i, hi, _, by simpa [hbit] using hfree, rfl, hm, ?_⟩
    have hview := @dbit_view fs (setBitmap (bioRead fs.disk 2) i) (by
      rw [bioRead_dbit]
      exact setBitmap_slice (by omega))
    rw [bit_setBitmap, bioRead_dbit] at hview
    exact congrArg (fun v : View => { v with blocksUsed := fs.dataBlocksUsed + 1 }) hview

/-- **`clear_inode`.** -/
theorem clearInode_view (hm : fs.Mounted) (hi : i < 1024) : (clearInode fs now i).Mounted ∧
    (clearInode fs now i).view =
      (fs.view.setSlot i (stored now (clearedInode (fs.view.slot i)))).dropInode i := by
  have hm' := @writei_mounted fs i now (clearedInode (readi fs i)) hm
  have hw := @writei_view fs i now (clearedInode (readi fs i)) hm hi
  refine ⟨hm', ?_⟩
  unfold clearInode
  dsimp only
  rw [super_iBitmapBlk hm']
  generalize writei fs now i (clearedInode (readi fs i)) = fs₁ at hm' hw
  have hview := @ibit_view fs₁ (unsetBitmap (bioRead fs₁.disk 1) i) (by
    rw [bioRead_ibit]
    exact unsetBitmap_slice (by omega))
  rw [bit_unsetBitmap, bioRead_ibit] at hview
  rw [← readi_eq hm hi, ← hw]
  exact congrArg (fun v : View => { v with inodesCleared := fs₁.totalInodesCleared + 1 }) hview

/-- **`clear_data_block`.** -/
theorem clearDataBlock_view (hm : fs.Mounted) (hk : k < 16384) (hp : p = 67 + k) :
    (clearDataBlock fs p).Mounted ∧ (clearDataBlock fs p).view = fs.view.dropBlock k := by
  refine ⟨hm, ?_⟩
  have hw := @bioWrite_view fs k Bytes.zero p hk hp
  unfold clearDataBlock
  dsimp only
  rw [super_dBitmapBlk hm, super_dStartBlk hm, hp, show (67 + (k : ℤ) - 67).toNat = k by omega,
    ← hp]
  have hzero : Bytes.slice Bytes.zero 0 4096 = Bytes.zero := by
    funext j
    unfold Bytes.slice
    split <;> rfl
  rw [hzero] at hw
  generalize bioWrite fs.disk p Bytes.zero = disk at hw
  have hview := @dbit_view { fs with disk := disk } (unsetBitmap (bioRead disk 2) k) (by
    rw [show bioRead disk 2 = _ from @bioRead_dbit { fs with disk := disk }]
    exact unsetBitmap_slice (by omega))
  rw [bit_unsetBitmap, show bioRead disk 2 = _ from @bioRead_dbit { fs with disk := disk },
    hw] at hview
  have hdbit : bit id (disk.slice 8192 4096) = fs.view.dbit := congrArg View.dbit hw
  refine (congrArg
    (fun v : View => { v with blocksCleared := fs.dataBlocksCleared + 1 }) hview).trans
    ?_
  dsimp only
  rw [hdbit]
  rfl

end UserOS.Rufs
