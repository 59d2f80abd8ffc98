import UserOS.Rufs.Consistency

/-!
# Mounting again

`rufs_init` on a disk that is there allocates the superblock, and never reads it. All its fields are
0: the bitmaps, the inodes and the data are looked for from block 0 on.

* `remount_loses`: no file system survives.
-/

namespace UserOS.Rufs

open Lib

/-- The state `fs'` shows the same file system as `fs`. -/
structure Persists (fs fs' : Fs) : Prop where
  inodes : ∀ q, IsAbsolute q → pathIno fs' q 0 = pathIno fs q 0
  nodes : ∀ q x x', IsAbsolute q → getNodeByPath fs q 0 = some (some x) →
    getNodeByPath fs' q 0 = some (some x') →
    get x' .type = get x .type ∧ get x' .size = get x .size ∧
      SamePtrs x x'
  bytes : ∀ env q buffer size offset, IsAbsolute q →
    (rufsRead env fs' q buffer size offset).map (fun r => (r.1, r.2.1)) =
      (rufsRead env fs q buffer size offset).map (fun r => (r.1, r.2.1))
  freeInode : ∀ i : ℕ, (getAvailIno fs').1 = i → fs.inodeBit i = false
  freeBlock : ∀ k : ℕ, (getAvailBlkno fs').1 = fs.super .dStartBlk + k → fs.dataBit k = false

variable {disk : Disk} {fs : Fs} {v v' : View}

/-- The calls never write the superblock. -/
theorem View.Steps.boot_eq (h : View.Steps v v') : v'.boot = v.boot := by
  induction h with
  | refl => rfl
  | tail _ hstep ih => cases hstep <;> exact ih

/-- What the program takes for the root is the superblock. -/
theorem rufsInit_root (h : fs.view.boot = newSuperBlock.slice 0 4096) :
    direct (readi (rufsInit fs.disk) 0) 0 = 3 := by
  have hzero : ∀ f, (rufsInit fs.disk).super f = 0 := fun f => by
    unfold Fs.super rufsInit Fs.opened get
    rw [Bytes.getNat_of_zero fun _ _ => rfl]
    rfl
  unfold readi
  rw [hzero, bioRead_eq (by decide) (by decide)]
  have hread : direct ((fs.view.boot.slice 0 4096).slice (inodeOffset 0) inodeSize) 0 = 3 := by
    rw [h]
    decide +kernel
  exact hread

/-- **Nothing survives.** In no reached state does mounting the disk again show the same file
system: the block pointers of the root are not those of before. -/
theorem remount_loses (h : Reached disk fs) : ¬Persists fs (rufsInit fs.disk) := by
  intro hpersists
  obtain ⟨hm, hsteps, T, hinv⟩ := h.spec
  obtain ⟨k, -, hptr, -⟩ := hinv.table hinv.root.1 hinv.root.2
  have hroot : ∀ fs, getNodeByPath fs [slash] 0 = some (some (readi fs 0)) := fun fs =>
    getNodeByPath_eq rfl
  have hsame := (hpersists.nodes [slash] _ _ rfl (hroot fs) (hroot _)).2.2.direct 0 (by decide)
  rw [rufsInit_root hsteps.boot_eq, readi_eq_of_mem hinv hm hinv.root.1, hptr] at hsame
  omega

/-- Nor does a new file system. -/
theorem remount_loses_new :
    ¬Persists (rufsMkfs still Bytes.zero).2 (rufsInit (rufsMkfs still Bytes.zero).2.disk) :=
  remount_loses ⟨still, [], .nil⟩

/-- The root's first block is 67, and 3 after mounting again. -/
theorem remount_root : ¬∀ (disk : Disk) (fs : Fs), Reached disk fs →
    Persists fs (rufsInit fs.disk) := by
  intro hall
  have hpersists := hall Bytes.zero _ ⟨still, [], .nil⟩
  have hroot : ∀ fs, getNodeByPath fs [slash] 0 = some (some (readi fs 0)) := fun fs =>
    getNodeByPath_eq rfl
  have hsame := (hpersists.nodes [slash] _ _ rfl (hroot _) (hroot _)).2.2.direct 0 (by decide)
  have hbefore : direct (readi (rufsMkfs still Bytes.zero).2 0) 0 = 67 := by decide +kernel
  have hafter : direct (readi (rufsInit (rufsMkfs still Bytes.zero).2.disk) 0) 0 = 3 := by
    decide +kernel
  rw [hbefore, hafter] at hsame
  cases hsame

end UserOS.Rufs
