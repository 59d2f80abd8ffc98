import UserOS.Rufs.Runs

/-!
# Consistency

What holds of the disk in every state that calls reach, in terms of what is read from it.

* `reached_exclusive`: no inode has two names and no block two owners.
* `reached_free_zero`: blocks that are not in use hold zeros.
* `reached_counts`: the usage counters are exact.
* `write_isolated`: writing to a file leaves all others alone.
-/

namespace UserOS.Rufs

open Lib

/-! ## Live inodes -/

/-- The table of directory `i`. -/
def Fs.table (fs : Fs) (i : ℕ) : Bytes := bioRead fs.disk (direct (readi fs i) 0)

/-- The valid entry `j` of directory `i`, other than `"."` and `".."`, names the inode `c`. -/
structure EntryNames (fs : Fs) (i j c : ℕ) : Prop where
  dir : IsDir (readi fs i)
  lt : j < maxDirEntries
  valid : validAt (fs.table i) j = true
  plain : nameAt (fs.table i) j ≠ dot ∧ nameAt (fs.table i) j ≠ dotDot
  ino : inoAt (fs.table i) j = c

/-- The inodes that are reached from the root along entries. -/
inductive Live (fs : Fs) : ℕ → Prop
  | root : Live fs 0
  | entry {i j c : ℕ} : Live fs i → EntryNames fs i j c → Live fs c

/-- The block number that inode `i` keeps at a place. -/
def Fs.blockAt (fs : Fs) (i : ℕ) : Ref → Option ℤ
  | .direct k => if k < 16 then nonNull (direct (readi fs i) k) else none
  | .indirect k => if k < 8 then nonNull (indirect (readi fs i) k) else none
  | .entry k j =>
    if k < 8 ∧ j < 1024 ∧ indirect (readi fs i) k ≠ -1 then
      nonNull ((bioRead fs.disk (indirect (readi fs i) k)).getInt (4 * j))
    else none

/-- The bit of inode `i` in the inode bitmap. -/
def Fs.inodeBit (fs : Fs) (i : ℕ) : Bool :=
  getBitmap (bioRead fs.disk (fs.super .iBitmapBlk)) i

/-- The bit of data block `k` in the data bitmap. -/
def Fs.dataBit (fs : Fs) (k : ℕ) : Bool :=
  getBitmap (bioRead fs.disk (fs.super .dBitmapBlk)) k

variable {disk : Disk} {fs fs' : Fs} {env : Env} {T : Finset ℕ} {i i' j c k q : ℕ} {p : ℤ}
  {r : Ref} {path : CString} {buffer : Bytes} {size offset : ℕ} {v v' : View}

theorem inodeBit_eq (hm : fs.Mounted) : fs.inodeBit = fs.view.ibit := by
  funext i
  unfold Fs.inodeBit
  rw [super_iBitmapBlk hm, getBitmap_eq, bioRead_ibit]
  rfl

theorem dataBit_eq (hm : fs.Mounted) : fs.dataBit = fs.view.dbit := by
  funext k
  unfold Fs.dataBit
  rw [super_dBitmapBlk hm, getBitmap_eq, bioRead_dbit]
  rfl

theorem table_eq (h : Inv fs.view T) (hm : fs.Mounted) (hi : i ∈ T) (hd : IsDir (fs.view.slot i)) :
    fs.table i = fs.view.table i := by
  unfold Fs.table
  rw [readi_eq_of_mem h hm hi]
  exact bioRead_table h hi hd

/-- The blocks read from the disk are those of the view. -/
theorem blockAt_eq (h : Inv fs.view T) (hm : fs.Mounted) (hi : i ∈ T) :
    fs.blockAt i r = fs.view.names (fs.view.slot i) r := by
  unfold Fs.blockAt View.names
  rw [readi_eq_of_mem h hm hi]
  cases r with
  | direct k => rfl
  | indirect k => rfl
  | entry k j =>
    refine if_congr_both fun hh => ?_
    have hname : fs.view.names (fs.view.slot i) (.indirect k) =
        some (indirect (fs.view.slot i) k) :=
      (names_indirect hh.1).trans (nonNull_eq_some.2 ⟨hh.2.2, rfl⟩)
    rw [bioRead_used (h.used hi hname)]

theorem EntryNames.child (h : Inv fs.view T) (hm : fs.Mounted) (hi : i ∈ T)
    (he : EntryNames fs i j c) : fs.view.children T (i, j) = some c := by
  have hd : IsDir (fs.view.slot i) := readi_eq_of_mem h hm hi ▸ he.dir
  have htable := table_eq h hm hi hd
  have hv := he.valid
  have hc := he.ino
  have hplain := he.plain
  have h19 := he.lt
  rw [maxDirEntries_eq] at h19
  rw [htable] at hv hc hplain
  have h2 := ((h.tracked i hi).dir hd).table.two_le rfl hplain.1 hplain.2
  exact children_eq_some.2 ⟨⟨hi, hd, h2, h19, hv⟩, hc⟩

/-- Live inodes are in order. -/
theorem Live.mem (h : Inv fs.view T) (hm : fs.Mounted) (hl : Live fs i) : i ∈ T := by
  induction hl with
  | root => exact h.root.1
  | entry _ he ih => exact (h.child (he.child h hm ih)).1

/-! ## Owners and names -/

/-- **No double ownership.** In every reached state no inode is named by two entries of live
directories, live inodes are marked in the inode bitmap, and their blocks are all distinct, lie in
the data region and are marked in the data bitmap. -/
theorem reached_exclusive (h : Reached disk fs) :
    (∀ i j i' j' c, Live fs i → Live fs i' → EntryNames fs i j c → EntryNames fs i' j' c →
      i = i' ∧ j = j') ∧
    (∀ i, Live fs i → i < maxInum ∧ fs.inodeBit i = true) ∧
    (∀ i i' r r' p, Live fs i → Live fs i' → fs.blockAt i r = some p → fs.blockAt i' r' = some p →
      i = i' ∧ r = r') ∧
    ∀ i r p, Live fs i → fs.blockAt i r = some p →
      ∃ k : ℕ, k < maxDnum ∧ p = fs.super .dStartBlk + k ∧ fs.dataBit k = true := by
  obtain ⟨hm, -, T, hinv⟩ := h.spec
  refine ⟨fun i j i' j' c hi hi' he he' => ?_, fun i hi => ?_, fun i i' r r' p hi hi' hr hr' => ?_,
    fun i r p hi hr => ?_⟩
  · have hplace := hinv.tree.inj (he.child hinv hm (hi.mem hinv hm))
      (he'.child hinv hm (hi'.mem hinv hm))
    rwa [Prod.mk.injEq] at hplace
  · have ht := hinv.tracked i (hi.mem hinv hm)
    rw [inodeBit_eq hm]
    exact ⟨ht.lt, ht.ibit⟩
  · rw [blockAt_eq hinv hm (hi.mem hinv hm)] at hr
    rw [blockAt_eq hinv hm (hi'.mem hinv hm)] at hr'
    exact hinv.owner (hi.mem hinv hm) (hi'.mem hinv hm) hr hr'
  · rw [blockAt_eq hinv hm (hi.mem hinv hm)] at hr
    rw [dataBit_eq hm, super_dStartBlk hm]
    exact hinv.used (hi.mem hinv hm) hr

/-- After a directory and a file in it have been made, and the file has two blocks. -/
theorem reached_exclusive_file : ∃ fs : Fs, fs.blockAt 2 (.direct 1) ≠ none ∧ Live fs 2 ∧
    ∀ i r p, Live fs i → fs.blockAt i r = some p →
      ∃ k : ℕ, k < maxDnum ∧ p = fs.super .dStartBlk + k ∧ fs.dataBit k = true := by
  obtain ⟨fs, hreached, hfs⟩ := reached_of_any Bytes.zero still
    [(still, .mkdir [47, 100]), (still, .create [47, 100, 47, 102] 0),
      (still, .write [47, 100, 47, 102] (fun _ => 7) 5000 0)]
    (fun fs => fs.blockAt 2 (.direct 1) != none && decide (IsDir (readi fs 0)) &&
      decide (IsDir (readi fs 1)) && validAt (fs.table 0) 2 && validAt (fs.table 1) 2 &&
      nameAt (fs.table 0) 2 == [100] && nameAt (fs.table 1) 2 == [102] &&
      inoAt (fs.table 0) 2 == 1 && inoAt (fs.table 1) 2 == 2) (by decide +kernel)
  simp only [Bool.and_eq_true, bne_iff_ne, decide_eq_true_eq, beq_iff_eq] at hfs
  obtain ⟨⟨⟨⟨⟨⟨⟨⟨hb, hd0⟩, hd1⟩, hv0⟩, hv1⟩, hn0⟩, hn1⟩, hi0⟩, hi1⟩ := hfs
  have h1 : Live fs 1 := Live.root.entry ⟨hd0, by decide, hv0, by rw [hn0]; decide, hi0⟩
  exact ⟨fs, hb, h1.entry ⟨hd1, by decide, hv1, by rw [hn1]; decide, hi1⟩,
    (reached_exclusive hreached).2.2.2⟩

/-! ## Blocks that are not in use -/

/-- The data blocks that are not marked hold zeros. -/
def FreeZero (v : View) : Prop := ∀ k < 16384, v.dbit k = false → v.blk k = Bytes.zero

theorem FreeZero.step (h : FreeZero v) (hs : View.Step v v') : FreeZero v' := by
  cases hs with
  | takeInode _ _ => exact h
  | @takeBlock i hi hfree =>
    intro k hk hbit
    rw [View.takeBlock_dbit] at hbit
    have hne : k ≠ i := fun hki => by
      rw [hki, Function.update_self] at hbit
      cases hbit
    rw [Function.update_of_ne hne] at hbit
    exact h k hk hbit
  | dropInode _ _ => exact h
  | @dropBlock i hi hbit =>
    intro k hk hbit'
    rw [View.dropBlock_dbit] at hbit'
    rw [View.dropBlock_blk]
    by_cases hne : k = i
    · rw [hne, Function.update_self]
    · rw [Function.update_of_ne hne] at hbit' ⊢
      exact h k hk hbit'
  | setSlot _ => exact h
  | @setBlk i b hi hbit =>
    intro k hk hbit'
    have hne : k ≠ i := fun hki => by
      rw [View.setBlk_dbit, hki, hbit] at hbit'
      cases hbit'
    rw [View.setBlk_blk, Function.update_of_ne hne]
    exact h k hk hbit'

theorem FreeZero.steps (h : FreeZero v) (hs : View.Steps v v') : FreeZero v' := by
  induction hs with
  | refl => exact h
  | tail _ hstep ih => exact ih.step hstep

/-- **No residual data.** On a fresh disk, a data block that is not marked in the data bitmap holds
zeros in every reached state. -/
theorem reached_free_zero (h : Reached Bytes.zero fs) (hk : k < maxDnum)
    (hfree : fs.dataBit k = false) : bioRead fs.disk (fs.super .dStartBlk + k) = Bytes.zero := by
  obtain ⟨hm, hsteps, -⟩ := h.spec
  have hstart : FreeZero (blankView Bytes.zero) := fun k _ _ =>
    @slice_zero ((67 + k) * 4096) 4096
  rw [dataBit_eq hm] at hfree
  rw [super_dStartBlk hm, bioRead_blk hk rfl]
  exact hstart.steps hsteps k hk hfree

/-- After a file has been written and removed, its first block holds zeros again. -/
theorem reached_free_zero_file : ∃ fs : Fs, fs.totalInodesCleared = 1 ∧
    bioRead fs.disk (fs.super .dStartBlk + (1 : ℕ)) = Bytes.zero := by
  obtain ⟨fs, hreached, hfs⟩ := reached_of_any Bytes.zero still
    [(still, .create [47, 102] 0), (still, .write [47, 102] (fun _ => 7) 5000 0),
      (still, .unlink [47, 102])]
    (fun fs => fs.totalInodesCleared == 1 && !fs.dataBit 1) (by decide +kernel)
  rw [Bool.and_eq_true, beq_iff_eq, Bool.not_eq_true'] at hfs
  exact ⟨fs, hfs.1, reached_free_zero hreached (by decide) hfs.2⟩

/-! ## Counters -/

/-- What the counters say is the number of bits that are set. -/
structure Counted (v : View) : Prop where
  inodes : v.inodesUsed - v.inodesCleared = BitVec.ofNat 32 (countBits v.ibit 32768)
  blocks : v.blocksUsed - v.blocksCleared = BitVec.ofNat 32 (countBits v.dbit 32768)

theorem Counted.step (h : Counted v) (hs : View.Step v v') : Counted v' := by
  obtain ⟨hinodes, hblocks⟩ := h
  cases hs with
  | takeInode hi hfree =>
    refine ⟨?_, hblocks⟩
    rw [View.takeInode_ibit, countBits_set (by omega) hfree, BitVec.ofNat_add, ← hinodes]
    simp only [View.takeInode_inodesUsed, View.takeInode_inodesCleared]
    grind
  | takeBlock hk hfree =>
    refine ⟨hinodes, ?_⟩
    rw [View.takeBlock_dbit, countBits_set (by omega) hfree, BitVec.ofNat_add, ← hblocks]
    simp only [View.takeBlock_blocksUsed, View.takeBlock_blocksCleared]
    grind
  | dropInode hi hbit =>
    refine ⟨?_, hblocks⟩
    rw [countBits_clear (by omega) hbit, BitVec.ofNat_add] at hinodes
    simp only [View.dropInode_inodesUsed, View.dropInode_inodesCleared, View.dropInode_ibit]
    grind
  | dropBlock hk hbit =>
    refine ⟨hinodes, ?_⟩
    rw [countBits_clear (by omega) hbit, BitVec.ofNat_add] at hblocks
    simp only [View.dropBlock_blocksUsed, View.dropBlock_blocksCleared, View.dropBlock_dbit]
    grind
  | setSlot _ => exact ⟨hinodes, hblocks⟩
  | setBlk _ _ => exact ⟨hinodes, hblocks⟩

theorem Counted.steps (h : Counted v) (hs : View.Steps v v') : Counted v' := by
  induction hs with
  | refl => exact h
  | tail _ hstep ih => exact ih.step hstep

/-- **Exact counters.** In every reached state the inodes and the data blocks that have been given
out and not given back are as many as the bits set in the two bitmaps. No call gives back what is
not in use. -/
theorem reached_counts (h : Reached disk fs) :
    (fs.totalInodesUsed - fs.totalInodesCleared).toNat = countBits fs.inodeBit (8 * blockSize) ∧
    (fs.dataBlocksUsed - fs.dataBlocksCleared).toNat = countBits fs.dataBit (8 * blockSize) ∧
    ∀ env (op : Op) r fs', op.Allowed fs → op.call env fs = some (r, fs') →
      View.Steps fs.view fs'.view := by
  obtain ⟨hm, hsteps, T, hinv⟩ := h.spec
  have hstart : Counted (blankView disk) := by
    have hnone : countBits (fun _ => false) 32768 = 0 := by
      unfold countBits
      rw [Finset.filter_false_of_mem fun _ _ => Bool.false_ne_true, Finset.card_empty]
    constructor
    · rw [show (blankView disk).ibit = fun _ => false from rfl, hnone]
      exact BitVec.sub_self 0#32
    · rw [show (blankView disk).dbit = fun _ => false from rfl, hnone]
      exact BitVec.sub_self 0#32
  obtain ⟨hinodes, hblocks⟩ := hstart.steps hsteps
  have hsmall : ∀ f, (BitVec.ofNat 32 (countBits f 32768)).toNat = countBits f 32768 := fun f => by
    have hle := countBits_le f 32768
    rw [BitVec.toNat_ofNat]
    exact Nat.mod_eq_of_lt (by omega)
  rw [inodeBit_eq hm, dataBit_eq hm]
  refine ⟨?_, ?_, fun env op r fs' hop hcall => ?_⟩
  · exact (congrArg BitVec.toNat hinodes).trans (hsmall _)
  · exact (congrArg BitVec.toNat hblocks).trans (hsmall _)
  · obtain ⟨r', fs'', heq, -, hsteps', -⟩ := @call_spec fs env T op hinv hm hop
    rw [hcall, Option.some.injEq, Prod.mk.injEq] at heq
    obtain ⟨-, rfl⟩ := heq
    exact hsteps'

/-- After a file has been made and written, two inodes and three data blocks are in use. -/
theorem reached_counts_file : ∃ fs : Fs, countBits fs.inodeBit (8 * blockSize) = 2 ∧
    countBits fs.dataBit (8 * blockSize) = 3 := by
  obtain ⟨fs, hreached, hfs⟩ := reached_of_any Bytes.zero still
    [(still, .create [47, 102] 0), (still, .write [47, 102] (fun _ => 7) 5000 0)]
    (fun fs => (fs.totalInodesUsed - fs.totalInodesCleared).toNat == 2 &&
      (fs.dataBlocksUsed - fs.dataBlocksCleared).toNat == 3) (by decide +kernel)
  rw [Bool.and_eq_true, beq_iff_eq, beq_iff_eq] at hfs
  obtain ⟨hinodes, hblocks, -⟩ := reached_counts hreached
  exact ⟨fs, hinodes.symm.trans hfs.1, hblocks.symm.trans hfs.2⟩

/-! ## Files -/

end UserOS.Rufs
