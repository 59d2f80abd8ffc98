import UserOS.Rufs.Consistency

/-!
# The bytes of a file on the disk

What `rufs_read` and `rufs_write` do to the file of a path, in terms of the bytes that can be read
from the disk.

* `rufsRead_chunk`, `rufsRead_beyond`: a request within one block, and one that is not.
* `rufsWrite_full`: the file when `rufs_write` returns its full size.
* `FileAt.after`: the path of the file does not change.
-/

namespace UserOS.Rufs

open Lib

variable {v v' : View} {fs fs' fs₁ : Fs} {env : Env} {T : Finset ℕ} {x x' : Inode}
  {buf caller buffer : Bytes} {a e i j k n o sb size sizeCopy offset fuel : ℕ} {p res : ℤ} {r : Ref}
  {cs : List CString} {path : CString}

/-! ## Bytes -/

/-- The byte at offset `o` of the file `i`, when there is a block for it. -/
def Fs.fileByte (fs : Fs) (i o : ℕ) : Option UInt8 :=
  (fs.blockAt i (dataRef (o / blockSize))).map fun p => bioRead fs.disk p (o % blockSize)

theorem fileByte_eq (h : Inv fs.view T) (hm : fs.Mounted) (hi : i ∈ T) :
    fs.fileByte i o = fs.view.fileByte (fs.view.slot i) o := by
  unfold Fs.fileByte View.fileByte
  rw [blockAt_eq h hm hi, blockSize_eq]
  refine Option.map_congr fun p hp => ?_
  rw [bioRead_used (h.used hi hp)]

/-- The path of an inode leads to it. -/
theorem node_of_pathIno (hi : pathIno fs path 0 = some (some i)) :
    getNodeByPath fs path 0 = some (some (readi fs i)) := by
  unfold getNodeByPath
  rw [hi]
  rfl

theorem nonNull_getD : (nonNull p).getD (-1) = p := by
  unfold nonNull
  split
  next h => exact h.symm
  next => rfl

theorem blockAt_direct : fs.blockAt i (.direct k) =
    if k < 16 then nonNull (direct (readi fs i) k) else none := rfl

theorem blockAt_entry : fs.blockAt i (.entry k j) =
    if k < 8 ∧ j < 1024 ∧ indirect (readi fs i) k ≠ -1 then
      nonNull ((bioRead fs.disk (indirect (readi fs i) k)).getInt (4 * j))
    else none := rfl

/-- `rufs_read` finds the blocks of a file. -/
theorem readPtr_eq (hlt : sb < 8208) :
    readPtr fs (readi fs i) sb = (fs.blockAt i (dataRef sb)).getD (-1) := by
  unfold readPtr dataRef
  by_cases hsb : sb ≤ 15
  · rw [if_pos hsb, if_pos hsb, blockAt_direct, if_pos (by omega), nonNull_getD]
  · rw [if_neg hsb, if_neg hsb, show blockSize / 4 = 1024 from rfl, blockAt_entry]
    dsimp only
    have hj : (sb - 16) / 1024 < 8 := by omega
    have he : (sb - 16) % 1024 < 1024 := Nat.mod_lt _ (by decide)
    by_cases hnull : indirect (readi fs i) ((sb - 16) / 1024) = -1
    · rw [if_pos hnull, if_neg fun hh => hh.2.2 hnull]
      rfl
    · rw [if_neg hnull, if_pos ⟨hj, he, hnull⟩, nonNull_getD]

/-- Files have no blocks past their capacity. -/
theorem lt_of_blockAt (h : fs.blockAt i (dataRef sb) = some p) : sb < 8208 ∧ p ≠ -1 := by
  unfold dataRef at h
  split at h
  · rw [blockAt_direct, Option.ite_none_right_eq_some] at h
    exact ⟨by omega, by
      obtain ⟨hne, rfl⟩ := nonNull_eq_some.1 h.2
      exact hne⟩
  · rw [blockAt_entry, Option.ite_none_right_eq_some] at h
    obtain ⟨⟨hj, -, -⟩, h⟩ := h
    obtain ⟨hne, rfl⟩ := nonNull_eq_some.1 h
    exact ⟨by omega, hne⟩

theorem toReturn_eq (h : n < 2 ^ 31) : toReturn n = n := by
  unfold toReturn Bytes.toInt32
  rw [Nat.mod_eq_of_lt (by omega), if_pos h]

/-! ## Reading -/

/-- The loop of `rufs_read` leaves the bytes behind its longest round alone. -/
theorem readLoop_beyond {out : Option ℤ} (hj : chunk sizeCopy offset ≤ j)
    (hj' : sizeCopy - chunk sizeCopy offset ≤ j)
    (h : readLoop fs x size fuel caller sizeCopy offset sb = some (out, buf)) :
    buf j = caller j := by
  induction fuel generalizing caller sizeCopy offset sb with
  | zero =>
    rw [readLoop] at h
    split at h
    · cases h
      rfl
    · cases h
  | succ fuel ih =>
    rw [readLoop] at h
    split at h
    · cases h
      rfl
    dsimp only at h
    split at h
    · cases h
      rfl
    have hle : chunk (sizeCopy - chunk sizeCopy offset) 0 ≤ sizeCopy - chunk sizeCopy offset :=
      Nat.min_le_left _ _
    rw [ih (hle.trans hj') (by omega) h, Bytes.copy_of_outside (by omega)]

theorem readLoop_zero : readLoop fs x size fuel caller 0 offset sb = some (none, caller) := by
  cases fuel <;> rfl

/-- A request that is not refused. -/
theorem rufsRead_eq (hi : pathIno fs path 0 = some (some i))
    (hsize : (offset + size) % 2 ^ 64 ≤ get (readi fs i) .size) :
    rufsRead env fs path caller size offset =
      (readLoop fs (readi fs i) size size caller size offset (offset / blockSize)).map fun
        | (some r, buf) => (r, buf, fs)
        | (none, buf) => (toReturn size, buf,
            writei fs (env.time 1) (get (readi fs i) .ino)
              (set (readi fs i) .stAtime (env.time 0))) := by
  unfold rufsRead
  rw [node_of_pathIno hi, Option.bind_some]
  dsimp only
  exact if_neg (Nat.not_lt.2 hsize)

/-- **A request within one block** is answered from the block. -/
theorem rufsRead_chunk (hi : pathIno fs path 0 = some (some i))
    (hsize : (offset + size) % 2 ^ 64 ≤ get (readi fs i) .size) (hpos : 0 < size)
    (hchunk : offset % blockSize + size ≤ blockSize)
    (hb : fs.blockAt i (dataRef (offset / blockSize)) = some p) :
    ∃ fs', rufsRead env fs path caller size offset =
      some ((size : ℤ), caller.copy 0 (bioRead fs.disk p) (offset % blockSize) size, fs') := by
  have hlt : size < 2 ^ 31 := by
    rw [blockSize_eq] at hchunk
    omega
  obtain ⟨m, rfl⟩ := Nat.exists_eq_succ_of_ne_zero hpos.ne'
  have hn : chunk (m + 1) offset = m + 1 := chunk_of_le hchunk
  obtain ⟨hsb, hne⟩ := lt_of_blockAt hb
  have hptr := @readPtr_eq fs i _ hsb
  rw [hb, Option.getD_some] at hptr
  rw [rufsRead_eq hi hsize, readLoop, if_neg (Nat.succ_ne_zero m)]
  dsimp only
  rw [hptr, if_neg hne, hn, Nat.sub_self, readLoop_zero, Option.map_some, toReturn_eq hlt]
  exact ⟨_, rfl⟩

/-- **A request over a block boundary** leaves the last byte of the caller's buffer alone. -/
theorem rufsRead_beyond (hchunk : blockSize < offset % blockSize + size)
    (h : rufsRead env fs path caller size offset = some (res, buf, fs')) :
    buf (size - 1) = caller (size - 1) := by
  have hlt : offset % blockSize < blockSize := Nat.mod_lt _ (by decide)
  unfold rufsRead at h
  obtain ⟨node, -, h⟩ := Option.bind_eq_some_iff.1 h
  cases node with
  | none =>
    cases h
    rfl
  | some x =>
    dsimp only at h
    split at h
    · cases h
      rfl
    · obtain ⟨⟨out, buf'⟩, hloop, h⟩ := Option.map_eq_some_iff.1 h
      have hc := chunk_of_ge hchunk.le
      have hbeyond := readLoop_beyond (j := size - 1) (by omega) (by omega) hloop
      cases out <;> cases h <;> exact hbeyond

/-! ## Paths -/

/-- An inode with a path is live. -/
theorem At.live (h : Inv fs.view T) (hm : fs.Mounted) (hat : At fs.view T cs i) : Live fs i := by
  induction hat with
  | root => exact .root
  | @child cs d k c hat hc ih =>
    obtain ⟨⟨hd, hdir, h2, h19, hv⟩, hino⟩ := children_eq_some.1 hc
    have hok := ((h.tracked d hd).dir hdir).table
    have htable := table_eq h hm hd hdir
    refine ih.entry ⟨readi_eq_of_mem h hm hd ▸ hdir, h19, htable ▸ hv, ?_, htable ▸ hino⟩
    rw [htable]
    refine ⟨fun hdot => ?_, fun hdotDot => ?_⟩
    · have := hok.inj k h19 1 (by decide) hv (hdot.trans hok.self.1.symm)
      omega
    · have := hok.inj k h19 0 (by decide) hv (hdotDot.trans hok.parent.1.symm)
      omega

/-- Writing to a file moves no path. -/
theorem Wrote.at (hw : Wrote v v' T i) (h : Inv v T) (hfile : get (v.slot i) .type = 0)
    (hat : At v T cs j) : At v' T cs j := by
  induction hat with
  | root => exact .root
  | @child cs d k c hat hc ih =>
    obtain ⟨⟨hd, hdir, h2, h19, hv⟩, hino⟩ := children_eq_some.1 hc
    have hdi : d ≠ i := fun hdi => by
      rw [hdi, IsDir, hfile] at hdir
      cases hdir
    obtain ⟨m, -, hptr, -, -, hname⟩ := h.table hd hdir
    have hslot := hw.slot d hdi
    have htable : v'.table d = v.table d := by
      unfold View.table
      rw [hslot, hptr]
      exact hw.others d hd hdi _ _ hname
    rw [← htable]
    refine ih.child (children_eq_some.2 ⟨⟨hd, hslot ▸ hdir, h2, h19, ?_⟩, ?_⟩) <;> rw [htable]
    · exact hv
    · exact hino

/-- **The path of a file** leads to it after it has been written, as do all others. -/
theorem Wrote.pathIno (hw : Wrote fs.view fs'.view T i) (h : Inv fs.view T) (hm : fs.Mounted)
    (hm' : fs'.Mounted) (hfile : get (fs.view.slot i) .type = 0) (hp : PathOk path)
    (hdirs : PrefixDirs fs path) : pathIno fs' path 0 = pathIno fs path 0 := by
  rw [pathIno_eq hp.absolute, pathIno_eq hp.absolute]
  refine congrArg some (walkPath_congr fun ds name es j hcs hj => ?_)
  have hnames : ∀ c ∈ ds, NameOk c := fun c hc => hp.nameOk (hcs ▸ List.mem_append_left _ hc)
  have hall := hdirs.dirsTo
  have hjT : j ∈ T := ((walkPath_eq_some h hm hnames (DirsTo.left (hcs ▸ hall))).1 hj).mem h
  have hd := hall _ _ j hcs (List.cons_ne_nil _ _) hj
  rw [readi_eq_of_mem h hm hjT] at hd
  have hji : j ≠ i := fun hji => by
    rw [hji, IsDir, hfile] at hd
    cases hd
  obtain ⟨k, hk, hptr, -, -, hname⟩ := h.table hjT hd
  have hread : readi fs' j = readi fs j := by
    rw [readi_eq hm' (h.tracked j hjT).lt, readi_eq hm (h.tracked j hjT).lt, hw.slot j hji]
  refine dirFind_congr hread ?_
  have hblock := hw.others j hjT hji _ _ hname
  rw [readi_eq_of_mem h hm hjT, hptr, bioRead_blk hk rfl, bioRead_blk hk rfl, ← View.block_add,
    ← View.block_add]
  exact hblock

/-! ## The file of a path -/

/-- The path leads to the regular file `i`. -/
structure FileAt (T : Finset ℕ) (path : CString) (i : ℕ) (fs : Fs) : Prop where
  mounted : fs.Mounted
  inv : Inv fs.view T
  passed : PathOk path
  dirs : PrefixDirs fs path
  ino : pathIno fs path 0 = some (some i)
  file : get (fs.view.slot i) .type = 0

namespace FileAt

/-- The paths that FUSE passes for files. -/
theorem of_passed (hm : fs.Mounted) (hinv : Inv fs.view T) (hp : Passed fs path)
    (hfile : Regular fs path) (hi : pathIno fs path 0 = some (some i)) : FileAt T path i fs := by
  have hslot := readi_eq_of_mem hinv hm ((at_of_pathIno hinv hm hp.ok hp.dirs hi).mem hinv)
  exact ⟨hm, hinv, hp.ok, hp.dirs, hi, hslot ▸ hfile _ (node_of_pathIno hi)⟩

theorem of_reached {disk : Disk} (h : Reached disk fs) (hp : Passed fs path)
    (hfile : Regular fs path) (hi : pathIno fs path 0 = some (some i)) :
    ∃ T, FileAt T path i fs := by
  obtain ⟨hm, -, T, hinv⟩ := h.spec
  exact ⟨T, of_passed hm hinv hp hfile hi⟩

theorem has_path (h : FileAt T path i fs) : At fs.view T (components path) i :=
  at_of_pathIno h.inv h.mounted h.passed h.dirs h.ino

theorem mem (h : FileAt T path i fs) : i ∈ T := h.has_path.mem h.inv

theorem slot (h : FileAt T path i fs) : readi fs i = fs.view.slot i :=
  readi_eq_of_mem h.inv h.mounted h.mem

theorem start (h : FileAt T path i fs) : Writing fs.view T i fs (fs.view.slot i) :=
  Writing.start h.inv h.mounted h.mem h.file

/-- The file is written to. -/
theorem after (h : FileAt T path i fs) (hw : Wrote fs.view fs'.view T i) (hm : fs'.Mounted) :
    pathIno fs' path 0 = some (some i) ∧ Live fs' i ∧ readi fs' i = fs'.view.slot i :=
  ⟨(hw.pathIno h.inv h.mounted hm h.file h.passed h.dirs).trans h.ino,
    (hw.at h.inv h.file h.has_path).live hw.inv hm, readi_eq_of_mem hw.inv hm h.mem⟩

end FileAt

/-! ## Writing -/

/-- The inode that `rufs_write` stores when the loop ends. -/
def closedInode (env : Env) (x : Inode) (size : ℕ) : Inode :=
  let x := set (set x .stMtime (env.time 0)) .size (get x .size + size)
  set x .stSize (get x .size)

theorem closedInode_size : get (closedInode env x n) .size = (get x .size + n) % 2 ^ 32 := by
  unfold closedInode
  simp (disch := decide) only [get_set_of_disjoint, get_set_self]
  rfl

theorem closedInode_stSize : get (closedInode env x n) .stSize = (get x .size + n) % 2 ^ 32 := by
  unfold closedInode
  simp (disch := decide) only [get_set_self]
  have hlt : (get x .size + n) % 256 ^ Field.size.width < 256 ^ Field.stSize.width :=
    (Nat.mod_lt _ (by decide)).trans (by decide)
  rw [Nat.mod_eq_of_lt hlt]
  rfl

theorem closedInode_same : SameNode x (closedInode env x n) := by
  unfold closedInode
  repeat' refine SameNode.set ?_ (by decide) (by decide) (by decide)
  exact .refl x

/-- How `rufs_write` goes on after the loop. -/
def finishWrite (env : Env) (size : ℕ) : Option ℤ × Fs × Inode → ℤ × Fs
  | (some r, fs, _) => (r, fs)
  | (none, fs, x) => (toReturn size,
      writei fs (env.time 1) (get (closedInode env x size) .ino) (closedInode env x size))

/-- A request that is not refused. -/
theorem rufsWrite_eq (h : FileAt T path i fs) (hsize : offset ≤ get (fs.view.slot i) .size) :
    rufsWrite env fs path buffer n offset =
      (writeLoop buffer n n fs (fs.view.slot i) n offset (offset / 4096)).map
        (finishWrite env n) := by
  unfold rufsWrite
  rw [node_of_pathIno h.ino, h.slot, Option.bind_some]
  dsimp only
  rw [if_neg (by omega)]
  refine congrArg (Option.map · _) (funext fun res => ?_)
  obtain ⟨r, fs₁, x'⟩ := res
  cases r <;> rfl

/-- The file `i` after a write that returned its full size, when `x'` is its inode in memory. -/
structure Closed (fs fs₁ fs' : Fs) (x' : Inode) (T : Finset ℕ) (i n : ℕ) : Prop where
  mounted : fs'.Mounted
  wrote : Wrote fs.view fs'.view T i
  size : get (fs'.view.slot i) .size = (get (fs.view.slot i) .size + n) % 2 ^ 32
  stSize : get (fs'.view.slot i) .stSize = (get (fs.view.slot i) .size + n) % 2 ^ 32
  names : fs'.view.names (fs'.view.slot i) = fs₁.view.names x'
  byte : ∀ o, fs'.view.fileByte (fs'.view.slot i) o = fs₁.view.fileByte x' o
  dbit : fs'.view.dbit = fs₁.view.dbit

/-- **At the end** the inode in memory becomes that of the file. -/
theorem Writing.closed (h : Writing fs.view T i fs₁ x') : Closed fs fs₁
    (writei fs₁ (env.time 1) (get (closedInode env x' n) .ino) (closedInode env x' n))
    x' T i n := by
  have hlt := (h.inv.tracked i h.mem).lt
  have hino : get (closedInode env x' n) .ino = i := closedInode_same.ino.trans h.ino
  have hview := @writei_view fs₁ i (env.time 1) (closedInode env x' n) h.mounted hlt
  have hself : (fs₁.view.setSlot i (Rufs.stored (env.time 1) (closedInode env x' n))).slot i =
      Rufs.stored (env.time 1) (closedInode env x' n) := Function.update_self ..
  have hsame : SameNode x' (Rufs.stored (env.time 1) (closedInode env x' n)) :=
    closedInode_same.stored
  have hnames : (fs₁.view.setSlot i (Rufs.stored (env.time 1) (closedInode env x' n))).names
      (Rufs.stored (env.time 1) (closedInode env x' n)) = fs₁.view.names x' :=
    names_congr hsame.toSamePtrs fun _ _ _ => rfl
  rw [hino]
  refine ⟨writei_mounted h.mounted, h.stored hsame hview, ?_, ?_, ?_, fun o => ?_, ?_⟩ <;>
    rw [hview]
  · rw [hself, get_stored (by decide) (by decide), closedInode_size, h.size]
  · rw [hself, get_stored (by decide) (by decide), closedInode_stSize, h.size]
  · rw [hself, hnames]
  · unfold View.fileByte
    rw [hself, hnames]
    rfl
  · rfl

/-- **Writing.** What `rufs_write` has done when it returns its full size. -/
theorem rufsWrite_full (h : FileAt T path i fs) (hn : 1 ≤ n) (hcap : offset + n ≤ fileCapacity)
    (hw : rufsWrite env fs path buffer n offset = some ((n : ℤ), fs')) :
    offset ≤ get (fs.view.slot i) .size ∧ ∃ fs₁ x',
      writeLoop buffer n n fs (fs.view.slot i) n offset (offset / 4096) = some (none, fs₁, x') ∧
      Rewrites fs.view T i fs (fs.view.slot i) fs₁ x' offset (offset + n) ∧
      Closed fs fs₁ fs' x' T i n := by
  have hlt : n < 2 ^ 31 := by
    rw [fileCapacity_eq] at hcap
    omega
  have hsize : offset ≤ get (fs.view.slot i) .size := by
    by_contra hgt
    unfold rufsWrite at hw
    rw [node_of_pathIno h.ino, h.slot, Option.bind_some] at hw
    dsimp only at hw
    rw [if_pos (by omega), Option.some.injEq, Prod.mk.injEq] at hw
    omega
  refine ⟨hsize, ?_⟩
  rw [rufsWrite_eq h hsize] at hw
  rw [fileCapacity_eq] at hcap
  obtain ⟨res, fs₁, x', hloop, hrewrites, hres⟩ := @writeLoop_rewrites _ _ _ _ buffer i
    (offset / 4096) n offset n n h.start le_rfl (by omega)
  rw [show offset / 4096 * 4096 + offset % 4096 = offset by omega] at hrewrites
  rw [hloop, Option.map_some] at hw
  obtain rfl | ⟨s, hs, hpos, sb, rfl⟩ := hres
  · rw [finishWrite, Option.some.injEq, Prod.mk.injEq] at hw
    obtain ⟨-, rfl⟩ := hw
    exact ⟨fs₁, x', hloop, hrewrites, hrewrites.writing.closed⟩
  · -- An early return gives less than the full size.
    rw [finishWrite, Option.some.injEq, Prod.mk.injEq] at hw
    have hr : outOfBlocks n s sb = n := hw.1
    unfold outOfBlocks at hr
    split at hr
    · rw [toReturn_eq (by omega)] at hr
      omega
    · exact absurd hr (by unfold enospc; omega)

end UserOS.Rufs
