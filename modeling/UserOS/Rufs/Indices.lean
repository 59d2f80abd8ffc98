import UserOS.Rufs.Stored

/-!
# Block indices

Neither loop checks that a file block has a place in the arrays of pointers: past the capacity of a
file, `indirect_ptr` is used beyond its end, where the `struct stat` of the inode lies. The loops
are traced here, with the file blocks that they look for.

* `readTrace_snd`, `writeTrace_snd`: the traced loops do what the loops do.
* `mem_readTrace`, `writeTrace_past`: the blocks they look for.
* `Fitting.spec`: the runs in which every request fits.
* `block_index_iff`: when all indices are in bounds.
-/

namespace UserOS.Rufs

open Lib

variable {disk : Disk} {fs fs' fs₁ : Fs} {env : Env} {T : Finset ℕ} {x x' : Inode}
  {caller buffer : Bytes} {b i k m n sb size sizeCopy offset fuel : ℕ} {p r : ℤ} {op : Op}
  {path : CString}

/-! ## Traced loops -/

/-- The loop of `rufs_read`, with the values of `start_block`. -/
def readTrace (fs : Fs) (inode : Inode) (size : ℕ) :
    ℕ → Bytes → ℕ → ℕ → ℕ → List ℕ × Option (Option ℤ × Bytes)
  | 0, buffer, sizeCopy, _, _ => ([], if sizeCopy = 0 then some (none, buffer) else none)
  | fuel + 1, buffer, sizeCopy, offset, startBlock =>
    if sizeCopy = 0 then ([], some (none, buffer))
    else
      let blockPtr := readPtr fs inode startBlock
      if blockPtr = -1 then ([startBlock], some (some (toReturn (size - sizeCopy)), buffer))
      else
        let n := chunk sizeCopy offset
        let buffer := buffer.copy 0 (bioRead fs.disk blockPtr) (offset % blockSize) n
        let (visits, res) := readTrace fs inode size fuel buffer (sizeCopy - n) 0 (startBlock + 1)
        (startBlock :: visits, res)

/-- The loop of `rufs_write`, with the values of `start_block`. -/
def writeTrace (buffer : Bytes) (size : ℕ) :
    ℕ → Fs → Inode → ℕ → ℕ → ℕ → List ℕ × Option (Option ℤ × Fs × Inode)
  | 0, fs, inode, sizeCopy, _, _ => ([], if sizeCopy = 0 then some (none, fs, inode) else none)
  | fuel + 1, fs, inode, sizeCopy, offset, startBlock =>
    if sizeCopy = 0 then ([], some (none, fs, inode))
    else
      match writePtr fs inode startBlock with
      | (none, fs, inode) =>
        ([startBlock],
          some (some (if startBlock ≤ 15 then toReturn (size - sizeCopy) else -enospc), fs, inode))
      | (some blockPtr, fs, inode) =>
        let n := chunk sizeCopy offset
        let blockMem := (bioRead fs.disk blockPtr).copy (offset % blockSize) buffer 0 n
        let fs := { fs with disk := bioWrite fs.disk blockPtr blockMem }
        let (visits, res) := writeTrace buffer size fuel fs inode (sizeCopy - n) 0 (startBlock + 1)
        (startBlock :: visits, res)

/-- **Tracing** `rufs_read` does not change its result. -/
theorem readTrace_snd : (readTrace fs x size fuel caller sizeCopy offset sb).2 =
    readLoop fs x size fuel caller sizeCopy offset sb := by
  induction fuel generalizing caller sizeCopy offset sb with
  | zero => rfl
  | succ fuel ih =>
    rw [readTrace, readLoop]
    split
    · rfl
    · dsimp only
      split
      · rfl
      · exact ih

/-- **Tracing** `rufs_write` does not change its result. -/
theorem writeTrace_snd : (writeTrace buffer size fuel fs x sizeCopy offset sb).2 =
    writeLoop buffer size fuel fs x sizeCopy offset sb := by
  induction fuel generalizing fs x sizeCopy offset sb with
  | zero => rfl
  | succ fuel ih =>
    rw [writeTrace, writeLoop]
    split
    · rfl
    · generalize writePtr fs x sb = res
      obtain ⟨ptr, fs₁, x'⟩ := res
      cases ptr with
      | none => rfl
      | some p => exact ih

/-- No block is found: the loop looks for one block only. -/
theorem writeTrace_none (hne : sizeCopy ≠ 0) (hptr : writePtr fs x sb = (none, fs', x')) :
    (writeTrace buffer size (fuel + 1) fs x sizeCopy offset sb).1 = [sb] := by
  rw [writeTrace, if_neg hne, hptr]

/-- A block is found: the loop goes on. -/
theorem writeTrace_some (hne : sizeCopy ≠ 0) (hptr : writePtr fs x sb = (some p, fs', x')) :
    (writeTrace buffer size (fuel + 1) fs x sizeCopy offset sb).1 =
      sb :: (writeTrace buffer size fuel
        (fs'.writeChunk p buffer offset (chunk sizeCopy offset)) x'
        (sizeCopy - chunk sizeCopy offset) 0 (sb + 1)).1 := by
  rw [writeTrace, if_neg hne, hptr]
  rfl

/-- The file blocks that `rufs_read` looks for. -/
def rufsReadBlocks (fs : Fs) (path : CString) (size offset : ℕ) : List ℕ :=
  match getNodeByPath fs path 0 with
  | some (some inode) =>
    if (offset + size) % 2 ^ 64 > get inode .size then []
    else (readTrace fs inode size size Bytes.zero size offset (offset / blockSize)).1
  | _ => []

/-- The file blocks that `rufs_write` looks for. -/
def rufsWriteBlocks (fs : Fs) (path : CString) (buffer : Bytes) (size offset : ℕ) : List ℕ :=
  match getNodeByPath fs path 0 with
  | some (some inode) =>
    if offset > get inode .size then []
    else (writeTrace buffer size size fs inode size offset (offset / blockSize)).1
  | _ => []

/-! ## Indices in bounds -/

/-- The index into `direct_ptr` or `indirect_ptr` for a file block is in bounds. -/
def InBounds (startBlock : ℕ) : Prop :=
  if startBlock ≤ 15 then startBlock < 16 else (startBlock - 16) / (blockSize / 4) < 8

theorem inBounds_iff : InBounds sb ↔ sb < 8208 := by
  unfold InBounds
  rw [show blockSize / 4 = 1024 from rfl]
  split <;> omega

/-- `rufs_read` uses indices that are in bounds. -/
def ReadBounded (fs : Fs) (path : CString) (n offset : ℕ) : Prop :=
  ∀ sb ∈ rufsReadBlocks fs path n offset, InBounds sb

/-- `rufs_write` uses indices that are in bounds, and refuses to write past the capacity of a file.
-/
def WriteBounded (env : Env) (fs : Fs) (path : CString) (n offset : ℕ) : Prop :=
  ∀ buffer, (∀ sb ∈ rufsWriteBlocks fs path buffer n offset, InBounds sb) ∧
    (0 < n → fileCapacity < offset + n → ∀ r fs',
      rufsWrite env fs path buffer n offset = some (r, fs') → r ≤ 0 ∧ fs'.disk = fs.disk)

/-- The request to read is empty, refused or within the capacity of a file, or ends at a block of
the range that the file has not. -/
def ReadFits (fs : Fs) (i n offset : ℕ) : Prop :=
  n = 0 ∨ get (readi fs i) .size < offset + n ∨ offset + n ≤ fileCapacity ∨
    ∃ b, offset / blockSize ≤ b ∧ b * blockSize < fileCapacity ∧ fs.blockAt i (dataRef b) = none

/-- The request to write is empty, refused or within the capacity of a file, or finds no block. -/
def WriteFits (fs : Fs) (i n offset : ℕ) : Prop :=
  n = 0 ∨ get (readi fs i) .size < offset ∨ offset + n ≤ fileCapacity ∨ NoBlock fs i offset

/-! ## Reading -/

/-- **The blocks visited** by `rufs_read` are those of the range, up to the first that is not there.
-/
theorem mem_readTrace (hfuel : sizeCopy ≤ fuel) :
    b ∈ (readTrace fs x size fuel caller sizeCopy offset sb).1 ↔
      sizeCopy ≠ 0 ∧ sb ≤ b ∧ b * 4096 < sb * 4096 + offset % 4096 + sizeCopy ∧
        ∀ b', sb ≤ b' → b' < b → readPtr fs x b' ≠ -1 := by
  induction fuel generalizing caller sizeCopy offset sb with
  | zero =>
    rw [readTrace]
    simp [Nat.le_zero.1 hfuel]
  | succ fuel ih =>
    rw [readTrace]
    have hlt : offset % 4096 < 4096 := Nat.mod_lt _ (by decide)
    split
    next hzero => simp [hzero]
    next hne =>
      have hpos : 0 < sizeCopy := Nat.pos_of_ne_zero hne
      dsimp only
      split
      next hnull =>
        rw [List.mem_singleton]
        constructor
        · rintro rfl
          exact ⟨hne, le_rfl, by omega, fun b' h h' => absurd h' (by omega)⟩
        · intro ⟨_, hle, _, hall⟩
          by_contra hbs
          exact hall sb le_rfl (by omega) hnull
      next hptr =>
        have hcpos := @chunk_pos offset sizeCopy hne
        have hnext := @chunk_next sb offset sizeCopy
        have hlast := @chunk_last offset sizeCopy
        simp only [List.mem_cons, ih (show sizeCopy - chunk sizeCopy offset ≤ fuel by omega),
          Nat.zero_mod, Nat.add_zero]
        generalize sizeCopy - chunk sizeCopy offset = rest at hnext hlast ⊢
        constructor
        · rintro (rfl | ⟨hrest, hle, hend, hall⟩)
          · exact ⟨hne, le_rfl, by omega, fun b' h h' => absurd h' (by omega)⟩
          · refine ⟨hne, by omega, hend.trans_eq (hnext hrest), fun b' h h' => ?_⟩
            by_cases hb : b' = sb
            · rw [hb]
              exact hptr
            · exact hall b' (by omega) h'
        · intro ⟨_, hle, hend, hall⟩
          by_cases hb : b = sb
          · exact .inl hb
          · have hrest : rest ≠ 0 := fun hzero => hb (by have := hlast hzero; omega)
            refine .inr ⟨hrest, by omega, hend.trans_eq (hnext hrest).symm, fun b' h h' => ?_⟩
            exact hall b' (by omega) h'

/-- The blocks that `rufs_read` looks for, when it does not refuse the request. -/
theorem mem_rufsReadBlocks (hi : pathIno fs path 0 = some (some i)) (hlt : offset + n < 2 ^ 64) :
    b ∈ rufsReadBlocks fs path n offset ↔
      offset + n ≤ get (readi fs i) .size ∧ n ≠ 0 ∧ offset / 4096 ≤ b ∧ b * 4096 < offset + n ∧
        ∀ b', offset / 4096 ≤ b' → b' < b → readPtr fs (readi fs i) b' ≠ -1 := by
  unfold rufsReadBlocks
  rw [node_of_pathIno hi]
  dsimp only
  rw [Nat.mod_eq_of_lt hlt]
  split
  next hgt => simp [Nat.not_le.2 hgt]
  next hle =>
    rw [mem_readTrace le_rfl, blockSize_eq,
      show offset / 4096 * 4096 + offset % 4096 = offset by omega]
    exact (and_iff_right (Nat.not_lt.1 hle)).symm

/-- The first block past the capacity in a range that goes on there. -/
theorem exists_past (hn : n ≠ 0) (hcap : 8208 * 4096 < offset + n) :
    ∃ b, 8208 ≤ b ∧ offset / 4096 ≤ b ∧ b * 4096 < offset + n ∧
      ∀ b' < b, offset / 4096 ≤ b' → b' * 4096 < 8208 * 4096 := by
  by_cases hsb : 8208 ≤ offset / 4096
  · have hle := Nat.div_mul_le_self offset 4096
    exact ⟨offset / 4096, hsb, le_rfl,
      hle.trans_lt (Nat.lt_add_of_pos_right (Nat.pos_of_ne_zero hn)),
      fun b' h h' => absurd h (Nat.not_lt.2 h')⟩
  · exact ⟨8208, le_rfl, (Nat.not_le.1 hsb).le, hcap,
      fun b' h _ => Nat.mul_lt_mul_of_pos_right h (by decide)⟩

/-- **Reading** uses indices in bounds exactly when the request fits. -/
theorem readBounded_iff (hi : pathIno fs path 0 = some (some i)) (hlt : offset + n < 2 ^ 64) :
    ReadBounded fs path n offset ↔ ReadFits fs i n offset := by
  unfold ReadBounded ReadFits
  rw [fileCapacity_eq, blockSize_eq]
  constructor
  · intro hall
    by_contra hnot
    push Not at hnot
    obtain ⟨hn, hsize, hcap, hblocks⟩ := hnot
    obtain ⟨b, hb, hle, hend, hbelow⟩ := exists_past hn hcap
    have hbound := hall b ((mem_rufsReadBlocks hi hlt).2 ⟨hsize, hn, hle, hend, fun b' h h' => ?_⟩)
    · rw [inBounds_iff] at hbound
      omega
    · obtain ⟨p, hp⟩ := Option.ne_none_iff_exists'.1 (hblocks b' h (hbelow b' h' h))
      obtain ⟨hsb, hne⟩ := lt_of_blockAt hp
      rw [readPtr_eq hsb, hp]
      exact hne
  · intro hfits sb hmem
    obtain ⟨hsize, hn, hle, hend, hptr⟩ := (mem_rufsReadBlocks hi hlt).1 hmem
    rw [inBounds_iff]
    obtain hzero | hgt | hcap | ⟨b, hb, hlt', hnone⟩ := hfits
    · exact absurd hzero hn
    · omega
    · omega
    · by_contra hsb
      refine hptr b hb (by omega) ?_
      rw [readPtr_eq (by omega), hnone]
      rfl

/-! ## Writing -/

/-- The blocks visited by `rufs_write` are among those of the range. -/
theorem mem_writeTrace (hb : b ∈ (writeTrace buffer size fuel fs x sizeCopy offset sb).1) :
    sizeCopy ≠ 0 ∧ b * 4096 < sb * 4096 + offset % 4096 + sizeCopy := by
  induction fuel generalizing fs x sizeCopy offset sb with
  | zero => cases hb
  | succ fuel ih =>
    by_cases hne : sizeCopy = 0
    · rw [writeTrace, if_pos hne] at hb
      cases hb
    have hpos : 0 < sizeCopy := Nat.pos_of_ne_zero hne
    refine ⟨hne, ?_⟩
    generalize hptr : writePtr fs x sb = res
    obtain ⟨ptr, fs₁, x'⟩ := res
    cases ptr with
    | none =>
      rw [writeTrace_none hne hptr, List.mem_singleton] at hb
      omega
    | some p =>
      rw [writeTrace_some hne hptr, List.mem_cons] at hb
      obtain rfl | hb := hb
      · omega
      · obtain ⟨hrest, hend⟩ := ih hb
        rwa [Nat.zero_mod, Nat.add_zero, chunk_next hrest] at hend

/-- The first block is visited. -/
theorem mem_writeTrace_self (hne : sizeCopy ≠ 0) :
    sb ∈ (writeTrace buffer size (fuel + 1) fs x sizeCopy offset sb).1 := by
  generalize hptr : writePtr fs x sb = res
  obtain ⟨ptr, fs₁, x'⟩ := res
  cases ptr with
  | none =>
    rw [writeTrace_none hne hptr]
    exact List.mem_singleton_self sb
  | some p =>
    rw [writeTrace_some hne hptr]
    exact List.mem_cons_self

/-- **A request that goes past the capacity** looks for a block there, unless the data blocks run
out. -/
theorem writeTrace_past (h : Writing fs.view T i fs₁ x) (hsb : sb ≤ 8208) (hne : sizeCopy ≠ 0)
    (hfuel : sizeCopy ≤ fuel) (hpast : 8208 * 4096 < sb * 4096 + offset % 4096 + sizeCopy) :
    8208 ∈ (writeTrace buffer size fuel fs₁ x sizeCopy offset sb).1 ∨
      ∃ r fs' x', writeLoop buffer size fuel fs₁ x sizeCopy offset sb = some (some r, fs', x') ∧
        Rewrites fs.view T i fs₁ x fs' x' (sb * 4096 + offset % 4096) (8208 * 4096) := by
  induction fuel generalizing fs₁ x sizeCopy offset sb with
  | zero => exact absurd (Nat.le_zero.1 hfuel) hne
  | succ fuel ih =>
    by_cases hlast : sb = 8208
    · exact .inl (hlast ▸ mem_writeTrace_self hne)
    have hcase := writePtr_cases h (show sb < 8208 by omega)
    generalize hptr : writePtr fs₁ x sb = res at hcase
    obtain ⟨ptr, fs₂, x₂⟩ := res
    cases ptr with
    | none =>
      refine .inr ⟨_, fs₂, x₂, writeLoop_none hne hptr, ?_⟩
      cases hcase with
      | full _ _ => exact .refl h
      | stuck _ _ _ h' _ hkeeps => exact hkeeps.rewrites h'
    | some p =>
      obtain ⟨hrewrites, -⟩ := @PtrCase.written _ _ _ _ _ buffer i sb offset sizeCopy _ _ hcase h
      have hpos := @chunk_pos offset sizeCopy hne
      have hrest : sizeCopy - chunk sizeCopy offset ≠ 0 := fun hzero => by
        have := chunk_last hzero
        omega
      have hnext := @chunk_next sb _ _ hrest
      have hle := @chunk_le offset sizeCopy
      rw [writeTrace_some hne hptr, writeLoop_some hne hptr, List.mem_cons]
      obtain hmem | ⟨r, fs', x', heq, hafter⟩ := @ih _ _ (sb + 1) _ 0 hrewrites.writing (by omega)
        hrest (by omega) (by rwa [Nat.zero_mod, Nat.add_zero, hnext])
      · exact .inl (.inr hmem)
      · rw [Nat.zero_mod, Nat.add_zero] at hafter
        refine .inr ⟨r, fs', x', heq, hrewrites.trans hafter ?_ fun o _ => ?_⟩ <;> omega

/-- The blocks that `rufs_write` looks for, when it does not refuse the request. -/
theorem rufsWriteBlocks_eq (h : FileAt T path i fs) (hsize : offset ≤ get (fs.view.slot i) .size) :
    rufsWriteBlocks fs path buffer n offset =
      (writeTrace buffer n n fs (fs.view.slot i) n offset (offset / 4096)).1 := by
  unfold rufsWriteBlocks
  rw [node_of_pathIno h.ino, h.slot]
  exact if_neg (Nat.not_lt.2 hsize)

/-- A request that is refused looks for no block. -/
theorem rufsWrite_refused (h : FileAt T path i fs) (hsize : get (fs.view.slot i) .size < offset) :
    rufsWriteBlocks fs path buffer n offset = [] ∧
      rufsWrite env fs path buffer n offset = some (0, fs) := by
  unfold rufsWriteBlocks rufsWrite
  rw [node_of_pathIno h.ino, h.slot]
  exact ⟨if_pos hsize, if_pos hsize⟩

/-- **A request that fits** uses indices in bounds. -/
theorem WriteFits.bounded (hfits : WriteFits fs i n offset) (h : FileAt T path i fs) :
    WriteBounded env fs path n offset := by
  intro buffer
  by_cases hsize : get (fs.view.slot i) .size < offset
  · obtain ⟨hblocks, hrefused⟩ := @rufsWrite_refused fs env T buffer i n offset path h hsize
    rw [hblocks, hrefused]
    refine ⟨fun sb hsb => absurd hsb List.not_mem_nil, fun _ _ r fs' heq => ?_⟩
    rw [Option.some.injEq, Prod.mk.injEq] at heq
    obtain ⟨rfl, rfl⟩ := heq
    exact ⟨le_rfl, rfl⟩
  rw [rufsWriteBlocks_eq h (Nat.not_lt.1 hsize)]
  obtain rfl | hgt | hcap | hno := hfits
  · exact ⟨fun sb hsb => absurd rfl (mem_writeTrace hsb).1, fun hpos => absurd hpos (lt_irrefl 0)⟩
  · exact absurd (h.slot ▸ hgt) hsize
  · refine ⟨fun sb hsb => ?_, fun _ hgt => absurd hcap (Nat.not_le.2 hgt)⟩
    obtain ⟨-, hend⟩ := mem_writeTrace hsb
    rw [fileCapacity_eq] at hcap
    rw [inBounds_iff]
    omega
  · have hlt := hno.lt
    rw [fileCapacity_eq] at hlt
    refine ⟨fun sb hsb => ?_, fun hpos _ r fs' heq => ?_⟩
    · obtain ⟨m, rfl⟩ := Nat.exists_eq_succ_of_ne_zero (mem_writeTrace hsb).1
      rw [writeTrace_none (Nat.succ_ne_zero m) (hno.writePtr_eq h), List.mem_singleton] at hsb
      rw [inBounds_iff]
      omega
    · obtain ⟨m, rfl⟩ := Nat.exists_eq_succ_of_ne_zero hpos.ne'
      rw [hno.rufsWrite_eq h (Nat.not_lt.1 hsize), Option.some.injEq, Prod.mk.injEq] at heq
      obtain ⟨rfl, rfl⟩ := heq
      exact ⟨outOfBlocks_first _ _, rfl⟩

/-- **A request that uses indices in bounds** fits. -/
theorem WriteFits.of_bounded (h : FileAt T path i fs) (hall : WriteBounded env fs path n offset) :
    WriteFits fs i n offset := by
  by_contra hnot
  unfold WriteFits at hnot
  push Not at hnot
  obtain ⟨hn, hsize, hcap, hno⟩ := hnot
  obtain ⟨m, rfl⟩ := Nat.exists_eq_succ_of_ne_zero hn
  have hlt : offset / 4096 * 4096 + offset % 4096 = offset := by omega
  obtain ⟨buffer, hold, -⟩ := exists_buffer (fs.fileByte i offset)
  obtain ⟨hbounds, hsame⟩ := hall buffer
  have hsame := hsame (Nat.succ_pos m) hcap
  rw [rufsWriteBlocks_eq h (h.slot ▸ hsize)] at hbounds
  rw [rufsWrite_eq h (h.slot ▸ hsize)] at hsame
  have hsb : offset / 4096 < 8208 := inBounds_iff.1 (hbounds _ (mem_writeTrace_self hn))
  rw [fileCapacity_eq] at hcap
  -- The disk is another one, whatever the blocks are.
  have hview : ∀ {fs' : Fs}, fs'.disk = fs.disk → fs'.view.dbit = fs.view.dbit ∧
      ∀ x, fs'.view.fileByte x = fs.view.fileByte x := fun {fs'} hdisk => by
    unfold View.fileByte View.names View.block Fs.view
    rw [hdisk]
    exact ⟨rfl, fun x => rfl⟩
  have hcase := writePtr_cases h.start hsb
  generalize hptr : writePtr fs (fs.view.slot i) (offset / 4096) = res at hcase
  obtain ⟨ptr, fs₁, x'⟩ := res
  cases ptr with
  | none =>
    rw [writeLoop_none hn hptr, Option.map_some] at hsame
    obtain ⟨-, hdisk⟩ := hsame _ _ rfl
    cases hcase with
    | full hnone hfull =>
      exact hno ⟨by rw [fileCapacity_eq]; omega, h.blockAt.trans hnone,
        (full_iff h.mounted).2 hfull⟩
    | stuck _ _ _ _ hmarks _ =>
      obtain ⟨k, -, hfree, hmarked⟩ := hmarks
      rw [(hview hdisk).1, hfree] at hmarked
      cases hmarked
  | some p =>
    obtain ⟨hrewrites, hwritten, hdbit, -⟩ := @PtrCase.written _ _ _ _ _ buffer i (offset / 4096)
      offset (m + 1) _ _ hcase h.start
    have hpos := @chunk_pos offset (m + 1) hn
    have hrest : m + 1 - chunk (m + 1) offset ≠ 0 := fun hzero => by
      have := chunk_last hzero
      omega
    have hnext := @chunk_next (offset / 4096) _ _ hrest
    rw [writeLoop_some hn hptr] at hsame
    rw [writeTrace_some hn hptr] at hbounds
    have hbyte := hwritten 0 hpos
    rw [hlt, Nat.add_zero] at hbyte
    obtain hmem | ⟨r, fs₂, x₂, heq, hafter⟩ := @writeTrace_past fs _ T _ buffer i
      (offset / 4096 + 1) (m + 1) _ 0 m hrewrites.writing (by omega) hrest (by omega)
      (by rwa [Nat.zero_mod, Nat.add_zero, hnext, hlt])
    · exact absurd (inBounds_iff.1 (hbounds _ (List.mem_cons_of_mem _ hmem))) (lt_irrefl _)
    · rw [Nat.zero_mod, Nat.add_zero] at hafter
      rw [heq, Option.map_some] at hsame
      obtain ⟨-, hdisk⟩ := hsame _ _ rfl
      have hvisible := first_visible hold h hcase fun k hk => hafter.marked k (hdbit ▸ hk)
      obtain hne | hne := hafter.writing.visible hvisible
        (hafter.kept _ _ (.inl (by omega)) hbyte)
      · exact hne (hview hdisk).1
      · exact hne (congrFun ((hview hdisk).2 _) offset)

/-! ## Runs -/

/-- The calls that FUSE makes, where every request to read and write fits. -/
def Op.Fits (fs : Fs) : Op → Prop
  | .read path _ size offset => Passed fs path ∧ Regular fs path ∧
      ∀ i, pathIno fs path 0 = some (some i) → ReadFits fs i size offset
  | .write path _ size offset => Passed fs path ∧ Regular fs path ∧
      ∀ i, pathIno fs path 0 = some (some i) → WriteFits fs i size offset
  | op => op.Allowed fs

/-- The state is reached from a new file system by requests that fit. -/
def Fitting (disk : Disk) (fs : Fs) : Prop :=
  ∃ env es, Run (Guarded (fun fs e => e.2.Fits fs) Call) (rufsMkfs env disk).2 es fs

/-- **One write** that fits keeps the inodes in order. -/
theorem WriteFits.spec (hfits : WriteFits fs i n offset) (h : FileAt T path i fs)
    (hp : Passed fs path) (hfile : Regular fs path)
    (heq : rufsWrite env fs path buffer n offset = some (r, fs')) :
    fs'.Mounted ∧ ∃ T', Inv fs'.view T' := by
  by_cases hsize : get (fs.view.slot i) .size < offset
  · rw [(rufsWrite_refused h hsize).2, Option.some.injEq, Prod.mk.injEq] at heq
    obtain ⟨-, rfl⟩ := heq
    exact ⟨h.mounted, T, h.inv⟩
  have hle := Nat.not_lt.1 hsize
  by_cases hn : n = 0
  · subst hn
    rw [rufsWrite_eq h hle, writeLoop_zero, Option.map_some, finishWrite, Option.some.injEq,
      Prod.mk.injEq] at heq
    obtain ⟨-, rfl⟩ := heq
    have hclosed := @Writing.closed fs fs env T _ i 0 h.start
    exact ⟨hclosed.mounted, T, hclosed.wrote.inv⟩
  obtain hzero | hgt | hcap | hno := hfits
  · exact absurd hzero hn
  · exact absurd (h.slot ▸ hgt) hsize
  · obtain ⟨r', fs₁, heq', hm, -, hinv⟩ :=
      @call_spec fs env T (.write path buffer n offset) h.inv h.mounted ⟨hp, hfile, hcap⟩
    rw [Op.call, heq, Option.some.injEq, Prod.mk.injEq] at heq'
    obtain ⟨-, rfl⟩ := heq'
    exact ⟨hm, hinv⟩
  · obtain ⟨m, rfl⟩ := Nat.exists_eq_succ_of_ne_zero hn
    rw [hno.rufsWrite_eq h hle, Option.some.injEq, Prod.mk.injEq] at heq
    obtain ⟨-, rfl⟩ := heq
    exact ⟨h.mounted, T, h.inv⟩

/-- **One call** whose request fits keeps the inodes in order. -/
theorem fits_spec (h : Inv fs.view T) (hm : fs.Mounted) (hop : op.Fits fs)
    (hcall : op.call env fs = some (r, fs')) : fs'.Mounted ∧ ∃ T', Inv fs'.view T' := by
  have hallowed : op.Allowed fs → fs'.Mounted ∧ ∃ T', Inv fs'.view T' := fun hop => by
    obtain ⟨r', fs₁, heq, hm', -, hinv⟩ := @call_spec fs env T op h hm hop
    rw [hcall, Option.some.injEq, Prod.mk.injEq] at heq
    obtain ⟨-, rfl⟩ := heq
    exact ⟨hm', hinv⟩
  cases op with
  | mkdir | create | rmdir | unlink => exact hallowed hop
  | read path buffer size offset =>
    obtain ⟨r', buf, fs₁, heq, hm', -, hinv, -⟩ :=
      @rufsRead_spec fs env T buffer size offset path h hm hop.1.ok hop.1.dirs
    rw [Op.call, heq, Option.map_some, Option.some.injEq, Prod.mk.injEq] at hcall
    obtain ⟨-, rfl⟩ := hcall
    exact ⟨hm', T, hinv⟩
  | write path buffer size offset =>
    obtain ⟨hp, hfile, hfits⟩ := hop
    cases hi : pathIno fs path 0 with
    | none =>
      obtain ⟨hnode, -⟩ | ⟨i, -, hnode⟩ := path_cases h hm hp.ok hp.dirs <;>
        · unfold getNodeByPath at hnode
          rw [hi] at hnode
          cases hnode
    | some found =>
      cases found with
      | none =>
        rw [Op.call, rufsWrite, getNodeByPath, hi] at hcall
        cases hcall
        exact ⟨hm, T, h⟩
      | some i => exact (hfits i hi).spec (.of_passed hm h hp hfile hi) hp hfile hcall

/-- **Every run** of requests that fit keeps the inodes in order. -/
theorem Fitting.spec (h : Fitting disk fs) : fs.Mounted ∧ ∃ T, Inv fs.view T := by
  obtain ⟨env, es, hrun⟩ := h
  refine Run.invariant (I := fun fs : Fs => fs.Mounted ∧ ∃ T, Inv fs.view T) ?_ ?_ hrun
  · obtain ⟨fs₀, heq, hm, -, hinv, -⟩ := @rufsMkfs_spec env disk
    rw [heq]
    exact ⟨hm, _, hinv⟩
  · intro fs e fs' ⟨hm, T, hinv⟩ ⟨hop, r, hcall⟩
    exact fits_spec hinv hm hop hcall

/-- What FUSE does within the capacity of files fits. -/
theorem Reached.fitting (h : Reached disk fs) : Fitting disk fs := by
  obtain ⟨env, es, hrun⟩ := h
  refine ⟨env, es, hrun.mono fun fs e fs' ⟨hop, hcall⟩ => ⟨?_, hcall⟩⟩
  obtain ⟨env, op⟩ := e
  cases op with
  | mkdir | create | rmdir | unlink => exact hop
  | read => exact ⟨hop.1, hop.2.1, fun i _ => .inr (.inr (.inl hop.2.2))⟩
  | write => exact ⟨hop.1, hop.2.1, fun i _ => .inr (.inr (.inl hop.2.2))⟩

/-! ## The condition -/

/-- **The indices are in bounds** exactly when the request fits: in every state that is reached by
requests that fit, for whatever is asked next. -/
theorem block_index_iff (h : Fitting disk fs) (hp : Passed fs path) (hfile : Regular fs path)
    (hi : pathIno fs path 0 = some (some i)) (hlt : offset + n < 2 ^ 64) :
    (WriteBounded env fs path n offset ↔ WriteFits fs i n offset) ∧
      (ReadBounded fs path n offset ↔ ReadFits fs i n offset) := by
  obtain ⟨hm, T, hinv⟩ := h.spec
  have hat := FileAt.of_passed hm hinv hp hfile hi
  exact ⟨⟨.of_bounded hat, fun hfits => hfits.bounded hat⟩, readBounded_iff hi hlt⟩

/-- Five bytes are written and read. -/
theorem block_index_iff_five : ∃ fs : Fs, WriteBounded still fs [47, 102] 5 0 ∧
    ReadBounded fs [47, 102] 5 0 := by
  obtain ⟨fs, hreached, hfs⟩ := reached_of_any Bytes.zero still [(still, .create [47, 102] 0)]
    (fun fs => decide (Passed fs [47, 102]) && decide (Regular fs [47, 102]) &&
      (pathIno fs [47, 102] 0 == some (some 1))) (by decide +kernel)
  simp only [Bool.and_eq_true, decide_eq_true_eq, beq_iff_eq] at hfs
  obtain ⟨⟨hp, hfile⟩, hi⟩ := hfs
  have hiff := @block_index_iff _ fs still 1 5 0 _ hreached.fitting hp hfile hi (by decide)
  exact ⟨fs, hiff.1.2 (.inr (.inr (.inl (by decide)))), hiff.2.2 (.inr (.inr (.inl (by decide))))⟩

/-- More bytes are written to a new file than its pointers have room for. -/
theorem block_index_past : ¬∀ (fs : Fs) (path : CString) (i n offset : ℕ),
    Reached Bytes.zero fs → Passed fs path → Regular fs path →
    pathIno fs path 0 = some (some i) → WriteBounded still fs path n offset := by
  intro hall
  obtain ⟨fs, hreached, hfs⟩ := reached_of_any Bytes.zero still [(still, .create [47, 102] 0)]
    (fun fs => decide (Passed fs [47, 102]) && decide (Regular fs [47, 102]) &&
      (pathIno fs [47, 102] 0 == some (some 1)) && !fs.dataBit 1) (by decide +kernel)
  simp only [Bool.and_eq_true, decide_eq_true_eq, beq_iff_eq, Bool.not_eq_true'] at hfs
  obtain ⟨⟨⟨hp, hfile⟩, hi⟩, hfree⟩ := hfs
  obtain ⟨T, hat⟩ := FileAt.of_reached hreached hp hfile hi
  obtain hzero | hgt | hcap | hno :=
    WriteFits.of_bounded hat (hall fs [47, 102] 1 33619969 0 hreached hp hfile hi)
  · exact absurd hzero (by decide)
  · exact absurd hgt (Nat.not_lt_zero _)
  · exact absurd hcap (by decide)
  · exact absurd (hno.full 1 (by decide)) (by rw [hfree]; decide)

end UserOS.Rufs
