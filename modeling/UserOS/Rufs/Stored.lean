import UserOS.Rufs.ReadBack

/-!
# What writing reports

`rufs_write` stops when no data block is left. Then it has written to some blocks, has perhaps taken
others, and stores neither the inode nor the size.

* `write_reports_iff`: when the result says what has been stored.
-/

namespace UserOS.Rufs

open Lib

variable {disk : Disk} {fs fs' fs₁ fs₂ : Fs} {env : Env} {T : Finset ℕ} {x x' : Inode}
  {buffer : Bytes} {i j k m n o sb offset : ℕ} {c : UInt8} {r : ℤ} {path : CString}

/-! ## Results -/

/-- The result `r` of writing a buffer to file `i` from `offset` on says what has been stored: as
many bytes as a result that is not negative, and none if it is negative. The blocks taken have
owners. -/
structure Reports (fs fs' : Fs) (i : ℕ) (buffer : Bytes) (offset : ℕ) (r : ℤ) : Prop where
  written : 0 ≤ r → ∀ j < r.toNat, fs'.fileByte i (offset + j) = some (buffer j)
  kept : 0 ≤ r → ∀ o c, o < offset ∨ offset + r.toNat ≤ o → fs.fileByte i o = some c →
    fs'.fileByte i o = some c
  covered : 0 ≤ r → offset + r.toNat ≤ get (readi fs' i) .size
  failed : r < 0 → readi fs' i = readi fs i ∧ (∀ o, fs'.fileByte i o = fs.fileByte i o) ∧
    fs'.dataBit = fs.dataBit
  named : ∀ k < maxDnum, fs'.dataBit k = true → fs.dataBit k = true ∨
    ∃ j ref, Live fs' j ∧ fs'.blockAt j ref = some (fs.super .dStartBlk + k)

/-- `rufs_write` says what has been stored, whatever the buffer holds. -/
def WriteReports (env : Env) (fs : Fs) (path : CString) (i n offset : ℕ) : Prop :=
  ∀ buffer r fs', rufsWrite env fs path buffer n offset = some (r, fs') →
    Reports fs fs' i buffer offset r

/-- No data block is free. -/
def Fs.Full (fs : Fs) : Prop := ∀ k < maxDnum, fs.dataBit k = true

/-- A data block is free, and another one when file `i` has no indirect block for its block `sb`. -/
def Fs.Enough (fs : Fs) (i sb : ℕ) : Prop :=
  ∃ k < maxDnum, fs.dataBit k = false ∧
    (15 < sb → indirect (readi fs i) ((sb - 16) / (blockSize / 4)) = -1 →
      ∃ k' < maxDnum, k' ≠ k ∧ fs.dataBit k' = false)

/-- The first block is not there, and none is left. -/
structure NoBlock (fs : Fs) (i offset : ℕ) : Prop where
  lt : offset < fileCapacity
  missing : fs.blockAt i (dataRef (offset / blockSize)) = none
  full : fs.Full

/-- The request lies within one block, which is there or can be taken, and the size does not wrap
around. -/
structure OneBlock (fs : Fs) (i n offset : ℕ) : Prop where
  lt : offset < fileCapacity
  chunk : offset % blockSize + n ≤ blockSize
  size : get (readi fs i) .size + n < 2 ^ 32
  block : fs.blockAt i (dataRef (offset / blockSize)) ≠ none ∨ fs.Enough i (offset / blockSize)

/-- The request overwrites the rest of a block of the file, and no block is left for the next one,
which would be direct. -/
structure FirstBlock (fs : Fs) (i n offset : ℕ) : Prop where
  chunk : blockSize < offset % blockSize + n
  block : fs.blockAt i (dataRef (offset / blockSize)) ≠ none
  direct : offset / blockSize < 15
  missing : fs.blockAt i (dataRef (offset / blockSize + 1)) = none
  full : fs.Full
  size : (offset / blockSize + 1) * blockSize ≤ get (readi fs i) .size

theorem full_iff (hm : fs.Mounted) : fs.Full ↔ ∀ k < 16384, fs.view.dbit k = true := by
  unfold Fs.Full
  rw [dataBit_eq hm]
  rfl

theorem FileAt.enough_iff (h : FileAt T path i fs) :
    fs.Enough i sb ↔ fs.view.Enough (fs.view.slot i) sb := by
  unfold Fs.Enough View.Enough
  rw [dataBit_eq h.mounted, h.slot]
  rfl

theorem FileAt.blockAt (h : FileAt T path i fs) {ref : Ref} :
    fs.blockAt i ref = fs.view.names (fs.view.slot i) ref := blockAt_eq h.inv h.mounted h.mem

/-- No free block is enough when there is none. -/
theorem not_enough {v : View} (h : ∀ k < 16384, v.dbit k = true) : ¬v.Enough x sb := by
  intro ⟨k, hk, hfree, _⟩
  rw [h k hk] at hfree
  cases hfree

/-! ## The first round -/

/-- **The first round** of `rufs_write` ends the call, or writes to one block. -/
theorem FileAt.write_cases (h : FileAt T path i fs) (hsize : offset ≤ get (fs.view.slot i) .size)
    (hlt : offset < fileCapacity) :
    (∃ fs' x', PtrCase fs.view T i fs (fs.view.slot i) (offset / 4096) (none, fs', x') ∧
      rufsWrite env fs path buffer (m + 1) offset =
        some (outOfBlocks (m + 1) (m + 1) (offset / 4096), fs')) ∨
    ∃ p fs₁ x' fs₂, PtrCase fs.view T i fs (fs.view.slot i) (offset / 4096) (some p, fs₁, x') ∧
      Rewrites fs.view T i fs (fs.view.slot i) fs₂ x' offset
        (offset + Rufs.chunk (m + 1) offset) ∧
      (∀ j < Rufs.chunk (m + 1) offset, fs₂.view.fileByte x' (offset + j) = some (buffer j)) ∧
      fs₂.view.dbit = fs₁.view.dbit ∧ fs₂.view.names x' = fs₁.view.names x' ∧
      rufsWrite env fs path buffer (m + 1) offset =
        (writeLoop buffer (m + 1) m fs₂ x' (m + 1 - Rufs.chunk (m + 1) offset) 0
          (offset / 4096 + 1)).map (finishWrite env (m + 1)) := by
  rw [fileCapacity_eq] at hlt
  rw [rufsWrite_eq h hsize]
  obtain ⟨fs', x', hcase, heq⟩ |
      ⟨p, fs₁, x', fs₂, hcase, hrewrites, hwritten, hdbit, hnames, heq⟩ :=
    @writeLoop_cases _ _ _ _ buffer i (offset / 4096) (m + 1) offset (m + 1) m h.start (by omega)
      (Nat.succ_ne_zero m) <;> rw [heq]
  · exact .inl ⟨fs', x', hcase, rfl⟩
  · rw [show offset / 4096 * 4096 + offset % 4096 = offset by omega] at hrewrites hwritten
    exact .inr ⟨p, fs₁, x', fs₂, hcase, hrewrites, hwritten, hdbit, hnames, rfl⟩

/-- Nothing has happened. -/
theorem Reports.same (hr : r ≤ 0) (hsize : offset ≤ get (readi fs i) .size) :
    Reports fs fs i buffer offset r := by
  have hzero : r.toNat = 0 := Int.toNat_of_nonpos hr
  refine ⟨fun _ j hj => ?_, fun _ _ _ _ hc => hc, fun _ => ?_, fun _ => ⟨rfl, fun _ => rfl, rfl⟩,
    fun _ _ hk => .inl hk⟩
  · rw [hzero] at hj
    exact absurd hj (Nat.not_lt_zero j)
  · rwa [hzero, Nat.add_zero]

theorem outOfBlocks_first (n sb : ℕ) : outOfBlocks n n sb ≤ 0 := by
  unfold outOfBlocks
  split
  · rw [Nat.sub_self]
    decide
  · decide

/-- **No block.** `rufs_write` changes nothing. -/
theorem NoBlock.writePtr_eq (hno : NoBlock fs i offset) (h : FileAt T path i fs) :
    writePtr fs (fs.view.slot i) (offset / 4096) = (none, fs, fs.view.slot i) := by
  have hlt := hno.lt
  rw [fileCapacity_eq] at hlt
  have hmissing := h.blockAt.symm.trans hno.missing
  have hfull := (full_iff h.mounted).1 hno.full
  rw [blockSize_eq] at hmissing
  have hcase := writePtr_cases h.start (show offset / 4096 < 8208 by omega)
  generalize writePtr fs (fs.view.slot i) (offset / 4096) = res at hcase ⊢
  cases hcase with
  | full _ _ => rfl
  | stuck _ _ _ _ hmarks _ =>
    obtain ⟨k, hk, hfree, -⟩ := hmarks
    rw [hfull k hk] at hfree
    cases hfree
  | old hname =>
    rw [hname] at hmissing
    cases hmissing
  | new _ henough _ _ _ _ => exact absurd henough (not_enough hfull)

theorem NoBlock.rufsWrite_eq (hno : NoBlock fs i offset) (h : FileAt T path i fs)
    (hsize : offset ≤ get (fs.view.slot i) .size) :
    rufsWrite env fs path buffer (m + 1) offset =
      some (outOfBlocks (m + 1) (m + 1) (offset / 4096), fs) := by
  rw [Rufs.rufsWrite_eq h hsize, writeLoop_none (Nat.succ_ne_zero m) (hno.writePtr_eq h)]
  rfl

theorem NoBlock.reports (hno : NoBlock fs i offset) (h : FileAt T path i fs)
    (hsize : offset ≤ get (readi fs i) .size) (hn : 1 ≤ n) :
    WriteReports env fs path i n offset := by
  obtain ⟨m, rfl⟩ := Nat.exists_eq_succ_of_ne_zero (show n ≠ 0 by omega)
  intro buffer r fs' heq
  rw [hno.rufsWrite_eq h (h.slot ▸ hsize), Option.some.injEq, Prod.mk.injEq] at heq
  obtain ⟨rfl, rfl⟩ := heq
  exact .same (outOfBlocks_first _ _) hsize

/-! ## One block -/

/-- **The full size** is reported. -/
theorem Closed.reports (hc : Closed fs fs₁ fs' x' T i n) (h : FileAt T path i fs)
    (hrewrites : Rewrites fs.view T i fs (fs.view.slot i) fs₁ x' offset (offset + n))
    (hwritten : ∀ j < n, fs₁.view.fileByte x' (offset + j) = some (buffer j))
    (hsize : offset ≤ get (readi fs i) .size) (hwrap : get (readi fs i) .size + n < 2 ^ 32) :
    Reports fs fs' i buffer offset n := by
  obtain ⟨-, hlive, hslot⟩ := h.after hc.wrote hc.mounted
  have hbyte : ∀ o, fs'.fileByte i o = fs₁.view.fileByte x' o := fun o =>
    (fileByte_eq hc.wrote.inv hc.mounted h.mem).trans (hc.byte o)
  refine ⟨fun _ j hj => ?_, fun _ o c ho hold => ?_, fun _ => ?_, fun hneg => ?_,
    fun k _ hk => ?_⟩
  · rw [hbyte]
    exact hwritten j (by omega)
  · rw [hbyte]
    rw [fileByte_eq h.inv h.mounted h.mem] at hold
    exact hrewrites.kept o c (by omega) hold
  · rw [hslot, hc.size, ← h.slot, Nat.mod_eq_of_lt hwrap]
    omega
  · omega
  · rw [dataBit_eq hc.mounted, hc.dbit] at hk
    rw [dataBit_eq h.mounted]
    obtain hold | ⟨ref, hname⟩ := hrewrites.named k hk
    · exact .inl hold
    · refine .inr ⟨i, ref, hlive, ?_⟩
      rw [blockAt_eq hc.wrote.inv hc.mounted h.mem, hc.names, hname, super_dStartBlk h.mounted]

/-- **Within one block.** -/
theorem OneBlock.reports (hone : OneBlock fs i n offset) (h : FileAt T path i fs)
    (hsize : offset ≤ get (readi fs i) .size) (hn : 1 ≤ n) :
    WriteReports env fs path i n offset := by
  obtain ⟨m, rfl⟩ := Nat.exists_eq_succ_of_ne_zero (show n ≠ 0 by omega)
  intro buffer r fs' heq
  have hblock : fs.view.names (fs.view.slot i) (dataRef (offset / 4096)) = none →
      fs.view.Enough (fs.view.slot i) (offset / 4096) := fun hnone => by
    obtain hne | henough := hone.block
    · exact absurd (h.blockAt.trans hnone) hne
    · exact h.enough_iff.1 henough
  have hchunk : Rufs.chunk (m + 1) offset = m + 1 := chunk_of_le hone.chunk
  obtain ⟨fs₁, x', hcase, -⟩ | ⟨p, fs₁, x', fs₂, -, hrewrites, hwritten, -, -, heq'⟩ :=
    @FileAt.write_cases fs env T buffer i m offset path h (h.slot ▸ hsize) hone.lt
  · cases hcase with
    | full hnone hall => exact absurd (hblock hnone) (not_enough hall)
    | stuck hnone _ hnot _ _ _ => exact absurd (hblock hnone) hnot
  · rw [hchunk] at hrewrites hwritten heq'
    rw [heq, Nat.sub_self, writeLoop_zero, Option.map_some, finishWrite, Option.some.injEq,
      Prod.mk.injEq] at heq'
    obtain ⟨rfl, rfl⟩ := heq'
    have hlt : m + 1 < 2 ^ 31 := by
      have hle := hone.chunk
      rw [blockSize_eq] at hle
      omega
    rw [toReturn_eq hlt]
    exact hrewrites.writing.closed.reports h hrewrites hwritten hsize hone.size

/-! ## The first of several blocks -/

/-- The bytes of the file on the disk are those of the file in memory. -/
theorem Writing.fileByte_slot {v w : View} (h : Writing v T i fs x)
    (hw : w.fileByte (v.slot i) o ≠ none) :
    fs.view.fileByte (v.slot i) o = fs.view.fileByte x o := by
  unfold View.fileByte at hw ⊢
  rw [h.names_slot fun hnone => hw (by rw [hnone]; rfl)]

/-- **An early return** after blocks that the file had already. -/
theorem Rewrites.reports (h : FileAt T path i fs)
    (hrewrites : Rewrites fs.view T i fs (fs.view.slot i) fs₁ (fs.view.slot i) offset (offset + n))
    (hwritten : ∀ j < n, fs₁.view.fileByte (fs.view.slot i) (offset + j) = some (buffer j))
    (hdbit : fs₁.view.dbit = fs.view.dbit) (hsize : offset + n ≤ get (readi fs i) .size) :
    Reports fs fs₁ i buffer offset n := by
  have hw := hrewrites.writing
  have hlost := hw.lost h.inv
  obtain ⟨-, -, hslot⟩ := h.after hlost hw.mounted
  rw [hw.slot] at hslot
  have hbyte : ∀ o, fs₁.fileByte i o = fs₁.view.fileByte (fs.view.slot i) o := fun o => by
    rw [fileByte_eq hlost.inv hw.mounted h.mem, hw.slot]
  refine ⟨fun _ j hj => ?_, fun _ o c ho hold => ?_, fun _ => ?_, fun hneg => ?_,
    fun k _ hk => .inl ?_⟩
  · rw [hbyte]
    exact hwritten j (by omega)
  · rw [hbyte]
    rw [fileByte_eq h.inv h.mounted h.mem] at hold
    exact hrewrites.kept o c (by omega) hold
  · rw [hslot, ← h.slot]
    omega
  · omega
  · rwa [dataBit_eq hw.mounted, hdbit, ← dataBit_eq h.mounted] at hk

/-- **The rest of a block.** -/
theorem FirstBlock.reports (hfirst : FirstBlock fs i n offset) (h : FileAt T path i fs)
    (hsize : offset ≤ get (readi fs i) .size) (hn : 1 ≤ n) :
    WriteReports env fs path i n offset := by
  obtain ⟨m, rfl⟩ := Nat.exists_eq_succ_of_ne_zero (show n ≠ 0 by omega)
  intro buffer r fs' heq
  have hfull := (full_iff h.mounted).1 hfirst.full
  have hdirect := hfirst.direct
  have hlt := hfirst.chunk
  have hcover := hfirst.size
  have hmissing := h.blockAt.symm.trans hfirst.missing
  have hblock := hfirst.block
  rw [h.blockAt] at hblock
  rw [blockSize_eq] at hdirect hlt hcover hmissing hblock
  obtain ⟨fs₁, x', hcase, -⟩ | ⟨p, fs₁, x', fs₂, hcase, hrewrites, hwritten, hdbit, -, heq'⟩ :=
    @FileAt.write_cases fs env T buffer i m offset path h (h.slot ▸ hsize)
      (by rw [fileCapacity_eq]; omega)
  · cases hcase with
    | full hnone _ => exact absurd hnone hblock
    | stuck hnone _ _ _ _ _ => exact absurd hnone hblock
  have hchunk : Rufs.chunk (m + 1) offset = 4096 - offset % 4096 :=
    chunk_of_ge hfirst.chunk.le
  rw [hchunk] at hrewrites hwritten heq'
  cases hcase with
  | new hnone _ _ _ _ _ => exact absurd hnone hblock
  | old hname =>
    -- The second round finds no block.
    obtain ⟨m, rfl⟩ := Nat.exists_eq_succ_of_ne_zero (show m ≠ 0 by omega)
    have hfull' : ∀ k < 16384, fs₂.view.dbit k = true := hdbit ▸ hfull
    have href : dataRef (offset / 4096 + 1) = .direct (offset / 4096 + 1) := if_pos (by omega)
    obtain ⟨fs₃, x₃, hcase, hloop⟩ | ⟨p, fs₃, x₃, fs₄, hcase, -⟩ :=
      @writeLoop_cases _ _ _ _ buffer i (offset / 4096 + 1) (m + 1 + 1) 0
        (m + 1 + 1 - (4096 - offset % 4096)) m hrewrites.writing (by omega) (by omega)
    · rw [heq, hloop, Option.map_some, finishWrite, Option.some.injEq, Prod.mk.injEq] at heq'
      obtain ⟨rfl, rfl⟩ := heq'
      have hres : outOfBlocks (m + 1 + 1) (m + 1 + 1 - (4096 - offset % 4096))
          (offset / 4096 + 1) = (4096 - offset % 4096 : ℕ) := by
        unfold outOfBlocks
        rw [if_pos (by omega), toReturn_eq (by omega)]
        omega
      rw [hres]
      cases hcase with
      | full _ _ => exact hrewrites.reports h hwritten hdbit (by omega)
      | stuck _ h15 _ _ _ _ => exact absurd h15 (by omega)
    · cases hcase with
      | old hname =>
        rw [href] at hname hmissing
        rw [names_direct (by omega)] at hname hmissing
        rw [hmissing] at hname
        cases hname
      | new _ henough _ _ _ _ => exact absurd henough (not_enough hfull')

/-! ## What is not reported -/

/-- **A change can be seen**: a block has been marked, or a byte that was there differs. -/
theorem Writing.visible (hw : Writing fs.view T i fs₁ x)
    (hfirst : Marks fs fs₁ ∨
      ∃ c, fs.view.fileByte (fs.view.slot i) offset = some c ∧ c ≠ buffer 0)
    (hbyte : fs₁.view.fileByte x offset = some (buffer 0)) : fs₁.view.dbit ≠ fs.view.dbit ∨
      fs₁.view.fileByte (fs.view.slot i) offset ≠ fs.view.fileByte (fs.view.slot i) offset := by
  obtain ⟨k, -, hfree, hmarked⟩ | ⟨c, hc, hne⟩ := hfirst
  · refine .inl fun hbits => ?_
    rw [hbits, hfree] at hmarked
    cases hmarked
  · refine .inr fun hsame => hne ?_
    rw [hw.fileByte_slot (w := fs.view) (by rw [hc]; exact Option.some_ne_none c), hbyte, hc,
      Option.some.injEq] at hsame
    exact hsame.symm

/-- A call that fails has changed nothing. -/
theorem not_reports_failed (h : FileAt T path i fs) (hw : Writing fs.view T i fs₁ x)
    (hfirst : Marks fs fs₁ ∨
      ∃ c, fs.view.fileByte (fs.view.slot i) offset = some c ∧ c ≠ buffer 0)
    (hbyte : fs₁.view.fileByte x offset = some (buffer 0)) (hneg : r < 0) :
    ¬Reports fs fs₁ i buffer offset r := by
  intro hreports
  obtain ⟨-, hbytes, hbits⟩ := hreports.failed hneg
  obtain hne | hne := hw.visible hfirst hbyte
  · rw [dataBit_eq hw.mounted, dataBit_eq h.mounted] at hbits
    exact hne hbits
  · have hold := hbytes offset
    rw [fileByte_eq (hw.lost h.inv).inv hw.mounted h.mem, fileByte_eq h.inv h.mounted h.mem,
      hw.slot] at hold
    exact hne hold

/-- A call that reports more than `m` bytes has stored byte `m` of the buffer, and no other. -/
theorem not_reports_early (h : FileAt T path i fs) (hw : Writing fs.view T i fs₁ x)
    (hbyte : fs₁.view.fileByte x (offset + m) = some c) (hne : c ≠ buffer m) (hm : (m : ℤ) < r) :
    ¬Reports fs fs₁ i buffer offset r := by
  intro hreports
  have hlost := hw.lost h.inv
  have hstored := hreports.written (by omega) m (by omega)
  rw [fileByte_eq hlost.inv hw.mounted h.mem, hw.slot] at hstored
  rw [hw.fileByte_slot (w := fs₁.view) (by rw [hstored]; exact Option.some_ne_none _), hbyte,
    Option.some.injEq] at hstored
  exact hne hstored

/-- A direct block that is taken and then lost has no owner. -/
theorem not_reports_lost (h : FileAt T path i fs) (hw : Writing fs.view T i fs₁ x)
    (hsb : sb ≤ 15) (hnone : fs.view.names (fs.view.slot i) (dataRef sb) = none)
    (hfree : fs.view.dbit k = false)
    (hname : fs₁.view.names x (dataRef sb) = some (67 + (k : ℤ))) :
    ¬Reports fs fs₁ i buffer offset r := by
  intro hreports
  have hlost := hw.lost h.inv
  obtain ⟨k', hk, heq, hmarked⟩ := hw.used hname
  obtain rfl : k = k' := by omega
  rw [← dataBit_eq hw.mounted] at hmarked
  obtain hold | ⟨j, ref, hlive, howner⟩ := hreports.named k hk hmarked
  · rw [dataBit_eq h.mounted, hfree] at hold
    cases hold
  · have hj := hlive.mem hlost.inv hw.mounted
    rw [blockAt_eq hlost.inv hw.mounted hj, super_dStartBlk h.mounted, hw.slot] at howner
    by_cases hji : j = i
    · subst hji
      have hsame := hw.names_slot (w := fs₁.view) (by rw [howner]; exact Option.some_ne_none _)
      rw [howner] at hsame
      obtain rfl := hw.names_inj hname hsame.symm
      rw [show dataRef sb = .direct sb from if_pos hsb, names_direct (by omega)] at hnone howner
      rw [hnone] at howner
      cases howner
    · have hother := hw.names_other hj hji
      rw [View.setSlot_slot, Function.update_of_ne hji, hw.slot] at hother
      rw [hother] at howner
      exact hw.ne_other hname hj hji howner

/-- A block has been taken for the first bytes, or they replace others. -/
theorem first_visible {p : ℤ} (hold : fs.fileByte i offset ≠ some (buffer 0))
    (h : FileAt T path i fs)
    (hcase : PtrCase fs.view T i fs (fs.view.slot i) (offset / 4096) (some p, fs₁, x))
    (hmarked : ∀ k, fs₁.view.dbit k = true → fs₂.view.dbit k = true) : Marks fs fs₂ ∨
      ∃ c, fs.view.fileByte (fs.view.slot i) offset = some c ∧ c ≠ buffer 0 := by
  cases hcase with
  | old hname =>
    have hbyte := @fileByte_eq fs T i offset h.inv h.mounted h.mem
    unfold View.fileByte at hbyte
    rw [hname, Option.map_some] at hbyte
    refine .inr ⟨_, (by unfold View.fileByte; rw [hname, Option.map_some]), fun hc => hold ?_⟩
    rw [hbyte, hc]
  | @new k _ _ _ _ hfree hw hname _ =>
    obtain ⟨k', hk, heq, hbit⟩ := hw.used hname
    obtain rfl : k = k' := by omega
    exact .inl ⟨k, hk, hfree, hmarked k hbit⟩

/-- **However the loop ends**, byte `m` of the buffer is not stored where another one is. -/
theorem not_reports_later {s fuel : ℕ} (h : FileAt T path i fs) (hw : Writing fs.view T i fs₁ x)
    (hfirst : Marks fs fs₁ ∨
      ∃ c, fs.view.fileByte (fs.view.slot i) offset = some c ∧ c ≠ buffer 0)
    (hbyte : fs₁.view.fileByte x offset = some (buffer 0))
    (hother : fs₁.view.fileByte x (offset + m) = some c) (hne : c ≠ buffer m)
    (hfuel : s ≤ fuel) (hlt : offset + m < sb * 4096) (hms : m + s < n) (hn : n < 2 ^ 31)
    (hcap : sb * 4096 + s ≤ 8208 * 4096) :
    ∃ r fs', (writeLoop buffer n fuel fs₁ x s 0 sb).map (finishWrite env n) = some (r, fs') ∧
      ¬Reports fs fs' i buffer offset r := by
  obtain ⟨res, fs₂, x₂, heq, hrest, hres⟩ := @writeLoop_rewrites _ _ _ _ buffer i sb n 0 s fuel hw
    hfuel (by rwa [Nat.zero_mod, Nat.add_zero])
  rw [Nat.zero_mod, Nat.add_zero] at hrest
  have hbyte' := hrest.kept _ _ (.inl (by omega)) hbyte
  have hother' := hrest.kept _ _ (.inl (by omega)) hother
  rw [heq, Option.map_some]
  obtain rfl | ⟨l, hl, hpos, sb', rfl⟩ := hres <;> rw [finishWrite]
  · -- The inode is stored, and the full size returned.
    have hclosed := @Writing.closed fs fs₂ env T x₂ i n hrest.writing
    refine ⟨_, _, rfl, fun hreports => ?_⟩
    rw [toReturn_eq hn] at hreports
    have hstored := hreports.written (by omega) m (by omega)
    rw [fileByte_eq hclosed.wrote.inv hclosed.mounted h.mem, hclosed.byte, hother',
      Option.some.injEq] at hstored
    exact hne hstored
  · refine ⟨_, _, rfl, ?_⟩
    unfold outOfBlocks
    split
    · rw [toReturn_eq (by omega)]
      exact not_reports_early h hrest.writing hother' hne (by omega)
    · refine not_reports_failed h hrest.writing ?_ hbyte' (by decide)
      obtain ⟨k, hk, hfree, hmarked⟩ | hold := hfirst
      · exact .inl ⟨k, hk, hfree, hrest.marked k hmarked⟩
      · exact .inr hold

/-- **More than one block.** The bytes after the first block are not those of the buffer. -/
theorem FirstBlock.of_reports {p : ℤ} (h : FileAt T path i fs)
    (hcap : offset + (m + 1) ≤ fileCapacity) (hchunk : 4096 < offset % 4096 + (m + 1))
    (hcase : PtrCase fs.view T i fs (fs.view.slot i) (offset / 4096) (some p, fs₁, x))
    (hrewrites : Rewrites fs.view T i fs (fs.view.slot i) fs₂ x offset
      (offset + (4096 - offset % 4096)))
    (hwritten : ∀ j < 4096 - offset % 4096, fs₂.view.fileByte x (offset + j) = some (buffer j))
    (hdbit : fs₂.view.dbit = fs₁.view.dbit) (hnames : fs₂.view.names x = fs₁.view.names x)
    (heq : rufsWrite env fs path buffer (m + 1) offset =
      (writeLoop buffer (m + 1) m fs₂ x (m + 1 - (4096 - offset % 4096)) 0
        (offset / 4096 + 1)).map (finishWrite env (m + 1)))
    (hold : fs.fileByte i offset ≠ some (buffer 0))
    (hnew : buffer 0 ≠ buffer (4096 - offset % 4096))
    (hall : ∀ r fs', rufsWrite env fs path buffer (m + 1) offset = some (r, fs') →
      Reports fs fs' i buffer offset r) : FirstBlock fs i (m + 1) offset := by
  have hlt : offset % 4096 < 4096 := Nat.mod_lt _ (by decide)
  rw [fileCapacity_eq] at hcap
  rw [heq] at hall
  have hbyte := hwritten 0 (by omega)
  have hvisible := fun fs' hmarked => @first_visible fs fs₁ fs' T x buffer i offset path p hold h
    hcase hmarked
  obtain ⟨m, rfl⟩ := Nat.exists_eq_succ_of_ne_zero (show m ≠ 0 by omega)
  obtain ⟨fs₃, x₃, hcase₃, hloop⟩ | ⟨q, -, x₄, fs₄, -, hrewrites₄, hwritten₄, -, -, hloop⟩ :=
    @writeLoop_cases _ _ _ _ buffer i (offset / 4096 + 1) (m + 1 + 1) 0
      (m + 1 + 1 - (4096 - offset % 4096)) m hrewrites.writing (by omega) (by omega)
  · rw [hloop, Option.map_some, finishWrite] at hall
    have hreports := hall _ _ rfl
    by_cases hsb : offset / 4096 + 1 ≤ 15
    · have hres : outOfBlocks (m + 1 + 1) (m + 1 + 1 - (4096 - offset % 4096))
          (offset / 4096 + 1) = (4096 - offset % 4096 : ℕ) := by
        unfold outOfBlocks
        rw [if_pos hsb, toReturn_eq (by omega)]
        omega
      rw [hres] at hreports
      cases hcase₃ with
      | stuck _ h15 _ _ _ _ => exact absurd h15 (by omega)
      | full hnone hfull =>
        cases hcase with
        | new hnull _ hfree _ hname _ =>
          rw [← hnames] at hname
          exact absurd hreports (not_reports_lost h hrewrites.writing (by omega) hnull hfree hname)
        | old hname =>
          have hw := hrewrites.writing
          obtain ⟨-, -, hslot⟩ := h.after (hw.lost h.inv) hw.mounted
          have hcover := hreports.covered (by omega)
          rw [hslot, hw.slot, ← h.slot] at hcover
          refine ⟨hchunk, ?_, hsb, ?_, (full_iff h.mounted).2 (hdbit ▸ hfull), ?_⟩
          · rw [h.blockAt, blockSize_eq, hname]
            exact Option.some_ne_none _
          · rw [h.blockAt, blockSize_eq]
            by_contra hsome
            obtain ⟨q, hq⟩ := Option.ne_none_iff_exists'.1 hsome
            rw [hrewrites.name _ _ hq] at hnone
            cases hnone
          · rw [blockSize_eq]
            omega
    · -- An indirect block is looked for, and the call fails.
      obtain ⟨hw, hkeeps⟩ : Writing fs.view T i fs₃ x₃ ∧ Keeps fs₂ x fs₃ x₃ := by
        cases hcase₃ with
        | full _ _ => exact ⟨hrewrites.writing, .refl⟩
        | stuck _ _ _ hw _ hkeeps => exact ⟨hw, hkeeps⟩
      refine absurd hreports (not_reports_failed h hw (hvisible fs₃ fun k hk => ?_)
        (hkeeps.fileByte hbyte) ?_)
      · exact hkeeps.marked k (hdbit ▸ hk)
      · unfold outOfBlocks
        rw [if_neg hsb]
        decide
  · -- The second block holds the start of the buffer again.
    rw [hloop] at hall
    have hpos := @chunk_pos 0 (m + 1 + 1 - (4096 - offset % 4096)) (by omega)
    have hcases := @chunk_cases 0 (m + 1 + 1 - (4096 - offset % 4096))
    rw [Nat.zero_mod, Nat.add_zero] at hrewrites₄ hwritten₄
    have hbyte₄ := hwritten₄ 0 hpos
    rw [Nat.add_zero, show (offset / 4096 + 1) * 4096 = offset + (4096 - offset % 4096) by omega]
      at hbyte₄
    generalize Rufs.chunk (m + 1 + 1 - (4096 - offset % 4096)) 0 = s at *
    obtain ⟨r, fs', hres, hnot⟩ := @not_reports_later fs fs₄ env T x₄ buffer i
      (4096 - offset % 4096) (m + 1 + 1) (offset / 4096 + 1 + 1) offset (buffer 0) path
      (m + 1 + 1 - (4096 - offset % 4096) - s) m h hrewrites₄.writing
      (hvisible fs₄ fun k hk => hrewrites₄.marked k (hdbit ▸ hk))
      (hrewrites₄.kept _ _ (.inl (by omega)) hbyte) hbyte₄ hnew (by omega) (by omega) (by omega)
      (by omega) (by omega)
    exact absurd (hall r fs' hres) hnot

/-! ## The condition -/

/-- A buffer whose first byte differs from a byte of a file, and from all others. -/
theorem exists_buffer (d : Option UInt8) : ∃ buffer : Bytes, d ≠ some (buffer 0) ∧
    ∀ j, j ≠ 0 → buffer 0 ≠ buffer j := by
  refine ⟨fun j => if j = 0 then d.getD 0 + 1 else d.getD 0 + 2, ?_, fun j hj => ?_⟩
  · cases d with
    | none => exact fun hd => by cases hd
    | some c => simp
  · simp [hj]

/-- **A write that reports** what it stored is one of the three kinds. -/
theorem reports_cases (h : FileAt T path i fs) (hsize : offset ≤ get (readi fs i) .size)
    (hn : 1 ≤ n)
    (hcap : offset + n ≤ fileCapacity) (hall : WriteReports env fs path i n offset) :
    NoBlock fs i offset ∨ OneBlock fs i n offset ∨ FirstBlock fs i n offset := by
  obtain ⟨m, rfl⟩ := Nat.exists_eq_succ_of_ne_zero (show n ≠ 0 by omega)
  have hlt : offset < fileCapacity := by omega
  obtain ⟨buffer, hold, hnew⟩ := exists_buffer (fs.fileByte i offset)
  have hall := hall buffer
  obtain ⟨fs', x', hcase, heq⟩ |
      ⟨p, fs₁, x', fs₂, hcase, hrewrites, hwritten, hdbit, hnames, heq⟩ :=
    @FileAt.write_cases fs env T buffer i m offset path h (h.slot ▸ hsize) hlt
  · cases hcase with
    | full hnone hfull =>
      exact .inl ⟨hlt, h.blockAt.trans hnone, (full_iff h.mounted).2 hfull⟩
    | stuck _ h15 _ hw hmarks _ =>
      obtain ⟨k, hk, hfree, hmarked⟩ := hmarks
      have hneg : outOfBlocks (m + 1) (m + 1) (offset / 4096) < 0 := by
        unfold outOfBlocks
        rw [if_neg (by omega)]
        decide
      obtain ⟨-, -, hbits⟩ := (hall _ _ heq).failed hneg
      rw [dataBit_eq hw.mounted, dataBit_eq h.mounted] at hbits
      rw [hbits, hfree] at hmarked
      cases hmarked
  · refine .inr ?_
    by_cases hchunk : offset % 4096 + (m + 1) ≤ 4096
    · have hc : Rufs.chunk (m + 1) offset = m + 1 := chunk_of_le hchunk
      refine .inl ⟨hlt, hchunk, ?_, ?_⟩
      · have hclosed := @Writing.closed fs fs₂ env T x' i (m + 1) hrewrites.writing
        obtain ⟨-, -, hslot⟩ := h.after hclosed.wrote hclosed.mounted
        rw [hc, Nat.sub_self, writeLoop_zero, Option.map_some, finishWrite,
          toReturn_eq (by omega)] at heq
        have hcover := (hall _ _ heq).covered (by omega)
        have hsize' : get (readi fs i) .size < 2 ^ 32 := Bytes.getNat_lt ..
        rw [hslot, hclosed.size, ← h.slot] at hcover
        omega
      · cases hcase with
        | old hname =>
          refine .inl ?_
          rw [h.blockAt, blockSize_eq, hname]
          exact Option.some_ne_none _
        | new _ henough _ _ _ _ => exact .inr (h.enough_iff.2 henough)
    · have hc : Rufs.chunk (m + 1) offset = 4096 - offset % 4096 :=
        chunk_of_ge (Nat.not_le.1 hchunk).le
      rw [hc] at hrewrites hwritten heq
      exact .inr (.of_reports h hcap (by omega) hcase hrewrites hwritten hdbit hnames heq hold
        (hnew _ (by omega)) hall)

/-- **What is reported is stored** when nothing can be written, or within one block, or up to the
end of a block that the file has already when the next one cannot be had. For the requests within
the capacity of a file these are all: in every other case some buffer is stored in part, or not as
it is. -/
theorem write_reports_iff (h : Reached disk fs) (hp : Passed fs path) (hfile : Regular fs path)
    (hi : pathIno fs path 0 = some (some i)) (hsize : offset ≤ get (readi fs i) .size)
    (hn : 1 ≤ n) :
    (NoBlock fs i offset ∨ OneBlock fs i n offset ∨ FirstBlock fs i n offset →
      WriteReports env fs path i n offset) ∧
    (offset + n ≤ fileCapacity → WriteReports env fs path i n offset →
      NoBlock fs i offset ∨ OneBlock fs i n offset ∨ FirstBlock fs i n offset) := by
  obtain ⟨T, hat⟩ := FileAt.of_reached h hp hfile hi
  refine ⟨?_, reports_cases hat hsize hn⟩
  rintro (hno | hone | hfirst)
  · exact hno.reports hat hsize hn
  · exact hone.reports hat hsize hn
  · exact hfirst.reports hat hsize hn

/-- Five bytes are stored. -/
theorem write_reports_iff_five : ∃ fs : Fs, WriteReports still fs [47, 102] 1 5 0 := by
  obtain ⟨fs, hreached, hfs⟩ := reached_of_any Bytes.zero still [(still, .create [47, 102] 0)]
    (fun fs => decide (Passed fs [47, 102]) && decide (Regular fs [47, 102]) &&
      (pathIno fs [47, 102] 0 == some (some 1)) && get (readi fs 1) .size == 0 &&
      !fs.dataBit 1) (by decide +kernel)
  simp only [Bool.and_eq_true, decide_eq_true_eq, beq_iff_eq, Bool.not_eq_true'] at hfs
  obtain ⟨⟨⟨⟨hp, hfile⟩, hi⟩, hsize⟩, hfree⟩ := hfs
  refine ⟨fs, (write_reports_iff hreached hp hfile hi (Nat.zero_le _) (by decide)).1
    (.inr (.inl ⟨by decide, by decide, by rw [hsize]; decide, .inr ⟨1, by decide, hfree, ?_⟩⟩))⟩
  exact fun h15 => absurd h15 (by decide)

/-- Two blocks of data that are not alike are written. -/
theorem write_reports_long : ¬∀ (fs : Fs) (path : CString) (i n offset : ℕ),
    Reached Bytes.zero fs → Passed fs path → Regular fs path →
    pathIno fs path 0 = some (some i) → offset ≤ get (readi fs i) .size → 1 ≤ n →
    WriteReports still fs path i n offset := by
  intro hall
  obtain ⟨fs, hreached, hfs⟩ := reached_of_any Bytes.zero still [(still, .create [47, 102] 0)]
    (fun fs => decide (Passed fs [47, 102]) && decide (Regular fs [47, 102]) &&
      (pathIno fs [47, 102] 0 == some (some 1)) &&
      (rufsWrite still fs [47, 102] (fun k => if k < 4096 then 7 else 8) 4097 0).any
        fun r : ℤ × Fs => r.1 == 4097 && r.2.fileByte 1 4096 == some 7) (by decide +kernel)
  simp only [Bool.and_eq_true, decide_eq_true_eq, beq_iff_eq, Option.any_eq_true] at hfs
  obtain ⟨⟨⟨hp, hfile⟩, hi⟩, ⟨r, fs'⟩, hw, hr, hbyte⟩ := hfs
  obtain rfl : r = 4097 := hr
  have hstored := (hall fs [47, 102] 1 4097 0 hreached hp hfile hi (Nat.zero_le _) (by decide) _ _ _
    hw).written (by decide) 4096 (by decide)
  rw [hbyte] at hstored
  exact absurd hstored (by decide)

end UserOS.Rufs
