import UserOS.Rufs.Files

/-!
# Reading files

`rufs_read` refuses every request that goes past the end of the file, and copies each block to the
start of the caller's buffer.

* `read_delivers_iff`: when a request is answered as it should be.
* `read_after_write_iff`: when a request finds what has been written.
-/

namespace UserOS.Rufs

open Lib

variable {disk : Disk} {fs fs' : Fs} {env env' : Env} {T : Finset ℕ} {x x' : Inode}
  {buf caller buffer : Bytes} {i j k n o size offset : ℕ} {p : ℤ} {path : CString}

/-! ## The bytes there are -/

/-- The number of bytes that a file of `s` bytes has for a request. -/
def bytesLeft (s size offset : ℕ) : ℕ := if offset < s then min size (s - offset) else 0

/-- `rufs_read` of the path of file `i` returns the number of bytes there are, and fills as many
bytes of the buffer, whatever it holds. -/
def Delivers (env : Env) (fs : Fs) (path : CString) (i size offset : ℕ) : Prop :=
  ∀ caller, ∃ buf fs', rufsRead env fs path caller size offset =
      some ((bytesLeft (get (readi fs i) .size) size offset : ℤ), buf, fs') ∧
    (∀ j < bytesLeft (get (readi fs i) .size) size offset,
      fs.fileByte i (offset + j) = some (buf j)) ∧
    ∀ j, bytesLeft (get (readi fs i) .size) size offset ≤ j → buf j = caller j

/-- The request lies in the file and within one of its blocks. -/
structure WithinBlock (fs : Fs) (i size offset : ℕ) : Prop where
  le : offset + size ≤ get (readi fs i) .size
  chunk : offset % blockSize + size ≤ blockSize
  block : fs.blockAt i (dataRef (offset / blockSize)) ≠ none

theorem bytesLeft_of_le {s : ℕ} (h : offset + size ≤ s) : bytesLeft s size offset = size := by
  unfold bytesLeft
  split <;> omega

/-- **Within a block** the bytes of the file are delivered. -/
theorem WithinBlock.delivers (h : WithinBlock fs i size offset)
    (hi : pathIno fs path 0 = some (some i)) (hpos : 0 < size) (hlt : offset + size < 2 ^ 64) :
    Delivers env fs path i size offset := by
  obtain ⟨p, hp⟩ := Option.ne_none_iff_exists'.1 h.block
  intro caller
  rw [bytesLeft_of_le h.le]
  obtain ⟨fs', heq⟩ := @rufsRead_chunk fs env caller i size offset p path hi
    (by rw [Nat.mod_eq_of_lt hlt]; exact h.le) hpos h.chunk hp
  refine ⟨_, fs', heq, fun j hj => ?_, fun j hj => Bytes.copy_of_outside (by omega)⟩
  have hchunk := h.chunk
  unfold Fs.fileByte
  rw [blockSize_eq] at hchunk hp ⊢
  rw [show (offset + j) / 4096 = offset / 4096 by omega, hp, Option.map_some,
    Bytes.copy_of_inside (Nat.zero_le j) (by omega), Nat.sub_zero,
    show (offset + j) % 4096 = offset % 4096 + j by omega]

/-- Where there are no bytes, none are delivered. -/
theorem delivers_nothing (hi : pathIno fs path 0 = some (some i)) (hlt : offset + size < 2 ^ 64)
    (h : bytesLeft (get (readi fs i) .size) size offset = 0) :
    Delivers env fs path i size offset := by
  have hmod : (offset + size) % 2 ^ 64 = offset + size := Nat.mod_eq_of_lt hlt
  intro caller
  rw [h]
  by_cases hle : offset + size ≤ get (readi fs i) .size
  · rw [bytesLeft_of_le hle] at h
    subst h
    rw [rufsRead_eq hi (by rwa [hmod]), readLoop_zero]
    exact ⟨caller, _, rfl, fun j hj => absurd hj (Nat.not_lt_zero j), fun _ _ => rfl⟩
  · refine ⟨caller, fs, ?_, fun j hj => absurd hj (Nat.not_lt_zero j), fun _ _ => rfl⟩
    unfold rufsRead
    rw [node_of_pathIno hi, Option.bind_some]
    exact if_pos (by rw [hmod]; omega)

/-- **Reading near the end.** A request is answered with the bytes there are if and only if there
are none, none are asked for, or the request lies in the file and within one of its blocks: those
that go past the end of the file get nothing, and those that go over a block boundary get a wrong
buffer. -/
theorem read_delivers_iff (hi : pathIno fs path 0 = some (some i)) (hlt : offset + size < 2 ^ 64) :
    Delivers env fs path i size offset ↔
      size = 0 ∨ get (readi fs i) .size ≤ offset ∨ WithinBlock fs i size offset := by
  have hmod : (offset + size) % 2 ^ 64 = offset + size := Nat.mod_eq_of_lt hlt
  have hnode := node_of_pathIno hi
  constructor
  · intro h
    by_contra hnot
    obtain ⟨hpos, hnot⟩ := not_or.1 hnot
    obtain ⟨hoff, hwithin⟩ := not_or.1 hnot
    obtain ⟨buf, fs', heq, hbytes, -⟩ := h Bytes.zero
    have hle : offset + size ≤ get (readi fs i) .size := by
      by_contra hgt
      unfold rufsRead at heq
      rw [hnode, Option.bind_some] at heq
      dsimp only at heq
      rw [hmod, if_pos (by omega), Option.some.injEq, Prod.mk.injEq] at heq
      have hleft := heq.1
      unfold bytesLeft at hleft
      rw [if_pos (by omega)] at hleft
      omega
    rw [bytesLeft_of_le hle] at hbytes
    have hblock : fs.blockAt i (dataRef (offset / blockSize)) ≠ none := fun hnone => by
      have hbyte := hbytes 0 (by omega)
      unfold Fs.fileByte at hbyte
      rw [Nat.add_zero, hnone] at hbyte
      cases hbyte
    have hchunk : blockSize < offset % blockSize + size := by
      by_contra hchunk
      exact hwithin ⟨hle, by omega, hblock⟩
    -- The last byte is that of the caller's buffer, whatever it is.
    obtain ⟨buf', fs'', heq', hbytes', -⟩ := h fun _ => 1
    rw [bytesLeft_of_le hle] at hbytes'
    have hlast := hbytes (size - 1) (by omega)
    rw [hbytes' (size - 1) (by omega), rufsRead_beyond hchunk heq, rufsRead_beyond hchunk heq',
      Option.some.injEq] at hlast
    exact absurd hlast (show ¬(1 : UInt8) = 0 by decide)
  · intro h
    by_cases hnone : bytesLeft (get (readi fs i) .size) size offset = 0
    · exact delivers_nothing hi hlt hnone
    · unfold bytesLeft at hnone
      have hwithin : WithinBlock fs i size offset := by
        obtain hpos | hoff | hwithin := h
        · exact absurd (by split <;> omega) hnone
        · exact absurd (if_neg (by omega)) hnone
        · exact hwithin
      exact hwithin.delivers hi (by split at hnone <;> omega) hlt

/-- Three bytes of a file of five. -/
theorem read_delivers_iff_tail : ∃ fs : Fs, Delivers still fs [47, 102] 1 3 1 := by
  obtain ⟨fs, -, hfs⟩ := reached_of_any Bytes.zero still
    [(still, .create [47, 102] 0), (still, .write [47, 102] (fun _ => 7) 5 0)]
    (fun fs => (pathIno fs [47, 102] 0 == some (some 1)) && get (readi fs 1) .size == 5 &&
      (fs.blockAt 1 (.direct 0)).isSome) (by decide +kernel)
  simp only [Bool.and_eq_true, beq_iff_eq, Option.isSome_iff_ne_none] at hfs
  obtain ⟨⟨hi, hsize⟩, hblock⟩ := hfs
  exact ⟨fs, (read_delivers_iff hi (by decide)).2
    (.inr (.inr ⟨by rw [hsize]; decide, by decide, hblock⟩))⟩

/-- A page of a file of five bytes is asked for. -/
theorem read_delivers_page : ¬∀ (fs : Fs) (path : CString) (i size offset : ℕ),
    Reached Bytes.zero fs → Passed fs path → Regular fs path →
    pathIno fs path 0 = some (some i) → offset + size < 2 ^ 64 →
    Delivers still fs path i size offset := by
  intro hall
  obtain ⟨fs, hreached, hfs⟩ := reached_of_any Bytes.zero still
    [(still, .create [47, 102] 0), (still, .write [47, 102] (fun _ => 7) 5 0)]
    (fun fs => decide (Passed fs [47, 102]) && decide (Regular fs [47, 102]) &&
      (pathIno fs [47, 102] 0 == some (some 1)) && get (readi fs 1) .size == 5 &&
      ((rufsRead still fs [47, 102] Bytes.zero 4096 0).map Prod.fst == some 0)) (by decide +kernel)
  simp only [Bool.and_eq_true, decide_eq_true_eq, beq_iff_eq] at hfs
  obtain ⟨⟨⟨⟨hp, hfile⟩, hi⟩, hsize⟩, hr⟩ := hfs
  obtain ⟨buf, fs', heq, -⟩ :=
    hall fs [47, 102] 1 4096 0 hreached hp hfile hi (by decide) Bytes.zero
  rw [heq, Option.map_some, hsize, Option.some.injEq] at hr
  exact absurd (show (bytesLeft 5 4096 0 : ℤ) = 0 from hr) (by decide)

/-! ## What was written -/

/-- `rufs_read` gives back the `n` bytes of the buffer that were written to file `i`, and the other
bytes are as before. -/
structure ReadsBack (env : Env) (fs fs' : Fs) (path : CString) (i : ℕ) (buffer : Bytes)
    (n offset : ℕ) : Prop where
  read : ∀ caller, ∃ buf fs'', rufsRead env fs' path caller n offset = some ((n : ℤ), buf, fs'') ∧
    ∀ j < n, buf j = buffer j
  kept : ∀ o c, o < offset ∨ offset + n ≤ o → o < get (readi fs i) .size →
    fs.fileByte i o = some c → fs'.fileByte i o = some c

/-- **Reading after writing.** What was written is read back if and only if it lies in one block,
and the size of the file does not wrap around: a request over a block boundary fills the start of
the caller's buffer again and again. -/
theorem read_after_write_iff (h : Reached disk fs) (hp : Passed fs path) (hfile : Regular fs path)
    (hi : pathIno fs path 0 = some (some i)) (hn : 1 ≤ n) (hcap : offset + n ≤ fileCapacity)
    (hw : rufsWrite env fs path buffer n offset = some ((n : ℤ), fs')) :
    ReadsBack env' fs fs' path i buffer n offset ↔
      offset % blockSize + n ≤ blockSize ∧ get (readi fs i) .size + n < 2 ^ 32 := by
  obtain ⟨T, hat⟩ := FileAt.of_reached h hp hfile hi
  obtain ⟨hsize, fs₁, x', hloop, hrewrites, hclosed⟩ := rufsWrite_full hat hn hcap hw
  obtain ⟨hi', -, hslot'⟩ := hat.after hclosed.wrote hclosed.mounted
  rw [← hat.slot] at hsize
  have hsize' : get (readi fs' i) .size = (get (readi fs i) .size + n) % 2 ^ 32 := by
    rw [hslot', hat.slot, hclosed.size]
  have hbyte : ∀ o, fs'.fileByte i o = fs₁.view.fileByte x' o := fun o =>
    (fileByte_eq hclosed.wrote.inv hclosed.mounted hat.mem).trans (hclosed.byte o)
  have hlt : get (readi fs i) .size < 2 ^ 32 := Bytes.getNat_lt ..
  rw [fileCapacity_eq] at hcap
  have hmod : (offset + n) % 2 ^ 64 = offset + n := Nat.mod_eq_of_lt (by omega)
  constructor
  · intro hback
    obtain ⟨buf, fs'', heq, hbuf⟩ := hback.read fun _ => buffer (n - 1) + 1
    refine ⟨?_, ?_⟩
    · by_contra hchunk
      have hlast := hbuf (n - 1) (by omega)
      rw [rufsRead_beyond (by omega) heq] at hlast
      exact absurd hlast (by simp)
    · by_contra hwrap
      unfold rufsRead at heq
      rw [node_of_pathIno hi', Option.bind_some] at heq
      dsimp only at heq
      rw [hmod, hsize', if_pos (by omega), Option.some.injEq, Prod.mk.injEq] at heq
      omega
  · intro ⟨hchunk, hwrap⟩
    refine ⟨fun caller => ?_, fun o c ho _ hc => ?_⟩
    · have hwritten : ∀ j < n, fs'.fileByte i (offset + j) = some (buffer j) := by
        intro j hj
        obtain hearly | hfirst := writeLoop_first hat.start le_rfl (by omega) (by omega) hloop
        · cases hearly
        · rw [hbyte, ← hfirst j (by rwa [chunk_of_le hchunk])]
          congr 1
          omega
      have hwithin : WithinBlock fs' i n offset := by
        refine ⟨by rw [hsize', Nat.mod_eq_of_lt hwrap]; omega, hchunk, fun hnone => ?_⟩
        have hfirst := hwritten 0 (by omega)
        unfold Fs.fileByte at hfirst
        rw [Nat.add_zero, hnone] at hfirst
        cases hfirst
      obtain ⟨buf, fs'', heq, hbytes, -⟩ := hwithin.delivers hi' (by omega) (by omega) caller
      rw [bytesLeft_of_le hwithin.le] at heq hbytes
      refine ⟨buf, fs'', heq, fun j hj => ?_⟩
      have hj' := hbytes j hj
      rwa [hwritten j hj, Option.some.injEq, eq_comm] at hj'
    · rw [hbyte]
      rw [fileByte_eq hat.inv hat.mounted hat.mem] at hc
      exact hrewrites.kept o c ho hc

/-- Five bytes are read back. -/
theorem read_after_write_iff_five : ∃ fs fs' : Fs,
    ReadsBack still fs fs' [47, 102] 1 (fun _ => 7) 5 0 := by
  obtain ⟨fs, hreached, hfs⟩ := reached_of_any Bytes.zero still [(still, .create [47, 102] 0)]
    (fun fs => decide (Passed fs [47, 102]) && decide (Regular fs [47, 102]) &&
      (pathIno fs [47, 102] 0 == some (some 1)) && get (readi fs 1) .size == 0 &&
      (rufsWrite still fs [47, 102] (fun _ => 7) 5 0).any fun r : ℤ × Fs => r.1 == 5)
    (by decide +kernel)
  simp only [Bool.and_eq_true, decide_eq_true_eq, beq_iff_eq, Option.any_eq_true] at hfs
  obtain ⟨⟨⟨⟨hp, hfile⟩, hi⟩, hsize⟩, ⟨r, fs'⟩, hw, hr⟩ := hfs
  obtain rfl : r = 5 := hr
  exact ⟨fs, fs', (read_after_write_iff hreached hp hfile hi (by decide) (by decide) hw).2
    ⟨by decide, by rw [hsize]; decide⟩⟩

/-- One byte more than a block is written. -/
theorem read_after_write_long : ¬∀ (fs fs' : Fs) (path : CString) (i : ℕ) (buffer : Bytes)
    (n offset : ℕ), Reached Bytes.zero fs → Passed fs path → Regular fs path →
    pathIno fs path 0 = some (some i) → offset ≤ get (readi fs i) .size → 1 ≤ n →
    offset + n ≤ fileCapacity → rufsWrite still fs path buffer n offset = some ((n : ℤ), fs') →
    ReadsBack still fs fs' path i buffer n offset := by
  intro hall
  obtain ⟨fs, hreached, hfs⟩ := reached_of_any Bytes.zero still [(still, .create [47, 102] 0)]
    (fun fs => decide (Passed fs [47, 102]) && decide (Regular fs [47, 102]) &&
      (pathIno fs [47, 102] 0 == some (some 1)) &&
      (rufsWrite still fs [47, 102] (fun _ => 7) 4097 0).any fun r : ℤ × Fs => r.1 == 4097)
    (by decide +kernel)
  simp only [Bool.and_eq_true, decide_eq_true_eq, beq_iff_eq, Option.any_eq_true] at hfs
  obtain ⟨⟨⟨hp, hfile⟩, hi⟩, ⟨r, fs'⟩, hw, hr⟩ := hfs
  obtain rfl : r = 4097 := hr
  obtain ⟨buf, fs'', heq, hbytes⟩ := (hall fs fs' [47, 102] 1 (fun _ => 7) 4097 0 hreached hp hfile
      hi
    (Nat.zero_le _) (by decide) (by decide) hw).read Bytes.zero
  have hlast := hbytes 4096 (by decide)
  rw [show 4096 = 4097 - 1 from rfl, rufsRead_beyond (by decide) heq] at hlast
  exact absurd hlast (by decide)

end UserOS.Rufs
