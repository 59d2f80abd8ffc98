import UserOS.Lib.FileTree
import UserOS.Rufs.Files

/-!
# Requests within one page

A request that lies in one page of a file takes one round of the loops of `rufs_write` and
`rufs_read`. On a disk whose free blocks hold zeros it stores or finds exactly the bytes asked for.

* `rufsWrite_page`: the bytes of the file after a write, also after one that fails.
* `rufsRead_page`: the result of a read, and the caller's buffer.
-/

namespace UserOS.Rufs

open Lib

variable {v : View} {fs fs' fs₁ : Fs} {env : Env} {T : Finset ℕ} {x x' : Inode}
  {buf caller buffer : Bytes} {i k n o sb offset : ℕ} {p r : ℤ} {ptr : Option ℤ} {path : CString}

/-- On a fresh disk the blocks that are not marked hold zeros. -/
theorem Reached.freeZero (h : Reached Bytes.zero fs) : FreeZero fs.view := by
  obtain ⟨-, hsteps, -⟩ := h.spec
  refine FreeZero.steps (fun k _ _ => ?_) hsteps
  exact @slice_zero ((67 + k) * 4096) 4096

/-! ## Writing -/

/-- The other pages stay when a block is looked for. -/
theorem PtrQuiet.fileByte (hq : PtrQuiet fs x sb (ptr, fs', x')) (hk : Keeps fs x fs' x')
    (ho : o / 4096 ≠ sb) : fs'.view.fileByte x' o = fs.view.fileByte x o := by
  have hname : fs'.view.names x' (dataRef (o / 4096)) = fs.view.names x (dataRef (o / 4096)) :=
    hq.others _ ho
  unfold View.fileByte
  rw [hname]
  refine Option.map_congr fun p hp => ?_
  rw [hk.data _ _ hp fun _ => dataRef_ne_indirect]

/-- **The page** is stored in the block found. -/
theorem PtrCase.page (hcase : PtrCase v T i fs x (offset / 4096) (some p, fs₁, x'))
    (hquiet : PtrQuiet fs x (offset / 4096) (some p, fs₁, x')) (h : Writing v T i fs x)
    (hzero : FreeZero fs.view) (hn : n ≠ 0) :
    (fs₁.writeChunk p buffer offset n).view.fileByte x' =
      storePage 4096 0 (fs.view.fileByte x) buffer n offset := by
  obtain ⟨k, rfl, hw, hname, hkeeps, hdata⟩ : ∃ k : ℕ, p = 67 + (k : ℤ) ∧ Writing v T i fs₁ x' ∧
      fs₁.view.names x' (dataRef (offset / 4096)) = some (67 + (k : ℤ)) ∧ Keeps fs x fs₁ x' ∧
      ∀ o, o / 4096 = offset / 4096 →
        fs₁.view.blk k (o % 4096) = (fs.view.fileByte x o).getD 0 := by
    cases hcase with
    | old hname =>
      refine ⟨_, rfl, h, hname, .refl, fun o ho => ?_⟩
      rw [View.fileByte, ho, hname, Option.map_some, Option.getD_some, View.block_add]
    | @new k _ _ hnone _ hfree hw hname hkeeps =>
      refine ⟨k, rfl, hw, hname, hkeeps, fun o ho => ?_⟩
      obtain ⟨k', hk, heq, -⟩ := hw.used hname
      obtain rfl : k = k' := by omega
      have hblk : fs₁.view.blk k = fs.view.blk k := hquiet.taken k hfree rfl
      rw [View.fileByte, ho, hnone, Option.map_none, Option.getD_none, hblk, hzero k hk hfree]
      rfl
  obtain ⟨k', hk, heq, -⟩ := hw.used hname
  obtain rfl : k = k' := by omega
  have hview := @bioWrite_view fs₁ k
    ((bioRead fs₁.disk (67 + (k : ℤ))).copy (offset % blockSize) buffer 0 n) _ hk rfl
  rw [bioRead_blk hk rfl] at hview
  funext o
  have hcond : n ≠ 0 ∧ o / 4096 = offset / 4096 ↔ o / 4096 = offset / 4096 := and_iff_right hn
  unfold Fs.writeChunk storePage
  rw [bioRead_blk hk rfl, hw.fileByte_setData hname (hw.mounted.setDisk _) hview, blockSize_eq,
    if_congr hcond rfl rfl]
  split
  next ho =>
    rw [Bytes.slice_of_lt (Nat.mod_lt _ (by decide)), Nat.zero_add]
    split
    next hin =>
      rw [Bytes.copy_of_inside (by omega) (by omega)]
      congr 2
      omega
    next hout => rw [Bytes.copy_of_outside (by omega), hdata o ho]
  next ho => exact hquiet.fileByte hkeeps ho

/-- **No block.** The bytes of the file stay, and its page is missing. -/
theorem PtrCase.no_page
    (hcase : PtrCase fs.view T i fs (fs.view.slot i) (offset / 4096) (none, fs', x'))
    (hquiet : PtrQuiet fs (fs.view.slot i) (offset / 4096) (none, fs', x'))
    (h : Writing fs.view T i fs (fs.view.slot i)) :
    Writing fs.view T i fs' x' ∧ fs.view.fileByte (fs.view.slot i) offset = none ∧
      fs'.view.fileByte (fs.view.slot i) = fs.view.fileByte (fs.view.slot i) := by
  cases hcase with
  | full hnone _ => exact ⟨h, by rw [View.fileByte, hnone, Option.map_none], rfl⟩
  | stuck hnone h15 hnot hw hmarks hkeeps =>
    refine ⟨hw, by rw [View.fileByte, hnone, Option.map_none], funext fun o => ?_⟩
    by_cases ho : o / 4096 = offset / 4096
    · -- The indirect block that has been taken is lost with the inode in memory.
      have hnull : indirect (fs.view.slot i) ((offset / 4096 - 16) / 1024) = -1 := by
        by_contra hne
        obtain ⟨k, hk, hfree, -⟩ := hmarks
        exact hnot ⟨k, hk, hfree, fun _ hnull => absurd hnull hne⟩
      have hnames : ∀ w : View, w.names (fs.view.slot i) (dataRef (offset / 4096)) = none := by
        intro w
        rw [dataRef, if_neg (by omega)]
        exact if_neg fun hh => hh.2.2 hnull
      unfold View.fileByte
      rw [ho, hnames, hnames]
      rfl
    · rw [← hquiet.fileByte hkeeps ho]
      unfold View.fileByte
      cases hs : fs'.view.names (fs.view.slot i) (dataRef (o / 4096)) with
      | some p =>
        rw [← hs, hw.names_slot (w := fs'.view) (by rw [hs]; exact Option.some_ne_none p)]
      | none =>
        cases hx : fs'.view.names x' (dataRef (o / 4096)) with
        | none => rfl
        | some p =>
          have hold : fs'.view.names x' (dataRef (o / 4096)) =
              fs.view.names (fs.view.slot i) (dataRef (o / 4096)) := hquiet.others _ ho
          rw [hw.names_slot (w := fs.view) (by rw [← hold, hx]; exact Option.some_ne_none p),
            hx] at hs
          cases hs

/-- File `i` is written, or not: its inode afterwards has the size `s` and the bytes `f`. -/
structure Rewritten (fs fs' : Fs) (T : Finset ℕ) (i s : ℕ) (f : ℕ → Option UInt8) : Prop where
  mounted : fs'.Mounted
  wrote : Wrote fs.view fs'.view T i
  size : get (fs'.view.slot i) .size = s
  byte : fs'.view.fileByte (fs'.view.slot i) = f

/-- **Writing within one page** stores the bytes, or finds no block for the page and changes no
byte. -/
theorem rufsWrite_page (h : FileAt T path i fs) (hzero : FreeZero fs.view)
    (hsize : offset ≤ get (fs.view.slot i) .size) (hcap : offset + n ≤ 8208 * 4096)
    (hchunk : offset % 4096 + n ≤ 4096) :
    (∃ fs', rufsWrite env fs path buffer n offset =
        some (outOfBlocks n n (offset / 4096), fs') ∧ n ≠ 0 ∧
      fs.view.fileByte (fs.view.slot i) offset = none ∧
      Rewritten fs fs' T i (get (fs.view.slot i) .size) (fs.view.fileByte (fs.view.slot i))) ∨
    ∃ fs', rufsWrite env fs path buffer n offset = some ((n : ℤ), fs') ∧
      Rewritten fs fs' T i ((get (fs.view.slot i) .size + n) % 2 ^ 32)
        (storePage 4096 0 (fs.view.fileByte (fs.view.slot i)) buffer n offset) := by
  have hclosed : ∀ {fs₁ x'}, Writing fs.view T i fs₁ x' → Rewritten fs
      (writei fs₁ (env.time 1) (get (closedInode env x' n) .ino) (closedInode env x' n)) T i
      ((get (fs.view.slot i) .size + n) % 2 ^ 32) (fs₁.view.fileByte x') := fun hw =>
    have hc := @Writing.closed fs _ env T _ i n hw
    ⟨hc.mounted, hc.wrote, hc.size, funext hc.byte⟩
  rw [rufsWrite_eq h hsize]
  obtain _ | m := n
  · rw [writeLoop_zero, storePage_zero]
    exact .inr ⟨_, rfl, hclosed h.start⟩
  have hn : m + 1 ≠ 0 := Nat.succ_ne_zero m
  have hone : chunk (m + 1) offset = m + 1 := chunk_of_le hchunk
  obtain ⟨hcase, hquiet⟩ := @writePtr_spec _ fs T _ i (offset / 4096) h.start (by omega)
  generalize hptr : writePtr fs (fs.view.slot i) (offset / 4096) = res at hcase hquiet
  obtain ⟨ptr, fs₁, x'⟩ := res
  cases ptr with
  | none =>
    obtain ⟨hw, hnone, hbyte⟩ := hcase.no_page hquiet h.start
    have hslot := congrFun hw.slot i
    rw [writeLoop_none hn hptr]
    exact .inl ⟨fs₁, rfl, hn, hnone, hw.mounted, hw.lost h.inv, by rw [hslot],
      by rw [hslot, hbyte]⟩
  | some p =>
    obtain ⟨hrewrites, -⟩ := @PtrCase.written fs.view fs T (fs.view.slot i) x' buffer i
      (offset / 4096) offset (m + 1) p fs₁ hcase h.start
    rw [hone] at hrewrites
    rw [writeLoop_some hn hptr, hone, Nat.sub_self, writeLoop_zero,
      ← hcase.page hquiet h.start hzero hn]
    refine .inr ⟨_, ?_, hclosed hrewrites.writing⟩
    rw [Option.map_some, finishWrite, toReturn_eq (by omega)]

/-! ## Reading -/

/-- **Reading within one page** gives the bytes asked for when they lie in the file and there is a
block for them, and nothing otherwise. -/
theorem rufsRead_page (hi : pathIno fs path 0 = some (some i)) (hcap : offset + n ≤ 8208 * 4096)
    (hchunk : offset % 4096 + n ≤ 4096)
    (hr : rufsRead env fs path caller n offset = some (r, buf, fs')) :
    (offset + n ≤ get (readi fs i) .size ∧ (n = 0 ∨ fs.fileByte i offset ≠ none) ∧ r = n ∧
      (∀ j < n, fs.fileByte i (offset + j) = some (buf j)) ∧ ∀ j, n ≤ j → buf j = caller j) ∨
    ¬(offset + n ≤ get (readi fs i) .size ∧ (n = 0 ∨ fs.fileByte i offset ≠ none)) ∧ r = 0 ∧
      buf = caller := by
  have hmod : (offset + n) % 2 ^ 64 = offset + n := Nat.mod_eq_of_lt (by omega)
  by_cases hsize : offset + n ≤ get (readi fs i) .size
  swap
  · unfold rufsRead at hr
    rw [node_of_pathIno hi, Option.bind_some] at hr
    dsimp only at hr
    rw [hmod, if_pos (by omega)] at hr
    cases hr
    exact .inr ⟨fun hh => hsize hh.1, rfl, rfl⟩
  obtain _ | m := n
  · rw [rufsRead_eq hi (by rwa [hmod]), readLoop_zero] at hr
    cases hr
    exact .inl ⟨hsize, .inl rfl, rfl, fun j hj => absurd hj (Nat.not_lt_zero j), fun _ _ => rfl⟩
  have hn : m + 1 ≠ 0 := Nat.succ_ne_zero m
  cases hb : fs.blockAt i (dataRef (offset / 4096)) with
  | none =>
    have hptr := @readPtr_eq fs i (offset / 4096) (by omega)
    have hnone : fs.fileByte i offset = none := by
      rw [Fs.fileByte, blockSize_eq, hb, Option.map_none]
    rw [hb, Option.getD_none] at hptr
    rw [rufsRead_eq hi (by rwa [hmod]), readLoop, if_neg hn] at hr
    dsimp only at hr
    rw [blockSize_eq, hptr, if_pos rfl, Nat.sub_self] at hr
    cases hr
    exact .inr ⟨fun hh => hh.2.elim hn fun hne => hne hnone, rfl, rfl⟩
  | some p =>
    obtain ⟨fs'', heq⟩ := @rufsRead_chunk fs env caller i (m + 1) offset p path hi
      (by rwa [hmod]) (Nat.succ_pos m) hchunk hb
    rw [hr, Option.some.injEq, Prod.mk.injEq, Prod.mk.injEq] at heq
    obtain ⟨rfl, rfl, rfl⟩ := heq
    refine .inl ⟨hsize, .inr ?_, rfl, fun j hj => ?_, fun j hj => Bytes.copy_of_outside (by omega)⟩
    · rw [Fs.fileByte, blockSize_eq, hb, Option.map_some]
      exact Option.some_ne_none _
    · rw [Fs.fileByte, blockSize_eq, div_add hchunk hj, hb, Option.map_some,
        Bytes.copy_of_inside (Nat.zero_le j) (by omega), Nat.sub_zero,
        show (offset + j) % 4096 = offset % 4096 + j by omega]

end UserOS.Rufs
