import UserOS.Rufs.Write

/-!
# Reading and writing

The loops of `rufs_write` and `rufs_read` go over the blocks of a file, one round for each. Both
start every round at the beginning of the caller's buffer.

* `View.fileByte`: the bytes of a file, as far as it has blocks.
* `writeLoop_cases`, `writeLoop_rewrites`: one round of `rufs_write`, and by induction all of them.
* `rufsWrite_spec`, `rufsRead_spec`: what the two operations change.
-/

namespace UserOS.Rufs

open Lib

variable {v v' : View} {fs fs' : Fs} {env : Env} {T : Finset ℕ} {x x' y : Inode}
  {b buffer : Bytes} {d : UInt8} {f : Field} {a i j k m n o sb size offset sizeCopy fuel : ℕ}
  {p : ℤ} {r : Ref} {path : CString}

/-! ## The bytes of a file -/

/-- The byte at offset `o` of a file with the inode `x`, when there is a block for it. -/
def View.fileByte (v : View) (x : Inode) (o : ℕ) : Option UInt8 :=
  (v.names x (dataRef (o / 4096))).map fun p => v.block p (o % 4096)

namespace Writing

/-- **The data of a block** is written. -/
theorem setData (h : Writing v T i fs x) (hr : fs.view.names x r = some (67 + (k : ℤ)))
    (hdata : ∀ j, r ≠ .indirect j) (hm : fs'.Mounted) (hview : fs'.view = fs.view.setBlk k b) :
    Writing v T i fs' x ∧ fs'.view.names x = fs.view.names x := by
  obtain ⟨k', hk, heq, hbit⟩ := h.used hr
  obtain rfl : k = k' := by omega
  have hmeta : ¬(fs.view.setSlot i x).Meta T (67 + (k : ℤ)) :=
    h.inv.not_meta_of_data h.mem (slot_self ▸ h.type) ((congrFun names_self r).trans hr) hdata
  refine ⟨h.setBlk hm hk hbit hview (h.inv.setBlk hmeta) fun j hj hji s => h.ne_other hr hj hji, ?_⟩
  refine names_congr (.refl x) fun j hj hne => ?_
  have hptr : (fs.view.setSlot i x).Meta T (Rufs.indirect x j) :=
    ⟨i, h.mem, .inr ⟨j, hj, slot_self.symm ▸ hne, congrArg (Rufs.indirect · j) slot_self⟩⟩
  rw [hview]
  exact h.inv.block_setBlk_of_meta hmeta hptr

/-- The bytes of the file afterwards. -/
theorem fileByte_setData (h : Writing v T i fs x)
    (hr : fs.view.names x (dataRef sb) = some (67 + (k : ℤ))) (hm : fs'.Mounted)
    (hview : fs'.view = fs.view.setBlk k b) : fs'.view.fileByte x o =
      if o / 4096 = sb then some (b (o % 4096)) else fs.view.fileByte x o := by
  obtain ⟨-, hnames⟩ := h.setData hr (fun _ => dataRef_ne_indirect) hm hview
  unfold View.fileByte
  rw [hnames]
  split
  next hsb =>
    rw [hsb, hr, Option.map_some, hview, Inv.block_setBlk_self]
  next hsb =>
    cases hs : fs.view.names x (dataRef (o / 4096)) with
    | none => rfl
    | some q =>
      obtain ⟨m, -, rfl, -⟩ := h.used hs
      have hne : (67 + (m : ℤ)) ≠ 67 + k := fun hmk =>
        hsb (dataRef_inj (h.names_inj hs (hr.trans (congrArg some hmk.symm))))
      rw [Option.map_some, Option.map_some, hview, Inv.block_setBlk_of_ne (by omega) hne]

end Writing

/-! ## One round -/

/-- From `fs` and `x` on, blocks of file `i` have been allocated, and at most its bytes from `a` to
`b` have been written. -/
structure Rewrites (v : View) (T : Finset ℕ) (i : ℕ) (fs : Fs) (x : Inode) (fs' : Fs) (x' : Inode)
    (a b : ℕ) : Prop where
  writing : Writing v T i fs' x'
  name : ∀ r p, fs.view.names x r = some p → fs'.view.names x' r = some p
  kept : ∀ o c, o < a ∨ b ≤ o → fs.view.fileByte x o = some c → fs'.view.fileByte x' o = some c
  marked : ∀ k, fs.view.dbit k = true → fs'.view.dbit k = true
  named : ∀ k, fs'.view.dbit k = true →
    fs.view.dbit k = true ∨ ∃ r, fs'.view.names x' r = some (67 + (k : ℤ))

namespace Rewrites

theorem refl (h : Writing v T i fs x) : Rewrites v T i fs x fs x a n :=
  ⟨h, fun _ _ h => h, fun _ _ _ h => h, fun _ h => h, fun _ h => .inl h⟩

theorem trans {fs₁ : Fs} {x₁ : Inode} {e : ℕ} (h : Rewrites v T i fs x fs₁ x₁ a j)
    (h' : Rewrites v T i fs₁ x₁ fs' x' k n) (hj : j ≤ e)
    (hn : ∀ o, o < a ∨ e ≤ o → o < k ∨ n ≤ o) : Rewrites v T i fs x fs' x' a e where
  writing := h'.writing
  name r p hr := h'.name r p (h.name r p hr)
  kept o c ho hc := h'.kept o c (hn o ho) (h.kept o c (by omega) hc)
  marked k hk := h'.marked k (h.marked k hk)
  named k hk := by
    obtain hk | hr := h'.named k hk
    · obtain hk | ⟨r, hr⟩ := h.named k hk
      · exact .inl hk
      · exact .inr ⟨r, h'.name r _ hr⟩
    · exact .inr hr

end Rewrites

/-- Taking a block for a file changes no byte. -/
theorem Keeps.fileByte {fs₁ : Fs} {x₁ : Inode} (h : Keeps fs x fs₁ x₁)
    (hc : fs.view.fileByte x o = some d) : fs₁.view.fileByte x₁ o = some d := by
  unfold View.fileByte at hc ⊢
  obtain ⟨p, hp, rfl⟩ := Option.map_eq_some_iff.1 hc
  rw [h.name _ _ hp, Option.map_some, h.data _ _ hp fun _ => dataRef_ne_indirect]

theorem Keeps.rewrites (h : Keeps fs x fs' x') (hw : Writing v T i fs' x') :
    Rewrites v T i fs x fs' x' a n :=
  ⟨hw, h.name, fun _ _ _ => h.fileByte, h.marked, h.named⟩

/-- **The block is written** from `o` on with the first `n` bytes of the buffer. -/
theorem Keeps.rewrites_data {fs₁ : Fs} {x₁ : Inode} (h : Keeps fs x fs₁ x₁)
    (hw : Writing v T i fs₁ x₁) (hr : fs₁.view.names x₁ (dataRef sb) = some (67 + (k : ℤ)))
    (hon : o + n ≤ 4096) (hm : fs'.Mounted)
    (hview : fs'.view = fs₁.view.setBlk k (((fs₁.view.blk k).copy o buffer 0 n).slice 0 4096)) :
    Rewrites v T i fs x fs' x₁ (sb * 4096 + o) (sb * 4096 + o + n) ∧
      (∀ j < n, fs'.view.fileByte x₁ (sb * 4096 + o + j) = some (buffer j)) ∧
      fs'.view.names x₁ = fs₁.view.names x₁ := by
  obtain ⟨hw', hnames⟩ := hw.setData hr (fun _ => dataRef_ne_indirect) hm hview
  have hbyte : ∀ q, _ := fun q => @Writing.fileByte_setData v fs₁ fs' T x₁ _ i k q sb hw hr hm hview
  refine ⟨⟨hw', fun r p hrp => ?_, fun q c hq hc => ?_, fun j hj => ?_, fun j hj => ?_⟩,
    fun j hj => ?_, hnames⟩
  · rw [hnames]
    exact h.name r p hrp
  · have hold := h.fileByte hc
    rw [hbyte]
    split
    next hsb =>
      rw [← hold, View.fileByte, hsb, hr, Option.map_some, View.block_add,
        Bytes.slice_of_lt (Nat.mod_lt _ (by decide)), Nat.zero_add,
        Bytes.copy_of_outside (by omega)]
    next => exact hold
  · rw [hview]
    exact h.marked j hj
  · rw [hview] at hj
    rw [hnames]
    exact h.named j hj
  · rw [hbyte, if_pos (by omega), Bytes.slice_of_lt (by omega), Nat.zero_add,
      Bytes.copy_of_inside (by omega) (by omega)]
    congr 2
    omega

/-! ## The loop of `rufs_write` -/

/-- A round of the loop copies something. -/
theorem chunk_pos (h : sizeCopy ≠ 0) : 0 < chunk sizeCopy offset := by
  have hlt : offset % blockSize < blockSize := Nat.mod_lt _ (by decide)
  unfold chunk
  omega

/-- A request within one block takes one round. -/
theorem chunk_of_le (h : offset % blockSize + sizeCopy ≤ blockSize) :
    chunk sizeCopy offset = sizeCopy :=
  Nat.min_eq_left (Nat.le_sub_of_add_le' h)

/-- Any other request takes the rest of its first block in the first round. -/
theorem chunk_of_ge (h : blockSize ≤ offset % blockSize + sizeCopy) :
    chunk sizeCopy offset = blockSize - offset % blockSize :=
  Nat.min_eq_right (Nat.sub_le_of_le_add (Nat.add_comm _ _ ▸ h))

/-- A round ends the request or the block. -/
theorem chunk_cases : chunk sizeCopy offset = sizeCopy ∨
    chunk sizeCopy offset = 4096 - offset % 4096 ∧ chunk sizeCopy offset ≤ sizeCopy := by
  obtain hle | hge := Nat.le_total (offset % blockSize + sizeCopy) blockSize
  · exact .inl (chunk_of_le hle)
  · exact .inr ⟨chunk_of_ge hge, Nat.min_le_left ..⟩

theorem chunk_le : offset % 4096 + chunk sizeCopy offset ≤ 4096 := by
  have hlt : offset % 4096 < 4096 := Nat.mod_lt _ (by decide)
  have hle : chunk sizeCopy offset ≤ 4096 - offset % 4096 := Nat.min_le_right ..
  omega

/-- The next round starts at the next block. -/
theorem chunk_next (h : sizeCopy - chunk sizeCopy offset ≠ 0) :
    (sb + 1) * 4096 + (sizeCopy - chunk sizeCopy offset) =
      sb * 4096 + offset % 4096 + sizeCopy := by
  have hlt : offset % 4096 < 4096 := Nat.mod_lt _ (by decide)
  have hcases := @chunk_cases offset sizeCopy
  generalize chunk sizeCopy offset = n at h hcases ⊢
  omega

/-- The last round ends within its block. -/
theorem chunk_last (h : sizeCopy - chunk sizeCopy offset = 0) :
    offset % 4096 + sizeCopy ≤ 4096 := by
  have hle := @chunk_le offset sizeCopy
  have hcases := @chunk_cases offset sizeCopy
  generalize chunk sizeCopy offset = n at h hcases hle
  omega

/-- What `rufs_write` returns when no block is left for the file block `sb`. -/
def outOfBlocks (size sizeCopy sb : ℕ) : ℤ :=
  if sb ≤ 15 then toReturn (size - sizeCopy) else -enospc

theorem writeLoop_zero :
    writeLoop buffer size fuel fs x 0 offset sb = some (none, fs, x) := by
  cases fuel <;> rfl

/-- A round of `rufs_write` writes `n` bytes of the buffer to the block `p`. -/
def Fs.writeChunk (fs : Fs) (p : ℤ) (buffer : Bytes) (offset n : ℕ) : Fs :=
  { fs with disk :=
      bioWrite fs.disk p ((bioRead fs.disk p).copy (offset % blockSize) buffer 0 n) }

/-- **The block found** is written. -/
theorem PtrCase.written {fs₁ : Fs} (hcase : PtrCase v T i fs x sb (some p, fs₁, x'))
    (h : Writing v T i fs x) :
    Rewrites v T i fs x (fs₁.writeChunk p buffer offset (chunk sizeCopy offset)) x'
      (sb * 4096 + offset % 4096) (sb * 4096 + offset % 4096 + chunk sizeCopy offset) ∧
    (∀ j < chunk sizeCopy offset,
      (fs₁.writeChunk p buffer offset (chunk sizeCopy offset)).view.fileByte x'
        (sb * 4096 + offset % 4096 + j) = some (buffer j)) ∧
    (fs₁.writeChunk p buffer offset (chunk sizeCopy offset)).view.dbit = fs₁.view.dbit ∧
    (fs₁.writeChunk p buffer offset (chunk sizeCopy offset)).view.names x' = fs₁.view.names x' := by
  obtain ⟨k, rfl, hw, hname, hkeeps⟩ : ∃ k : ℕ, p = 67 + (k : ℤ) ∧ Writing v T i fs₁ x' ∧
      fs₁.view.names x' (dataRef sb) = some (67 + (k : ℤ)) ∧ Keeps fs x fs₁ x' := by
    cases hcase with
    | old hname => exact ⟨_, rfl, h, hname, .refl⟩
    | new _ _ _ h' hname hkeeps => exact ⟨_, rfl, h', hname, hkeeps⟩
  obtain ⟨k', hk, hkk, -⟩ := hw.used hname
  obtain rfl : k = k' := by omega
  unfold Fs.writeChunk
  have hview := @bioWrite_view fs₁ k
    ((bioRead fs₁.disk (67 + (k : ℤ))).copy (offset % blockSize) buffer 0
      (chunk sizeCopy offset)) _ hk rfl
  have hdata : bioRead fs₁.disk (67 + (k : ℤ)) = fs₁.view.blk k := bioRead_blk hk rfl
  rw [hdata] at hview ⊢
  obtain ⟨hrewrites, hwritten, hnames⟩ :=
    hkeeps.rewrites_data hw hname chunk_le (hw.mounted.setDisk _) hview
  exact ⟨hrewrites, hwritten, by rw [hview, View.setBlk_dbit], hnames⟩

/-- The loop after a round that has found no block. -/
theorem writeLoop_none (hne : sizeCopy ≠ 0) (hptr : writePtr fs x sb = (none, fs', x')) :
    writeLoop buffer size (fuel + 1) fs x sizeCopy offset sb =
      some (some (outOfBlocks size sizeCopy sb), fs', x') := by
  rw [writeLoop, if_neg hne, hptr]
  rfl

/-- The loop after a round that has found a block. -/
theorem writeLoop_some (hne : sizeCopy ≠ 0) (hptr : writePtr fs x sb = (some p, fs', x')) :
    writeLoop buffer size (fuel + 1) fs x sizeCopy offset sb =
      writeLoop buffer size fuel (fs'.writeChunk p buffer offset (chunk sizeCopy offset)) x'
        (sizeCopy - chunk sizeCopy offset) 0 (sb + 1) := by
  rw [writeLoop, if_neg hne, hptr]
  rfl

/-- **One round** ends the loop, or writes to one block. -/
theorem writeLoop_cases (h : Writing v T i fs x) (hlt : sb < 8208) (hne : sizeCopy ≠ 0) :
    (∃ fs' x', PtrCase v T i fs x sb (none, fs', x') ∧
      writeLoop buffer size (fuel + 1) fs x sizeCopy offset sb =
        some (some (outOfBlocks size sizeCopy sb), fs', x')) ∨
    ∃ p fs₁ x' fs', PtrCase v T i fs x sb (some p, fs₁, x') ∧
      Rewrites v T i fs x fs' x' (sb * 4096 + offset % 4096)
        (sb * 4096 + offset % 4096 + chunk sizeCopy offset) ∧
      (∀ j < chunk sizeCopy offset,
        fs'.view.fileByte x' (sb * 4096 + offset % 4096 + j) = some (buffer j)) ∧
      fs'.view.dbit = fs₁.view.dbit ∧ fs'.view.names x' = fs₁.view.names x' ∧
      writeLoop buffer size (fuel + 1) fs x sizeCopy offset sb =
        writeLoop buffer size fuel fs' x' (sizeCopy - chunk sizeCopy offset) 0 (sb + 1) := by
  have hcase := writePtr_cases h hlt
  generalize hptr : writePtr fs x sb = res at hcase
  obtain ⟨ptr, fs₁, x'⟩ := res
  cases ptr with
  | none => exact .inl ⟨fs₁, x', hcase, writeLoop_none hne hptr⟩
  | some p =>
    obtain ⟨hrewrites, hwritten, hdbit, hnames⟩ := hcase.written h
    exact .inr ⟨p, fs₁, x', _, hcase, hrewrites, hwritten, hdbit, hnames, writeLoop_some hne hptr⟩

/-- **The loop of `rufs_write`** ends, with some blocks allocated and written. -/
theorem writeLoop_rewrites (h : Writing v T i fs x) (hfuel : sizeCopy ≤ fuel)
    (hcap : sb * 4096 + offset % 4096 + sizeCopy ≤ 8208 * 4096) :
    ∃ res fs' x', writeLoop buffer size fuel fs x sizeCopy offset sb = some (res, fs', x') ∧
      Rewrites v T i fs x fs' x' (sb * 4096 + offset % 4096)
        (sb * 4096 + offset % 4096 + sizeCopy) ∧
      (res = none ∨ ∃ s ≤ sizeCopy, 0 < s ∧ ∃ sb', res = some (outOfBlocks size s sb')) := by
  induction fuel generalizing fs x sizeCopy offset sb with
  | zero => exact ⟨none, fs, x, if_pos (Nat.le_zero.1 hfuel), .refl h, .inl rfl⟩
  | succ fuel ih =>
    by_cases hne : sizeCopy = 0
    · exact ⟨none, fs, x, by rw [writeLoop, if_pos hne], .refl h, .inl rfl⟩
    have hpos := @chunk_pos offset sizeCopy hne
    have hcases := @chunk_cases offset sizeCopy
    obtain ⟨fs', x', hcase, heq⟩ | ⟨p, fs₁, x₁, fs₂, -, hrewrites, -, -, -, heq⟩ :=
      @writeLoop_cases _ _ _ _ buffer i sb size offset _ fuel h (show sb < 8208 by omega) hne <;>
      rw [heq]
    · refine ⟨_, fs', x', rfl, ?_, .inr ⟨sizeCopy, le_rfl, Nat.pos_of_ne_zero hne, sb, rfl⟩⟩
      cases hcase with
      | full _ _ => exact .refl h
      | stuck _ _ _ h' _ hkeeps => exact hkeeps.rewrites h'
    · generalize chunk sizeCopy offset = n at hpos hcases hrewrites heq
      have hcap' : (sb + 1) * 4096 + (sizeCopy - n) ≤ 8208 * 4096 := by omega
      obtain ⟨res, fs', x', heq', hrest, hres⟩ :=
        ih hrewrites.writing (show sizeCopy - n ≤ fuel by omega)
          (by rwa [Nat.zero_mod, Nat.add_zero])
      rw [Nat.zero_mod, Nat.add_zero] at hrest
      refine ⟨res, fs', x', heq', hrewrites.trans hrest (by omega) fun o _ => by omega, ?_⟩
      obtain hnone | ⟨s, hs, hpos', hres⟩ := hres
      · exact .inl hnone
      · exact .inr ⟨s, by omega, hpos', hres⟩

/-- **The first round** writes its bytes for good, if it finds a block. -/
theorem writeLoop_first (h : Writing v T i fs x) (hfuel : sizeCopy ≤ fuel) (hne : sizeCopy ≠ 0)
    (hcap : sb * 4096 + offset % 4096 + sizeCopy ≤ 8208 * 4096) {res : Option ℤ}
    (hloop : writeLoop buffer size fuel fs x sizeCopy offset sb = some (res, fs', x')) :
    res = some (outOfBlocks size sizeCopy sb) ∨ ∀ j < chunk sizeCopy offset,
      fs'.view.fileByte x' (sb * 4096 + offset % 4096 + j) = some (buffer j) := by
  have hpos := @chunk_pos offset sizeCopy hne
  have hcases := @chunk_cases offset sizeCopy
  have hle := @chunk_le offset sizeCopy
  obtain ⟨m, rfl⟩ := Nat.exists_eq_succ_of_ne_zero (show fuel ≠ 0 by omega)
  obtain ⟨fs₁, x₁, -, heq⟩ | ⟨p, -, x₁, fs₂, -, hrewrites, hwritten, -, -, heq⟩ :=
    @writeLoop_cases _ _ _ _ buffer i sb size offset _ m h (show sb < 8208 by omega) hne <;>
    rw [heq] at hloop
  · cases hloop
    exact .inl rfl
  · generalize chunk sizeCopy offset = n at hpos hcases hle hrewrites hwritten hloop
    have hcap' : (sb + 1) * 4096 + (sizeCopy - n) ≤ 8208 * 4096 := by omega
    obtain ⟨res', fs'', x'', heq', hrest, -⟩ :=
      @writeLoop_rewrites _ _ _ _ buffer i (sb + 1) size 0 (sizeCopy - n) m hrewrites.writing
        (by omega) (by rwa [Nat.zero_mod, Nat.add_zero])
    rw [hloop, Option.some.injEq, Prod.mk.injEq, Prod.mk.injEq] at heq'
    obtain ⟨-, rfl, rfl⟩ := heq'
    exact .inr fun j hj => hrest.kept _ _ (.inl (by omega)) (hwritten j hj)

/-- Taking a block stores pointers only. -/
theorem writePtr_get (hf : f.Disjoint .ptrs) (hlt : sb < 8208) :
    get (writePtr fs x sb).2.2 f = get x f := by
  have hj : (sb - 16) / 1024 < 8 := by omega
  have hset : ∀ p, get (setIndirect x ((sb - 16) / 1024) p) f = get x f := fun p =>
    get_setIndirect hf hj
  unfold writePtr
  rw [show blockSize / 4 = 1024 from rfl]
  dsimp only
  split_ifs with hsb <;> dsimp only
  · exact get_setDirect hf (Nat.lt_succ_of_le hsb)
  all_goals exact hset _

theorem writeLoop_get (hf : f.Disjoint .ptrs) (hfuel : sizeCopy ≤ fuel)
    (hcap : sb * 4096 + offset % 4096 + sizeCopy ≤ 8208 * 4096) {res : Option ℤ}
    (h : writeLoop buffer size fuel fs x sizeCopy offset sb = some (res, fs', x')) :
    get x' f = get x f := by
  induction fuel generalizing fs x sizeCopy offset sb with
  | zero =>
    rw [Nat.le_zero.1 hfuel, writeLoop_zero] at h
    cases h
    rfl
  | succ fuel ih =>
    by_cases hne : sizeCopy = 0
    · rw [hne, writeLoop_zero] at h
      cases h
      rfl
    have hpos := @chunk_pos offset sizeCopy hne
    have hcases := @chunk_cases offset sizeCopy
    have hget := @writePtr_get fs x f sb hf (by omega)
    generalize hptr : writePtr fs x sb = ptr at hget
    obtain ⟨p, fs₁, x₁⟩ := ptr
    cases p with
    | none =>
      rw [writeLoop_none hne hptr] at h
      cases h
      exact hget
    | some p =>
      rw [writeLoop_some hne hptr] at h
      generalize chunk sizeCopy offset = l at hpos hcases h
      have hcap' : (sb + 1) * 4096 + (sizeCopy - l) ≤ 8208 * 4096 := by omega
      exact (ih (by omega) (by rwa [Nat.zero_mod, Nat.add_zero]) h).trans hget

/-! ## The loop of `rufs_read` -/

/-- **The loop of `rufs_read`** ends. -/
theorem readLoop_spec (hfuel : sizeCopy ≤ fuel) :
    ∃ res, readLoop fs x size fuel buffer sizeCopy offset sb = some res := by
  induction fuel generalizing buffer sizeCopy offset sb with
  | zero => exact ⟨_, if_pos (Nat.le_zero.1 hfuel)⟩
  | succ fuel ih =>
    rw [readLoop]
    split
    next => exact ⟨_, rfl⟩
    next hne =>
      have hpos := @chunk_pos offset sizeCopy hne
      dsimp only
      split
      next => exact ⟨_, rfl⟩
      next => exact ih (by omega)

/-! ## The operations -/

/-- What writing to file `i` leaves alone. -/
structure Wrote (v v' : View) (T : Finset ℕ) (i : ℕ) : Prop where
  inv : Inv v' T
  ibit : v'.ibit = v.ibit
  slot : ∀ j, j ≠ i → v'.slot j = v.slot j
  dbit : ∀ k, v.dbit k = true → v'.dbit k = true
  others : ∀ j ∈ T, j ≠ i → ∀ r p, v.names (v.slot j) r = some p → v'.block p = v.block p

/-- Where the inode on the disk has a pointer, the inode in memory has the same. -/
theorem Writing.names_slot (h : Writing v T i fs x) {w : View} (hr : w.names (v.slot i) r ≠ none) :
    fs.view.names (v.slot i) r = fs.view.names x r := by
  obtain ⟨p, hp⟩ := Option.ne_none_iff_exists'.1 hr
  cases r with
  | direct k =>
    have hk : k < 16 := by
      by_contra hk
      exact absurd (hp.symm.trans (if_neg hk)) (by simp)
    rw [names_direct hk] at hp
    rw [names_direct hk, names_direct hk, h.direct k hk (nonNull_eq_some.1 hp).1]
  | indirect k =>
    have hk : k < 8 := by
      by_contra hk
      exact absurd (hp.symm.trans (if_neg hk)) (by simp)
    rw [names_indirect hk] at hp
    rw [names_indirect hk, names_indirect hk, h.indirect k hk (nonNull_eq_some.1 hp).1]
  | entry k j =>
    have hk : k < 8 ∧ j < 1024 ∧ Rufs.indirect (v.slot i) k ≠ -1 := by
      by_contra hk
      exact absurd (hp.symm.trans (if_neg hk)) (by simp)
    obtain ⟨hk, hj, hne⟩ := hk
    have heq := h.indirect k hk hne
    rw [names_entry hk hj hne, names_entry hk hj (heq ▸ hne), heq]

/-- **An early return** loses the pointers in memory. -/
theorem Writing.lost (h : Writing v T i fs x) (hv : Inv v T) : Wrote v fs.view T i := by
  have ht := hv.tracked i h.mem
  have hself : (fs.view.setSlot i x).setSlot i (v.slot i) = fs.view := by
    rw [View.setSlot_setSlot]
    unfold View.setSlot
    rw [← h.slot, Function.update_eq_self]
  have hinv : Inv ((fs.view.setSlot i x).setSlot i (v.slot i)) T := by
    refine h.inv.shrinkFile h.mem (slot_self ▸ h.type) ht.ino h.file ht.past fun r p hr => ?_
    rw [names_self]
    have hlost : fs.view.names (v.slot i) r = some p := hr
    rw [← h.names_slot (by rw [hlost]; exact Option.some_ne_none p), hlost]
  exact ⟨hself ▸ hinv, h.ibit, fun j _ => congrFun h.slot j, h.dbit, h.others⟩

/-- **At the end** the inode is stored. -/
theorem Writing.stored (h : Writing v T i fs x) (hy : SameNode x y)
    (hview : fs'.view = fs.view.setSlot i y) : Wrote v fs'.view T i := by
  refine ⟨?_, ?_, fun j hji => ?_, ?_, ?_⟩ <;> rw [hview]
  · rw [← View.setSlot_setSlot]
    exact h.inv.touch (slot_self ▸ hy)
  · exact h.ibit
  · rw [View.setSlot_slot, Function.update_of_ne hji, h.slot]
  · exact h.dbit
  · exact h.others

/-- **`rufs_write`** writes to the file of the path, or changes nothing. -/
theorem rufsWrite_spec (h : Inv fs.view T) (hm : fs.Mounted) (hp : PathOk path)
    (hdirs : PrefixDirs fs path)
    (hfile : ∀ x, getNodeByPath fs path 0 = some (some x) → get x .type = 0)
    (hcap : offset + size ≤ 8208 * 4096) :
    ∃ r fs', rufsWrite env fs path buffer size offset = some (r, fs') ∧ fs'.Mounted ∧
      View.Steps fs.view fs'.view ∧
      (fs' = fs ∨ ∃ i, At fs.view T (components path) i ∧ Wrote fs.view fs'.view T i ∧
        get (fs'.view.slot i) .type = 0 ∧ SameStat (fs.view.slot i) (fs'.view.slot i) ∧
        (fs'.view.slot i = fs.view.slot i ∨ ∃ n, SizeIs (fs'.view.slot i) n)) := by
  unfold rufsWrite
  obtain ⟨hnone, -⟩ | ⟨i, hat, hnode⟩ := path_cases h hm hp hdirs
  · rw [hnone]
    exact ⟨_, fs, rfl, hm, .refl, .inl rfl⟩
  · rw [hnode, Option.bind_some]
    dsimp only
    split
    next => exact ⟨_, fs, rfl, hm, .refl, .inl rfl⟩
    next =>
      have hstart := Writing.start h hm (hat.mem h) (hfile _ hnode)
      obtain ⟨res, fs₁, x, heq, hrewrites, -⟩ := @writeLoop_rewrites _ _ _ _ buffer i
        (offset / blockSize) size offset size size hstart le_rfl
        (by rw [blockSize_eq]; omega)
      have hw := hrewrites.writing
      rw [heq, Option.map_some]
      cases res with
      | some r =>
        have hslot := congrFun hw.slot i
        exact ⟨r, fs₁, rfl, hw.mounted, hw.steps, .inr ⟨i, hat, hw.lost h, hslot ▸ hw.file,
          hslot.symm ▸ .refl _, .inl hslot⟩⟩
      | none =>
        dsimp only
        have hsize := @sizeIs_set (Rufs.set x .stMtime (env.time 0)) (get x .size + size)
        generalize hy : Rufs.set (Rufs.set (Rufs.set x .stMtime _) .size _) .stSize _ = y at hsize ⊢
        have hsame : SameNode x y := by
          subst hy
          repeat' refine SameNode.set ?_ (by decide) (by decide) (by decide)
          exact .refl x
        have hstat : SameStat (fs.view.slot i) y := by
          subst hy
          repeat' refine SameStat.set ?_ (by decide) (by decide)
          have hcap' : offset / blockSize * 4096 + offset % 4096 + size ≤ 8208 * 4096 := by
            rw [blockSize_eq]
            omega
          exact ⟨writeLoop_get (by decide) le_rfl hcap' heq,
            writeLoop_get (by decide) le_rfl hcap' heq⟩
        have hlt := (h.tracked i (hat.mem h)).lt
        rw [hsame.ino.trans hw.ino]
        have hview := @writei_view fs₁ i (env.time 1) y hw.mounted hlt
        refine ⟨_, _, rfl, writei_mounted hw.mounted, ?_,
          .inr ⟨i, hat, hw.stored hsame.stored hview, ?_, ?_,
            .inr ⟨(get x .size + size) % 2 ^ 32, ?_⟩⟩⟩ <;> rw [hview]
        · exact hw.steps.tail (.setSlot hlt)
        · rw [View.setSlot_slot, Function.update_self, hsame.stored.type]
          exact hw.type
        · rw [View.setSlot_slot, Function.update_self]
          exact hstat.stored
        · rw [View.setSlot_slot, Function.update_self]
          exact hsize.stored

/-- **`rufs_read`** changes at most times in the inode of the path. -/
theorem rufsRead_spec (h : Inv fs.view T) (hm : fs.Mounted) (hp : PathOk path)
    (hdirs : PrefixDirs fs path) :
    ∃ r buf fs', rufsRead env fs path buffer size offset = some (r, buf, fs') ∧ fs'.Mounted ∧
      View.Steps fs.view fs'.view ∧ Inv fs'.view T ∧ fs'.view.blk = fs.view.blk ∧
      ∀ j, Touched (fs.view.slot j) (fs'.view.slot j) ∧
        ∀ n, SizeIs (fs.view.slot j) n → SizeIs (fs'.view.slot j) n := by
  have hsame : ∀ j, Touched (fs.view.slot j) (fs.view.slot j) ∧
      ∀ n, SizeIs (fs.view.slot j) n → SizeIs (fs.view.slot j) n :=
    fun j => ⟨.refl _, fun _ hn => hn⟩
  unfold rufsRead
  obtain ⟨hnone, -⟩ | ⟨i, hat, hnode⟩ := path_cases h hm hp hdirs
  · rw [hnone]
    exact ⟨_, _, fs, rfl, hm, .refl, h, rfl, hsame⟩
  · rw [hnode, Option.bind_some]
    dsimp only
    split
    next => exact ⟨_, _, fs, rfl, hm, .refl, h, rfl, hsame⟩
    next =>
      obtain ⟨⟨r, buf⟩, heq⟩ := @readLoop_spec fs (fs.view.slot i) buffer (offset / blockSize) size
        offset size size le_rfl
      have ht := h.tracked i (hat.mem h)
      rw [heq, Option.map_some]
      cases r with
      | some r => exact ⟨r, buf, fs, rfl, hm, .refl, h, rfl, hsame⟩
      | none =>
        dsimp only
        have hview := @writei_view fs i (env.time 1)
          (Rufs.set (fs.view.slot i) .stAtime (env.time 0)) hm ht.lt
        have hnode' : SameNode (fs.view.slot i)
            (stored (env.time 1) (Rufs.set (fs.view.slot i) .stAtime (env.time 0))) :=
          ((SameNode.refl _).set (by decide) (by decide) (by decide)).stored
        have hstat : SameStat (fs.view.slot i)
            (stored (env.time 1) (Rufs.set (fs.view.slot i) .stAtime (env.time 0))) :=
          ((SameStat.refl _).set (by decide) (by decide)).stored
        rw [ht.ino]
        refine ⟨_, _, _, rfl, writei_mounted hm, ?_, ?_, ?_, fun j => ?_⟩ <;> rw [hview]
        · exact .single (.setSlot ht.lt)
        · exact h.touch hnode'
        · rfl
        · rw [View.setSlot_slot]
          by_cases hji : j = i
          · subst hji
            rw [Function.update_self]
            refine ⟨⟨hnode', hstat⟩, fun n hn => SizeIs.stored ⟨?_, ?_⟩⟩
            · exact (get_set_of_disjoint (by decide)).trans hn.size
            · exact (get_set_of_disjoint (by decide)).trans hn.stSize
          · rw [Function.update_of_ne hji]
            exact hsame j

end UserOS.Rufs
