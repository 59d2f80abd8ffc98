import Mathlib.Data.Finset.Card
import UserOS.Rufs.Consistency

/-!
# The sizes that inodes record

An inode says its size twice, in its own field and in its `struct stat`. The size of a directory is
that of the entries in its table, which `dir_add` and `dir_remove` write to another block.

* `SizedAt`: the two fields agree, and that of a directory is the size of its entries.
* `call_sized`: every call keeps the sizes, also one that fails.
* `sizes_true`: the sizes of all inodes that are reached from the root.
-/

namespace UserOS.Rufs

open Lib

variable {disk : Disk} {v v' : View} {fs fs' : Fs} {env : Env} {T : Finset ℕ} {b b' : Bytes}
  {i j m c q : ℕ} {n : CString} {op : Op} {r : ℤ}

/-! ## Entries -/

/-- The valid entries of a table other than `"."` and `".."`. -/
def entries (b : Bytes) : Finset ℕ :=
  (Finset.range maxDirEntries).filter fun j =>
    validAt b j = true ∧ nameAt b j ≠ dot ∧ nameAt b j ≠ dotDot

/-- They are the valid ones after the first two. -/
theorem mem_entries (h : TableOk b) : j ∈ entries b ↔ 2 ≤ j ∧ j < 19 ∧ validAt b j = true := by
  unfold entries
  rw [Finset.mem_filter, Finset.mem_range, maxDirEntries_eq]
  constructor
  · rintro ⟨hj, hv, hdot, hdotDot⟩
    exact ⟨h.two_le rfl hdot hdotDot, hj, hv⟩
  · rintro ⟨h2, hj, hv⟩
    refine ⟨hj, hv, fun hname => ?_, fun hname => ?_⟩
    · have := h.inj j hj 1 (by decide) hv (hname.trans h.self.1.symm)
      omega
    · have := h.inj j hj 0 (by decide) hv (hname.trans h.parent.1.symm)
      omega

theorem card_entries_le : (entries b).card ≤ 19 := by
  refine (Finset.card_filter_le _ _).trans ?_
  rw [Finset.card_range, maxDirEntries_eq]

theorem entries_eq_empty (h : TableOk b) (hempty : ∀ j, 2 ≤ j → j < 19 → validAt b j = false) :
    entries b = ∅ := by
  refine Finset.eq_empty_of_forall_notMem fun j hj => ?_
  obtain ⟨h2, h19, hv⟩ := (mem_entries h).1 hj
  rw [hempty j h2 h19] at hv
  cases hv

/-- A name that is added is one entry more. -/
theorem Added.card (ha : Added b b' m n c) (h : TableOk b) :
    (entries b').card = (entries b).card + 1 := by
  have hm : m ∉ entries b := fun hm => by
    have hv := ((mem_entries h).1 hm).2.2
    rw [ha.free] at hv
    cases hv
  have heq : entries b' = insert m (entries b) := by
    ext j
    rw [mem_entries ha.ok, Finset.mem_insert, mem_entries h]
    by_cases hjm : j = m
    · subst hjm
      exact iff_of_true ⟨ha.two_le, ha.lt, ha.valid⟩ (.inl rfl)
    · rw [or_iff_right hjm]
      refine and_congr_right fun _ => and_congr_right fun hj => ?_
      rw [(ha.other j hj hjm).2.1]
  rw [heq, Finset.card_insert_of_notMem hm]

/-- A name that is removed is one entry less. -/
theorem Removed.card (hr : Removed b b' m n) (h : TableOk b) :
    (entries b').card + 1 = (entries b).card := by
  have hm : m ∈ entries b := (mem_entries h).2 ⟨hr.two_le, hr.lt, hr.valid⟩
  have heq : entries b' = (entries b).erase m := by
    ext j
    rw [mem_entries hr.ok, Finset.mem_erase, mem_entries h]
    by_cases hjm : j = m
    · subst hjm
      refine iff_of_false (fun hv => ?_) fun hne => hne.1 rfl
      rw [hr.free] at hv
      cases hv.2.2
    · rw [and_iff_right hjm]
      refine and_congr_right fun _ => and_congr_right fun hj => ?_
      rw [(hr.other j hj hjm).2.1]
  rw [heq, Finset.card_erase_add_one hm]

/-! ## Sizes -/

/-- The size of an inode is true: both fields say it, and for a directory it is the size of the
entries. -/
def SizedAt (v : View) (i : ℕ) : Prop :=
  ∃ s, SizeIs (v.slot i) s ∧ (IsDir (v.slot i) → s = direntSize * (entries (v.table i)).card)

/-- An inode and its table stay. -/
theorem SizedAt.congr (h : SizedAt v j) (hslot : v'.slot j = v.slot j)
    (htable : IsDir (v.slot j) → v'.table j = v.table j) : SizedAt v' j := by
  obtain ⟨s, hs, hdir⟩ := h
  refine ⟨s, hslot ▸ hs, fun hd => ?_⟩
  rw [hslot] at hd
  rw [htable hd]
  exact hdir hd

/-- An inode is stored again with its pointers and its size, and no block is written. -/
theorem SizedAt.touch (h : SizedAt v j) (hnode : SameNode (v.slot j) (v'.slot j))
    (hsize : ∀ s, SizeIs (v.slot j) s → SizeIs (v'.slot j) s) (hblk : v'.blk = v.blk) :
    SizedAt v' j := by
  obtain ⟨s, hs, hdir⟩ := h
  have htable : v'.table j = v.table j := by
    unfold View.table View.block
    rw [hnode.direct 0 (by decide), hblk]
  refine ⟨s, hsize s hs, fun hd => ?_⟩
  rw [htable]
  exact hdir (hnode.isDir.1 hd)

/-- **The parent** of a new inode has one entry more. -/
theorem SizedAt.added (h : SizedAt v q) (hv : Inv v T) (hq : q ∈ T) (hd : IsDir (v.slot q))
    (ha : Added (v.table q) (v'.table q) m n c)
    (hs : SizeIs (v'.slot q) ((get (v.slot q) .size + direntSize) % 2 ^ 32)) : SizedAt v' q := by
  obtain ⟨s, hold, hdir⟩ := h
  refine ⟨_, hs, fun _ => ?_⟩
  have hcard := ha.card ((hv.tracked q hq).dir hd).table
  have hle := @card_entries_le (v'.table q)
  rw [hold.size, hdir hd, hcard]
  unfold direntSize
  omega

/-- **The parent** of an inode that is removed has one entry less. -/
theorem SizedAt.removed (h : SizedAt v q) (hv : Inv v T) (hq : q ∈ T) (hd : IsDir (v.slot q))
    (hr : Removed (v.table q) (v'.table q) m n)
    (hs : SizeIs (v'.slot q) ((get (v.slot q) .size + (2 ^ 32 - direntSize)) % 2 ^ 32)) :
    SizedAt v' q := by
  obtain ⟨s, hold, hdir⟩ := h
  refine ⟨_, hs, fun _ => ?_⟩
  have hcard := hr.card ((hv.tracked q hq).dir hd).table
  have hle := @card_entries_le (v.table q)
  rw [hold.size, hdir hd, ← hcard]
  unfold direntSize
  omega

/-! ## Calls -/

/-- An inode is made. -/
theorem Made.sized (hm : Made v v' T i q n) (h : Inv v T) (hs : ∀ j ∈ T, SizedAt v j) (hq : q ∈ T)
    (hd : IsDir (v.slot q)) (hnew : SizeIs (v'.slot i) 0)
    (hempty : IsDir (v'.slot i) → ∀ j, 2 ≤ j → j < 19 → validAt (v'.table i) j = false)
    (hr : Resizes v v' T q ((get (v.slot q) .size + direntSize) % 2 ^ 32)) :
    ∀ j ∈ insert i T, SizedAt v' j := by
  intro j hj
  rcases Finset.mem_insert.1 hj with rfl | hjT
  · refine ⟨0, hnew, fun hdj => ?_⟩
    have htable := ((hm.inv.tracked j hj).dir hdj).table
    rw [entries_eq_empty htable (hempty hdj), Finset.card_empty, Nat.mul_zero]
  · by_cases hjq : j = q
    · subst hjq
      obtain ⟨m, hadded⟩ := hm.added
      exact (hs j hjT).added h hjT hd hadded hr.self
    · exact (hs j hjT).congr (hr.others j hjT hjq) fun hdj => hm.table j hjT hdj hjq

/-- An inode is removed. -/
theorem Gone.sized (hg : Gone v v' T i q n) (h : Inv v T) (hs : ∀ j ∈ T, SizedAt v j)
    (hr : Resizes v v' (T.erase i) q ((get (v.slot q) .size + (2 ^ 32 - direntSize)) % 2 ^ 32)) :
    ∀ j ∈ T.erase i, SizedAt v' j := by
  intro j hj
  have hjT := Finset.mem_of_mem_erase hj
  by_cases hjq : j = q
  · subst hjq
    obtain ⟨m, hchild, hremoved⟩ := hg.removed
    obtain ⟨⟨-, hd, -⟩, -⟩ := children_eq_some.1 hchild
    exact (hs j hjT).removed h hjT hd hremoved hr.self
  · exact (hs j hjT).congr (hr.others j hj hjq) fun hdj => hg.table j hj hdj hjq

/-- A file is written to. -/
theorem Wrote.sized (hw : Wrote v v' T i) (h : Inv v T) (hs : ∀ j ∈ T, SizedAt v j)
    (hfile : get (v'.slot i) .type = 0)
    (hsize : v'.slot i = v.slot i ∨ ∃ s, SizeIs (v'.slot i) s) : ∀ j ∈ T, SizedAt v' j := by
  intro j hj
  by_cases hji : j = i
  · subst hji
    have hnot : ¬IsDir (v'.slot j) := fun hd => by
      rw [IsDir, hfile] at hd
      cases hd
    rcases hsize with hsame | ⟨s, hs'⟩
    · obtain ⟨s, hs', -⟩ := hs j hj
      exact ⟨s, hsame ▸ hs', fun hd => absurd hd hnot⟩
    · exact ⟨s, hs', fun hd => absurd hd hnot⟩
  · refine (hs j hj).congr (hw.slot j hji) fun hd => ?_
    obtain ⟨k, -, hptr, -, -, hname⟩ := h.table hj hd
    unfold View.table
    rw [hw.slot j hji, hptr]
    exact hw.others j hj hji _ _ hname

/-- **One call** keeps the sizes, whatever it returns. -/
theorem call_sized (h : Inv fs.view T) (hm : fs.Mounted) (hs : ∀ j ∈ T, SizedAt fs.view j)
    (hop : op.Allowed fs) (hcall : op.call env fs = some (r, fs')) :
    fs'.Mounted ∧ ∃ T', Inv fs'.view T' ∧ ∀ j ∈ T', SizedAt fs'.view j := by
  have hsame : ∀ {fs'' : Fs}, fs''.view.slot = fs.view.slot → fs''.view.blk = fs.view.blk →
      ∀ j ∈ T, SizedAt fs''.view j := fun hslot hblk j hj =>
    (hs j hj).touch (hslot ▸ .refl _) (fun _ hn => hslot ▸ hn) hblk
  cases op with
  | mkdir path =>
    obtain ⟨r', fs₁, heq, hm', -, hcases⟩ :=
      @rufsMkdir_spec fs env T path h hm hop.ok hop.dirs hop.basename_length
    obtain ⟨-, rfl⟩ := Prod.mk.inj (Option.some.inj (hcall.symm.trans heq))
    rcases hcases with ⟨-, hinv, hslot, hblk⟩ | ⟨-, i, q, hq, hmade, -, hempty, hnew, hd, hsize, -⟩
    · exact ⟨hm', T, hinv, hsame hslot hblk⟩
    · exact ⟨hm', _, hmade.inv, hmade.sized h hs (hq.mem h) hd hnew (fun _ => hempty) hsize⟩
  | create path mode =>
    obtain ⟨r', fs₁, heq, hm', -, hcases⟩ :=
      @rufsCreate_spec fs env T mode path h hm hop.ok hop.dirs hop.basename_length
    obtain ⟨-, rfl⟩ := Prod.mk.inj (Option.some.inj (hcall.symm.trans heq))
    rcases hcases with ⟨-, hinv, hslot, hblk⟩ | ⟨-, i, q, hq, hmade, hfile, hnew, hd, hsize, -⟩
    · exact ⟨hm', T, hinv, hsame hslot hblk⟩
    · exact ⟨hm', _, hmade.inv, hmade.sized h hs (hq.mem h) hd hnew
        (fun hdir => absurd hdir hfile.not_isDir) hsize⟩
  | rmdir path =>
    obtain ⟨hp, hne⟩ := hop
    obtain ⟨r', -, heq, -⟩ | ⟨fs₁, i, q, heq, hm', -, -, -, hgone, hsize, -⟩ :=
      @rufsRmdir_spec fs env T path h hm hp.ok hp.dirs hne
    all_goals obtain ⟨-, rfl⟩ := Prod.mk.inj (Option.some.inj (hcall.symm.trans heq))
    · exact ⟨hm, T, h, hs⟩
    · exact ⟨hm', _, hgone.inv, hgone.sized h hs hsize⟩
  | unlink path =>
    obtain ⟨hp, hne⟩ := hop
    obtain ⟨r', -, heq, -⟩ | ⟨fs₁, i, q, heq, hm', -, -, -, hgone, hsize, -⟩ :=
      @rufsUnlink_spec fs env T path h hm hp.ok hp.dirs hne
    all_goals obtain ⟨-, rfl⟩ := Prod.mk.inj (Option.some.inj (hcall.symm.trans heq))
    · exact ⟨hm, T, h, hs⟩
    · exact ⟨hm', _, hgone.inv, hgone.sized h hs hsize⟩
  | read path buffer size offset =>
    obtain ⟨hp, -, -⟩ := hop
    obtain ⟨r', buf, fs₁, heq, hm', -, hinv, hblk, hnode⟩ :=
      @rufsRead_spec fs env T buffer size offset path h hm hp.ok hp.dirs
    rw [Op.call, heq, Option.map_some, Option.some.injEq, Prod.mk.injEq] at hcall
    obtain ⟨-, rfl⟩ := hcall
    exact ⟨hm', T, hinv, fun j hj => (hs j hj).touch (hnode j).1.toSameNode (hnode j).2 hblk⟩
  | write path buffer size offset =>
    obtain ⟨hp, hfile, hcap⟩ := hop
    rw [fileCapacity_eq] at hcap
    obtain ⟨r', fs₁, heq, hm', -, hcases⟩ :=
      @rufsWrite_spec fs env T buffer size offset path h hm hp.ok hp.dirs hfile hcap
    obtain ⟨-, rfl⟩ := Prod.mk.inj (Option.some.inj (hcall.symm.trans heq))
    rcases hcases with rfl | ⟨i, -, hwrote, htype, -, hsize⟩
    · exact ⟨hm, T, h, hs⟩
    · exact ⟨hm', T, hwrote.inv, hwrote.sized h hs htype hsize⟩

/-! ## The states reached -/

/-- **Every run** keeps the sizes. -/
theorem Reached.sized (h : Reached disk fs) :
    fs.Mounted ∧ ∃ T, Inv fs.view T ∧ ∀ j ∈ T, SizedAt fs.view j := by
  obtain ⟨env, es, hrun⟩ := h
  refine Run.invariant (I := fun fs : Fs => fs.Mounted ∧ ∃ T, Inv fs.view T ∧
    ∀ j ∈ T, SizedAt fs.view j) ?_ ?_ hrun
  · obtain ⟨fs₀, heq, hm, -, hinv, hsize, hempty, -⟩ := @rufsMkfs_spec env disk
    rw [heq]
    refine ⟨hm, {0}, hinv, fun j hj => ?_⟩
    obtain rfl := Finset.mem_singleton.1 hj
    have htable := ((hinv.tracked 0 hj).dir hinv.root.2).table
    refine ⟨0, hsize, fun _ => ?_⟩
    rw [entries_eq_empty htable hempty, Finset.card_empty, Nat.mul_zero]
  · intro fs e fs' ⟨hm, T, hinv, hs⟩ ⟨hop, r, hcall⟩
    exact call_sized hinv hm hs hop hcall

/-- **The sizes are true.** In every reached state each inode that is reached from the root records
one size in both fields, and the size of a directory is that of the valid entries in its table other
than `"."` and `".."`. -/
theorem sizes_true (h : Reached disk fs) (i : ℕ) (hl : Live fs i) :
    get (readi fs i) .stSize = get (readi fs i) .size ∧
    (IsDir (readi fs i) →
      get (readi fs i) .size = direntSize * (entries (fs.table i)).card) := by
  obtain ⟨hm, T, hinv, hs⟩ := h.sized
  have hi := hl.mem hinv hm
  obtain ⟨s, hsize, hdir⟩ := hs i hi
  rw [readi_eq_of_mem hinv hm hi]
  refine ⟨hsize.stSize.trans hsize.size.symm, fun hd => ?_⟩
  rw [table_eq hinv hm hi hd, hsize.size]
  exact hdir hd

/-- Two files are made in the root, and one is removed. -/
theorem sizes_true_removed : ∃ fs : Fs, get (readi fs 0) .size = 214 ∧
    get (readi fs 0) .stSize = get (readi fs 0) .size ∧
    get (readi fs 0) .size = direntSize * (entries (fs.table 0)).card := by
  obtain ⟨fs, hreached, hfs⟩ := reached_of_any Bytes.zero still
    [(still, .create [47, 102] 0), (still, .create [47, 103] 0), (still, .unlink [47, 102])]
    (fun fs => get (readi fs 0) .size == 214 && decide (IsDir (readi fs 0))) (by decide +kernel)
  simp only [Bool.and_eq_true, beq_iff_eq, decide_eq_true_eq] at hfs
  obtain ⟨hst, hdir⟩ := sizes_true hreached 0 .root
  exact ⟨fs, hfs.1, hst, hdir hfs.2⟩

end UserOS.Rufs
