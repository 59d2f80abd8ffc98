import UserOS.Rufs.Namespace

/-!
# What removing loses and leaves

`rufs_rmdir` checks whether a table of zeros is empty, and `rufs_unlink` stops at the first null
pointer of an array. Both do what they are for only when the inode removed is of a certain shape.

* `rmdir_protects_iff`: content is lost unless the directory is empty.
* `unlink_frees_iff`: blocks stay in use unless the pointers of the file have no holes.
-/

namespace UserOS.Rufs

open Lib

variable {disk : Disk} {v : View} {x : Inode} {fs fs' : Fs} {env : Env} {T : Finset ℕ}
  {i j k q : ℕ} {p : CString} {r : Ref}

/-! ## Directories -/

/-- The directory holds a valid entry besides `"."` and `".."`. -/
def HasContent (fs : Fs) (i : ℕ) : Prop := ∃ j c, EntryNames fs i j c

/-- `rufs_rmdir` of the path `p` of directory `i` refuses when there is content, and changes nothing
then, and removes the path otherwise. In any case all other live inodes stay live. -/
structure RmdirProtects (env : Env) (fs : Fs) (p : CString) (i : ℕ) : Prop where
  content : HasContent fs i →
    ∃ fs', rufsRmdir env fs p = some (-enotempty, fs') ∧ fs'.disk = fs.disk
  empty : ¬HasContent fs i → ∃ fs', rufsRmdir env fs p = some (0, fs') ∧ pathIno fs' p 0 = some none
  live : ∀ r fs', rufsRmdir env fs p = some (r, fs') → ∀ j, Live fs j → j ≠ i → Live fs' j

/-- `rufs_rmdir` of a path that is found removes it. -/
theorem rmdir_removes (h : Inv fs.view T) (hm : fs.Mounted) (hp : Passed fs p)
    (hne : components p ≠ []) (hi : pathIno fs p 0 = some (some i)) :
    ∃ fs' q, rufsRmdir env fs p = some (0, fs') ∧ fs'.Mounted ∧
      At fs.view T (components p) i ∧ At fs.view T (components (dirname p)) q ∧
      Gone fs.view fs'.view T i q (basename p) := by
  have hat := at_of_pathIno h hm hp.ok hp.dirs hi
  obtain ⟨-, -, -, hnot⟩ | ⟨fs', i', q, heq, hm', -, hat', hq, hgone, -⟩ :=
    @rufsRmdir_spec fs env T p h hm hp.ok hp.dirs hne
  · exact absurd hat (hnot i)
  · obtain rfl := hat.inode h hat'
    exact ⟨fs', q, heq, hm', hat, hq, hgone⟩

/-- **Inodes stay live** when a directory without content is removed. -/
theorem Gone.live (h : Inv fs.view T) (hm : fs.Mounted) (hm' : fs'.Mounted)
    (hgone : Gone fs.view fs'.view T i q (basename p)) (hempty : ¬HasContent fs i)
    (hl : Live fs j) (hji : j ≠ i) : Live fs' j := by
  induction hl with
  | root => exact .root
  | @entry d e c hd he ih =>
    have hdi : d ≠ i := fun hdi => hempty ⟨e, c, hdi ▸ he⟩
    have hdT := hd.mem h hm
    have hde : d ∈ T.erase i := Finset.mem_erase.2 ⟨hdi, hdT⟩
    have hdir : IsDir (fs.view.slot d) := readi_eq_of_mem h hm hdT ▸ he.dir
    have hdir' : IsDir (fs'.view.slot d) := (hgone.node d hde).type.trans hdir
    have htable := table_eq h hm hdT hdir
    have htable' := table_eq hgone.inv hm' hde hdir'
    refine (ih hdi).entry (j := e) ?_
    by_cases hdq : d = q
    · subst hdq
      obtain ⟨m, hchild, hremoved⟩ := hgone.removed
      have hem : e ≠ m := fun hem => by
        have hce := he.child h hm hdT
        rw [hem, hchild, Option.some.injEq] at hce
        exact hji hce.symm
      obtain ⟨hname, hvalid, hino⟩ := hremoved.other e he.lt hem
      rw [← htable', ← htable] at hname hvalid hino
      refine ⟨readi_eq_of_mem hgone.inv hm' hde ▸ hdir', he.lt, hvalid.trans he.valid, ?_,
        hino.trans he.ino⟩
      rw [hname]
      exact he.plain
    · have hsame : fs'.table d = fs.table d := by
        rw [htable, htable', hgone.table d hde hdir hdq]
      refine ⟨readi_eq_of_mem hgone.inv hm' hde ▸ hdir', he.lt, ?_, ?_, ?_⟩ <;> rw [hsame]
      · exact he.valid
      · exact he.plain
      · exact he.ino

/-- **`rufs_rmdir` protects content** if and only if there is none: in every reached state a
directory that holds entries besides `"."` and `".."` is removed, too. -/
theorem rmdir_protects_iff (h : Reached disk fs) (hp : Passed fs p) (hne : components p ≠ [])
    (hi : pathIno fs p 0 = some (some i)) : RmdirProtects env fs p i ↔ ¬HasContent fs i := by
  obtain ⟨hm, -, T, hinv⟩ := h.spec
  obtain ⟨fs', q, heq, hm', hat, hq, hgone⟩ := @rmdir_removes fs env T i p hinv hm hp hne hi
  constructor
  · intro hprotects hcontent
    obtain ⟨fs'', heq', -⟩ := hprotects.content hcontent
    rw [heq, Option.some.injEq, Prod.mk.injEq] at heq'
    exact absurd heq'.1 (by decide)
  · intro hempty
    refine ⟨fun hcontent => absurd hcontent hempty, fun _ => ⟨fs', heq, ?_⟩,
      fun r fs'' heq' j hl hji => ?_⟩
    · have hgoneAt := hinv.pathGone hm hm' hp.ok hp.dirs hne hat hq hgone
      exact hgoneAt.below p hp.ok.absolute (List.prefix_refl _)
    · rw [heq, Option.some.injEq, Prod.mk.injEq] at heq'
      obtain ⟨-, rfl⟩ := heq'
      exact hgone.live hinv hm hm' hempty hl hji

/-- An empty directory is removed. -/
theorem rmdir_protects_empty : ∃ fs : Fs, RmdirProtects still fs [47, 100] 1 := by
  obtain ⟨fs, hreached, hfs⟩ := reached_of_any Bytes.zero still [(still, .mkdir [47, 100])]
    (fun fs => decide (Passed fs [47, 100]) && (pathIno fs [47, 100] 0 == some (some 1)) &&
      (List.range 19).all fun j => !validAt (fs.table 1) j || nameAt (fs.table 1) j == dot ||
        nameAt (fs.table 1) j == dotDot) (by decide +kernel)
  simp only [Bool.and_eq_true, decide_eq_true_eq, beq_iff_eq, List.all_eq_true, List.mem_range,
    Bool.or_eq_true, Bool.not_eq_true'] at hfs
  obtain ⟨⟨hp, hi⟩, hall⟩ := hfs
  refine ⟨fs, (rmdir_protects_iff hreached hp (by decide) hi).2 fun ⟨j, c, he⟩ => ?_⟩
  obtain (hv | hdot) | hdotDot := hall j he.lt
  · rw [he.valid] at hv
    cases hv
  · exact he.plain.1 hdot
  · exact he.plain.2 hdotDot

/-- A directory that holds another is removed. -/
theorem rmdir_protects_content : ¬∀ (fs : Fs) (p : CString) (i : ℕ), Reached Bytes.zero fs →
    Passed fs p → components p ≠ [] → pathIno fs p 0 = some (some i) → IsDir (readi fs i) →
    RmdirProtects still fs p i := by
  intro hall
  obtain ⟨fs, hreached, hfs⟩ := reached_of_any Bytes.zero still
    [(still, .mkdir [47, 100]), (still, .mkdir [47, 100, 47, 101])]
    (fun fs => decide (Passed fs [47, 100]) && (pathIno fs [47, 100] 0 == some (some 1)) &&
      decide (IsDir (readi fs 1)) && validAt (fs.table 1) 2 && nameAt (fs.table 1) 2 == [101] &&
      ((rufsRmdir still fs [47, 100]).map Prod.fst == some 0)) (by decide +kernel)
  simp only [Bool.and_eq_true, decide_eq_true_eq, beq_iff_eq] at hfs
  obtain ⟨⟨⟨⟨⟨hp, hi⟩, hd⟩, hv⟩, hname⟩, hr⟩ := hfs
  have hcontent : HasContent fs 1 :=
    ⟨2, _, hd, by decide, hv, by rw [hname]; decide, rfl⟩
  obtain ⟨fs', heq, -⟩ := (hall fs [47, 100] 1 hreached hp (by decide) hi hd).content hcontent
  rw [heq, Option.map_some, Option.some.injEq] at hr
  exact absurd (show -enotempty = 0 from hr) (by decide)

/-! ## Files -/

/-- `rufs_unlink` of the path `p` of inode `i` clears the bits of all blocks that the file owns and
of its inode, and removes its entry, and clears and removes nothing else. -/
structure FreedExactly (fs fs' : Fs) (p : CString) (i : ℕ) : Prop where
  blocks : ∀ k < maxDnum, fs'.dataBit k = true ↔
    fs.dataBit k = true ∧ ∀ r, fs.blockAt i r ≠ some (fs.super .dStartBlk + k)
  inode : ∀ j, fs'.inodeBit j = true ↔ fs.inodeBit j = true ∧ j ≠ i
  entry : ∃ q m, pathIno fs (dirname p) 0 = some (some q) ∧ EntryNames fs q m i ∧
    nameAt (fs.table q) m = basename p ∧ validAt (fs'.table q) m = false ∧
    ∀ j < maxDirEntries, j ≠ m → nameAt (fs'.table q) j = nameAt (fs.table q) j ∧
      validAt (fs'.table q) j = validAt (fs.table q) j ∧
      inoAt (fs'.table q) j = inoAt (fs.table q) j

/-- No null pointer lies before a block in the indirect pointers or in an indirect block. -/
structure NoHoles (fs : Fs) (i : ℕ) : Prop where
  indirect : ∀ k l, k < l → fs.blockAt i (.indirect l) ≠ none → fs.blockAt i (.indirect k) ≠ none
  entry : ∀ k j l, j < l → fs.blockAt i (.entry k l) ≠ none → fs.blockAt i (.entry k j) ≠ none

/-- All blocks are visited if and only if there are no holes. -/
theorem visited_iff : (∀ r, v.names x r ≠ none → v.Visited x r) ↔
    (∀ k l, k < l → v.names x (.indirect l) ≠ none → v.names x (.indirect k) ≠ none) ∧
      ∀ k j l, j < l → v.names x (.entry k l) ≠ none → v.names x (.entry k j) ≠ none := by
  constructor
  · intro hall
    refine ⟨fun k l hkl hl => ?_, fun k j l hjl hl => ?_⟩
    · exact (hall _ hl).2 k (Nat.zero_le k) hkl.le
    · exact (hall _ hl).2.2 j (Nat.zero_le j) hjl.le
  · intro ⟨hindirect, hentry⟩ r hr
    have hfollowed : ∀ k, v.names x (.indirect k) ≠ none → v.Followed x 0 k := fun k hk => by
      refine ⟨Nat.zero_le k, fun l _ hl => ?_⟩
      by_cases hlk : l = k
      · rwa [hlk]
      · exact hindirect l k (by omega) hk
    cases r with
    | direct k => trivial
    | indirect k => exact hfollowed k hr
    | entry k j =>
      refine ⟨hfollowed k fun hnone => hr ?_, Nat.zero_le j, fun l _ hl => ?_⟩
      · refine if_neg fun hh => hh.2.2 ?_
        rwa [names_indirect hh.1, nonNull_eq_none] at hnone
      · by_cases hlj : l = j
        · rwa [hlj]
        · exact hentry k l j (by omega) hr

/-- `rufs_unlink` of a path that is found removes it, and clears the bits of the blocks that it
comes to. -/
theorem unlink_removes (h : Inv fs.view T) (hm : fs.Mounted) (hp : Passed fs p)
    (hne : components p ≠ []) (hi : pathIno fs p 0 = some (some i)) :
    ∃ fs' q, rufsUnlink env fs p = some (0, fs') ∧ fs'.Mounted ∧
      At fs.view T (components (dirname p)) q ∧ Gone fs.view fs'.view T i q (basename p) ∧
      fs'.view.ibit = Function.update fs.view.ibit i false ∧
      ∀ k < 16384, fs'.view.dbit k = true ↔ fs.view.dbit k = true ∧
        ∀ r, fs.view.Visited (fs.view.slot i) r →
          fs.view.names (fs.view.slot i) r ≠ some (67 + (k : ℤ)) := by
  have hat := at_of_pathIno h hm hp.ok hp.dirs hi
  obtain ⟨-, -, -, hnot⟩ | ⟨fs', i', q, heq, hm', -, hat', hq, hgone, -, -, hibit, hdbit⟩ :=
    @rufsUnlink_spec fs env T p h hm hp.ok hp.dirs hne
  · exact absurd hat (hnot i)
  · obtain rfl := hat.inode h hat'
    exact ⟨fs', q, heq, hm', hq, hgone, hibit, hdbit⟩

/-- The entry that is removed, in terms of what is read. -/
theorem Gone.entry (h : Inv fs.view T) (hm : fs.Mounted) (hm' : fs'.Mounted) (hp : PathOk p)
    (hdirs : PrefixDirs fs p) (hne : components p ≠ []) (hi : At fs.view T (components p) i)
    (hq : At fs.view T (components (dirname p)) q)
    (hgone : Gone fs.view fs'.view T i q (basename p)) :
    ∃ q m, pathIno fs (dirname p) 0 = some (some q) ∧ EntryNames fs q m i ∧
      nameAt (fs.table q) m = basename p ∧ validAt (fs'.table q) m = false ∧
      ∀ j < maxDirEntries, j ≠ m → nameAt (fs'.table q) j = nameAt (fs.table q) j ∧
        validAt (fs'.table q) j = validAt (fs.table q) j ∧
        inoAt (fs'.table q) j = inoAt (fs.table q) j := by
  obtain ⟨hnames, hpre, hdir⟩ := hdirs.parent h hm hp
  have hqT := hq.mem h
  have hd := hdir q hq
  have hqi : q ≠ i := fun hqi => by
    have hlen := congrArg List.length ((hqi ▸ hq).unique h hi)
    have hpos := List.length_pos_iff.2 hne
    rw [components_dirname hp.absolute, List.length_dropLast] at hlen
    omega
  have hqe : q ∈ T.erase i := Finset.mem_erase.2 ⟨hqi, hqT⟩
  have htable := table_eq h hm hqT hd
  have htable' := table_eq hgone.inv hm' hqe ((hgone.node q hqe).type.trans hd)
  obtain ⟨m, hchild, hremoved⟩ := hgone.removed
  have hname : NameOk (basename p) :=
    hp.nameOk (components_eq_snoc hp.absolute hne ▸ List.mem_append_right _ List.mem_cons_self)
  have hentry : EntryNames fs q m i := by
    refine ⟨readi_eq_of_mem h hm hqT ▸ hd, hremoved.lt, ?_, ?_, ?_⟩ <;> rw [htable]
    · exact hremoved.valid
    · rw [hremoved.name]
      exact ⟨hname.ne_dot, hname.ne_dotDot⟩
    · exact (children_eq_some.1 hchild).2
  refine ⟨q, m, ?_, hentry, ?_, ?_, fun j hj hjm => ?_⟩
  · rw [pathIno_eq (isAbsolute_dirname hp.absolute), (walkPath_eq_some h hm hnames hpre).2 hq]
  · rw [htable]
    exact hremoved.name
  · rw [htable']
    exact hremoved.free
  · rw [htable, htable']
    exact hremoved.other j hj hjm

/-- **`rufs_unlink` frees all that the file owns** if and only if its pointers have no holes. -/
theorem unlink_frees_iff (h : Reached disk fs) (hp : Passed fs p) (hne : components p ≠ [])
    (hi : pathIno fs p 0 = some (some i)) :
    (∃ fs', rufsUnlink env fs p = some (0, fs') ∧ FreedExactly fs fs' p i) ↔ NoHoles fs i := by
  obtain ⟨hm, -, T, hinv⟩ := h.spec
  have hat := at_of_pathIno hinv hm hp.ok hp.dirs hi
  have hiT := hat.mem hinv
  have hholes : NoHoles fs i ↔ ∀ r, fs.view.names (fs.view.slot i) r ≠ none →
      fs.view.Visited (fs.view.slot i) r := by
    rw [visited_iff]
    constructor
    · intro ⟨hindirect, hentry⟩
      simp only [blockAt_eq hinv hm hiT] at hindirect hentry
      exact ⟨hindirect, hentry⟩
    · intro ⟨hindirect, hentry⟩
      constructor <;> simp only [blockAt_eq hinv hm hiT]
      · exact hindirect
      · exact hentry
  obtain ⟨fs', q, heq, hm', hq, hgone, hibit, hdbit⟩ :=
    @unlink_removes fs env T i p hinv hm hp hne hi
  have hblocks : (∀ k < maxDnum, fs'.dataBit k = true ↔
      fs.dataBit k = true ∧ ∀ r, fs.blockAt i r ≠ some (fs.super .dStartBlk + k)) ↔
      NoHoles fs i := by
    rw [hholes, dataBit_eq hm, dataBit_eq hm', super_dStartBlk hm]
    simp only [blockAt_eq hinv hm hiT]
    constructor
    · intro hall r hr
      obtain ⟨b, hb⟩ := Option.ne_none_iff_exists'.1 hr
      obtain ⟨k, hk, rfl, hbit⟩ := hinv.used hiT hb
      by_contra hvisited
      refine ((hall k hk).1 ((hdbit k hk).2 ⟨hbit, fun s hs hname => hvisited ?_⟩)).2 r hb
      rwa [(hinv.owner hiT hiT hb hname).2]
    · intro hall k hk
      rw [hdbit k hk]
      refine and_congr_right fun _ => ⟨fun hr r hname => ?_, fun hr r _ => hr r⟩
      exact hr r (hall r (by rw [hname]; exact Option.some_ne_none _)) hname
  rw [← hblocks]
  constructor
  · intro ⟨fs'', heq', hfreed⟩
    rw [heq, Option.some.injEq, Prod.mk.injEq] at heq'
    obtain ⟨-, rfl⟩ := heq'
    exact hfreed.blocks
  · intro hall
    refine ⟨fs', heq, hall, fun j => ?_, ?_⟩
    · rw [inodeBit_eq hm, inodeBit_eq hm', hibit]
      by_cases hji : j = i
      · rw [hji, Function.update_self]
        simp
      · rw [Function.update_of_ne hji]
        simp [hji]
    · exact hgone.entry hinv hm hm' hp.ok hp.dirs hne hat hq

/-- A file of two blocks is freed. -/
theorem unlink_frees_file : ∃ fs fs' : Fs, fs.blockAt 1 (.direct 0) = some 68 ∧
    FreedExactly fs fs' [47, 102] 1 := by
  obtain ⟨fs, hreached, hfs⟩ := reached_of_any Bytes.zero still
    [(still, .create [47, 102] 0), (still, .write [47, 102] (fun _ => 7) 5000 0)]
    (fun fs => decide (Passed fs [47, 102]) && (pathIno fs [47, 102] 0 == some (some 1)) &&
      (List.range 8).all (fun k => fs.blockAt 1 (.indirect k) == none) &&
      fs.blockAt 1 (.direct 0) == some 68) (by decide +kernel)
  simp only [Bool.and_eq_true, decide_eq_true_eq, beq_iff_eq, List.all_eq_true, List.mem_range]
    at hfs
  obtain ⟨⟨⟨hp, hi⟩, hnone⟩, hblock⟩ := hfs
  have hindirect : ∀ l, fs.blockAt 1 (.indirect l) = none := fun l => by
    by_cases hl : l < 8
    · exact hnone l hl
    · exact if_neg hl
  have hholes : NoHoles fs 1 := by
    refine ⟨fun k l _ hl => absurd (hindirect l) hl, fun k j l _ hl => ?_⟩
    refine absurd (if_neg fun hh => hh.2.2 ?_) hl
    have hk := hindirect k
    simp only [Fs.blockAt, if_pos hh.1, nonNull_eq_none] at hk
    exact hk
  obtain ⟨fs', -, hfreed⟩ :=
    (@unlink_frees_iff Bytes.zero fs still 1 [47, 102] hreached hp (by decide) hi).2 hholes
  exact ⟨fs, fs', hblock, hfreed⟩

/-- A file whose first 9 blocks have been written twice accepts a write to its block 17, before
which a pointer is null. This block stays marked when the file is removed. -/
theorem unlink_frees_hole : ¬∀ (fs₀ fs₁ fs : Fs) (p : CString) (ws : List WriteCall) (i : ℕ),
    Reached Bytes.zero fs₀ → Passed fs₀ p → rufsCreate still fs₀ p 0 = some (0, fs₁) →
    Run (FullWrite p) fs₁ ws fs → Passed fs p → pathIno fs p 0 = some (some i) →
    ∃ fs', rufsUnlink still fs p = some (0, fs') ∧ FreedExactly fs fs' p i := by
  intro hall
  let nine : WriteCall := ⟨still, fun _ => 7, 36864, 0⟩
  let one : WriteCall := ⟨still, fun _ => 7, 1, 69632⟩
  obtain ⟨fs₀, hreached, hfs⟩ := reached_of_any Bytes.zero still [] (fun fs₀ =>
    decide (Passed fs₀ [47, 102]) && (rufsCreate still fs₀ [47, 102] 0).any fun r =>
      r.1 == 0 && (fullWrites [47, 102] r.2 [nine, nine, one]).any fun fs =>
        decide (Passed fs [47, 102]) && (pathIno fs [47, 102] 0 == some (some 1)) &&
        fs.blockAt 1 (.entry 0 1) == some (fs.super .dStartBlk + (11 : ℕ)) &&
        (rufsUnlink still fs [47, 102]).any fun r => r.2.dataBit 11) (by decide +kernel)
  simp only [Bool.and_eq_true, decide_eq_true_eq, beq_iff_eq, Option.any_eq_true] at hfs
  obtain ⟨hp₀, ⟨r₀, fs₁⟩, hcreate, hr₀, fs, hwrites, ⟨⟨hp, hi⟩, hblock⟩, ⟨r, fs'⟩, hcall, hbit⟩ :=
    hfs
  obtain rfl : r₀ = 0 := hr₀
  obtain ⟨fs'', heq, hfreed⟩ := hall fs₀ fs₁ fs [47, 102] _ 1 hreached hp₀ hcreate
    (run_of_fullWrites hwrites) hp hi
  rw [hcall, Option.some.injEq, Prod.mk.injEq] at heq
  obtain ⟨-, rfl⟩ := heq
  exact ((hfreed.blocks 11 (by decide)).1 hbit).2 _ hblock

end UserOS.Rufs
