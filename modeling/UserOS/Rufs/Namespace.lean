import UserOS.Rufs.Consistency

/-!
# The namespace

Which paths resolve, and to which inodes, before and after the operations that make and remove
names. A path resolves as before unless its components are those of the path made or removed, or go
on from there.

* `walkPath_frame`: the frame argument over all other paths.
* `made_resolves`, `gone_resolves`: what the two kinds of operation change.
* `namespace_refines`: the operations, in every reached state.
-/

namespace UserOS.Rufs

open Lib

variable {disk : Disk} {v v' : View} {fs fs' : Fs} {env : Env} {T : Finset ℕ} {b b' : Bytes}
  {i j k m q c mode : ℕ} {n name : CString} {cs : List CString} {p path : CString}

/-! ## Tables -/

/-- A name is found as before when the only entry that has changed neither had the name nor has it.
-/
theorem findName_of_agree (hb : Entries b) (hb' : Entries b') (h0 : 0 ∉ n) (hne : n ≠ [])
    (hother : ∀ j < 19, j ≠ m →
      nameAt b' j = nameAt b j ∧ validAt b' j = validAt b j ∧ inoAt b' j = inoAt b j)
    (hm : nameAt b m ≠ n) (hm' : nameAt b' m ≠ n) :
    (findName b' n).map (inoAt b') = (findName b n).map (inoAt b) := by
  apply Option.ext
  intro i
  rw [Option.map_eq_some_iff, Option.map_eq_some_iff]
  refine exists_congr fun j => ?_
  rw [findName_eq hb' h0 hne, findName_eq hb h0 hne]
  by_cases hjm : j = m
  · rw [hjm]
    exact iff_of_false (fun hf => hm' hf.1.2.2) fun hf => hm hf.1.2.2
  · constructor
    · intro ⟨⟨hj, hv, hname⟩, hi⟩
      obtain ⟨h1, h2, h3⟩ := hother j hj hjm
      exact ⟨⟨hj, h2 ▸ hv, h1 ▸ hname⟩, h3 ▸ hi⟩
    · intro ⟨⟨hj, hv, hname⟩, hi⟩
      obtain ⟨h1, h2, h3⟩ := hother j hj hjm
      exact ⟨⟨hj, h2.trans hv, h1.trans hname⟩, h3.trans hi⟩

/-- The name removed is not found. -/
theorem Removed.findName_self (hb : TableOk b) (h : Removed b b' m name) (h0 : 0 ∉ name)
    (hne : name ≠ []) : findName b' name = none := by
  rw [findName_eq_none h.ok.toEntries h0 hne]
  intro j hj hname
  by_cases hjm : j = m
  · exact hne (hname.symm.trans (hjm ▸ h.ok.empty j hj (hjm ▸ h.free)))
  · have hnamej := (h.other j hj hjm).1.symm.trans hname
    exact hjm (hb.inj m h.lt j hj h.valid (h.name.trans hnamej.symm)).symm

/-! ## Other paths -/

/-- **Frame.** A path resolves as before when the look-ups of its names in the directories on the
way do. -/
theorem walkPath_frame (h : Inv fs.view T) (hm : fs.Mounted) (hcs : ∀ c ∈ cs, NameOk c)
    (hdirs : DirsTo fs cs) (hlook : ∀ ds n j, ds ++ [n] <+: cs → At fs.view T ds j →
      IsDir (fs.view.slot j) → NameOk n → dirFind fs' j n = dirFind fs j n) :
    walkPath fs' 0 cs = walkPath fs 0 cs := by
  refine walkPath_congr fun ds n es j hds hj => ?_
  have hat : At fs.view T ds j := (walkPath_eq_some h hm
    (fun c hc => hcs c (hds ▸ List.mem_append_left _ hc)) (DirsTo.left (hds ▸ hdirs))).1 hj
  have hd := hdirs ds (n :: es) j hds (List.cons_ne_nil _ _) hj
  rw [readi_eq_of_mem h hm (hat.mem h)] at hd
  refine hlook ds n j ⟨es, ?_⟩ hat hd (hcs n ?_)
  · rw [hds, List.append_assoc, List.singleton_append]
  · rw [hds]
    exact List.mem_append_right _ List.mem_cons_self

/-- A directory whose table has not changed. -/
theorem dirFind_of_table (h : Inv fs.view T) (hm : fs.Mounted) {T' : Finset ℕ}
    (h' : Inv fs'.view T') (hm' : fs'.Mounted) (hj : j ∈ T) (hj' : j ∈ T')
    (hd : IsDir (fs.view.slot j)) (hnode : SameNode (fs.view.slot j) (fs'.view.slot j))
    (hfind : (findName (fs'.view.table j) n).map (inoAt (fs'.view.table j)) =
      (findName (fs.view.table j) n).map (inoAt (fs.view.table j))) :
    dirFind fs' j n = dirFind fs j n := by
  rw [dirFind_eq h' hm' hj' (hnode.type.trans hd), dirFind_eq h hm hj hd, hfind]

/-- **A name is made.** The path did not resolve, it leads to the new inode, and all other paths
resolve as before. -/
theorem made_resolves (h : Inv fs.view T) (hm : fs.Mounted) (hm' : fs'.Mounted) (hp : PathOk p)
    (hdirs : PrefixDirs fs p) (hne : components p ≠ [])
    (hq : At fs.view T (components (dirname p)) q)
    (hmade : Made fs.view fs'.view T i q (basename p))
    (hempty : ∀ n, NameOk n → dirFind fs' i n = none) :
    walkPath fs 0 (components p) = none ∧ walkPath fs' 0 (components p) = some i ∧
      ∀ cs, (∀ c ∈ cs, NameOk c) → DirsTo fs cs → cs ≠ components p →
        walkPath fs' 0 cs = walkPath fs 0 cs := by
  have hsplit := components_eq_snoc hp.absolute hne
  have hname : NameOk (basename p) :=
    hp.nameOk (hsplit ▸ List.mem_append_right _ List.mem_cons_self)
  obtain ⟨hnames, hpre, hdir⟩ := hdirs.parent h hm hp
  have hqT := hq.mem h
  have hd := hdir q hq
  obtain ⟨m, hadded⟩ := hmade.added
  have htable := ((h.tracked q hqT).dir hd).table
  have hmem : ∀ {j}, j ∈ T → j ∈ insert i T := fun hj => Finset.mem_insert_of_mem hj
  -- Look-ups in directories, except that of the new name.
  have hlook : ∀ cs, ¬components p <+: cs → ∀ ds n j, ds ++ [n] <+: cs → At fs.view T ds j →
      IsDir (fs.view.slot j) → NameOk n → dirFind fs' j n = dirFind fs j n := by
    intro cs hcs ds n j hds hat hdj hn
    have hj := hat.mem h
    refine dirFind_of_table h hm hmade.inv hm' hj (hmem hj) hdj (hmade.node j hj) ?_
    by_cases hjq : j = q
    · subst hjq
      refine findName_of_agree htable.toEntries hadded.ok.toEntries hn.ended hn.ne_nil hadded.other
        ?_ ?_
      · rw [htable.empty m hadded.lt hadded.free]
        exact hn.ne_nil.symm
      · rw [hadded.name]
        intro heq
        refine hcs ?_
        rw [hsplit, heq, ← hat.unique h hq]
        exact hds
    · rw [hmade.table j hj hdj hjq]
  have hframe : ∀ cs, (∀ c ∈ cs, NameOk c) → DirsTo fs cs → ¬components p <+: cs →
      walkPath fs' 0 cs = walkPath fs 0 cs := fun cs hcs hdcs hnot =>
    walkPath_frame h hm hcs hdcs (hlook cs hnot)
  have hparent : walkPath fs' 0 (components (dirname p)) = some q := by
    rw [hframe _ hnames hpre fun hprefix => ?_]
    · exact (walkPath_eq_some h hm hnames hpre).2 hq
    · have hlen := hprefix.length_le
      rw [hsplit, List.length_append, List.length_singleton] at hlen
      omega
  have hbefore : walkPath fs 0 (components p) = none := by
    rw [hsplit, walkPath_append, (walkPath_eq_some h hm hnames hpre).2 hq, Option.bind_some,
      walkPath_singleton, dirFind_eq h hm hqT hd,
      (findName_eq_none htable.toEntries hname.ended hname.ne_nil).2 hadded.new]
    rfl
  have hafter : walkPath fs' 0 (components p) = some i := by
    rw [hsplit, walkPath_append, hparent, Option.bind_some, walkPath_singleton,
      dirFind_eq hmade.inv hm' (hmem hqT) ((hmade.node q hqT).type.trans hd),
      (findName_eq hadded.ok.toEntries hname.ended hname.ne_nil).2
        ⟨hadded.lt, hadded.valid, hadded.name⟩]
    exact congrArg some hadded.ino
  refine ⟨hbefore, hafter, fun cs hcs hdcs hcsne => ?_⟩
  by_cases hprefix : components p <+: cs
  · -- The path goes on from the new inode, where no name is found.
    obtain ⟨ds, rfl⟩ := hprefix
    obtain ⟨n, ds, rfl⟩ := List.exists_cons_of_ne_nil fun hds : ds = [] => hcsne (by simp [hds])
    rw [walkPath_append, walkPath_append, hbefore, hafter, Option.bind_some, Option.bind_none,
      walkPath, hempty n (hcs n (by simp))]
    rfl
  · exact hframe cs hcs hdcs hprefix

/-- **A name is removed.** The path and all that go on from it do not resolve, and all others
resolve as before. -/
theorem gone_resolves (h : Inv fs.view T) (hm : fs.Mounted) (hm' : fs'.Mounted) (hp : PathOk p)
    (hdirs : PrefixDirs fs p) (hne : components p ≠ []) (hi : At fs.view T (components p) i)
    (hq : At fs.view T (components (dirname p)) q)
    (hgone : Gone fs.view fs'.view T i q (basename p)) :
    (∀ cs, components p <+: cs → walkPath fs' 0 cs = none) ∧
      ∀ cs, (∀ c ∈ cs, NameOk c) → DirsTo fs cs → ¬components p <+: cs →
        walkPath fs' 0 cs = walkPath fs 0 cs := by
  have hsplit := components_eq_snoc hp.absolute hne
  have hname : NameOk (basename p) :=
    hp.nameOk (hsplit ▸ List.mem_append_right _ List.mem_cons_self)
  obtain ⟨hnames, hpre, hdir⟩ := hdirs.parent h hm hp
  have hqT := hq.mem h
  have hd := hdir q hq
  obtain ⟨m, -, hremoved⟩ := hgone.removed
  have htable := ((h.tracked q hqT).dir hd).table
  have hmem : ∀ {ds j}, At fs.view T ds j → ds ≠ components p → j ∈ T.erase i :=
    fun hat hds => Finset.mem_erase.2 ⟨fun hji => hds ((hji ▸ hat).unique h hi), hat.mem h⟩
  have hqe : q ∈ T.erase i := hmem hq fun heq => by
    have hlen := congrArg List.length heq
    rw [hsplit, List.length_append, List.length_singleton] at hlen
    omega
  have hframe : ∀ cs, (∀ c ∈ cs, NameOk c) → DirsTo fs cs → ¬components p <+: cs →
      walkPath fs' 0 cs = walkPath fs 0 cs := by
    intro cs hcs hdcs hnot
    refine walkPath_frame h hm hcs hdcs fun ds n j hds hat hdj hn => ?_
    have hj := hat.mem h
    have hje : j ∈ T.erase i := hmem hat fun heq =>
      hnot (heq ▸ (List.prefix_append ds [n]).trans hds)
    refine dirFind_of_table h hm hgone.inv hm' hj hje hdj (hgone.node j hje) ?_
    by_cases hjq : j = q
    · subst hjq
      refine findName_of_agree htable.toEntries hremoved.ok.toEntries hn.ended hn.ne_nil
        hremoved.other ?_ ?_
      · rw [hremoved.name]
        intro heq
        refine hnot ?_
        rw [hsplit, heq, ← hat.unique h hq]
        exact hds
      · rw [hremoved.ok.empty m hremoved.lt hremoved.free]
        exact hn.ne_nil.symm
    · rw [hgone.table j hje hdj hjq]
  have hparent : walkPath fs' 0 (components (dirname p)) = some q := by
    rw [hframe _ hnames hpre fun hprefix => ?_]
    · exact (walkPath_eq_some h hm hnames hpre).2 hq
    · have hlen := hprefix.length_le
      rw [hsplit, List.length_append, List.length_singleton] at hlen
      omega
  refine ⟨fun cs ⟨ds, hds⟩ => ?_, hframe⟩
  rw [← hds, hsplit, walkPath_append, walkPath_append, hparent, Option.bind_some,
    walkPath_singleton, dirFind_eq hgone.inv hm' hqe ((hgone.node q hqe).type.trans hd),
    hremoved.findName_self htable hname.ended hname.ne_nil]
  rfl

/-! ## The operations -/

/-- A call makes the path `p`, for an inode `i` that was free. -/
structure PathMade (fs fs' : Fs) (p : CString) (i : ℕ) : Prop where
  before : pathIno fs p 0 = some none
  after : pathIno fs' p 0 = some (some i)
  free : fs.inodeBit i = false
  others : ∀ q, PathOk q → PrefixDirs fs q → components q ≠ components p →
    pathIno fs' q 0 = pathIno fs q 0

/-- A call removes the path `p`. -/
structure PathGone (fs fs' : Fs) (p : CString) : Prop where
  below : ∀ q, IsAbsolute q → components p <+: components q → pathIno fs' q 0 = some none
  others : ∀ q, PathOk q → PrefixDirs fs q → ¬components p <+: components q →
    pathIno fs' q 0 = pathIno fs q 0

theorem Inv.pathMade (h : Inv fs.view T) (hm : fs.Mounted) (hm' : fs'.Mounted) (hp : PathOk p)
    (hdirs : PrefixDirs fs p) (hne : components p ≠ [])
    (hq : At fs.view T (components (dirname p)) q)
    (hmade : Made fs.view fs'.view T i q (basename p))
    (hempty : ∀ n, NameOk n → dirFind fs' i n = none) : PathMade fs fs' p i := by
  obtain ⟨hbefore, hafter, hothers⟩ := made_resolves h hm hm' hp hdirs hne hq hmade hempty
  refine ⟨?_, ?_, ?_, fun q hq hdq hqp => ?_⟩
  · rw [pathIno_eq hp.absolute, hbefore]
  · rw [pathIno_eq hp.absolute, hafter]
  · rw [inodeBit_eq hm]
    exact hmade.free
  · rw [pathIno_eq hq.absolute, pathIno_eq hq.absolute,
      hothers _ (fun _ => hq.nameOk) hdq.dirsTo hqp]

theorem Inv.pathGone (h : Inv fs.view T) (hm : fs.Mounted) (hm' : fs'.Mounted) (hp : PathOk p)
    (hdirs : PrefixDirs fs p) (hne : components p ≠ []) (hi : At fs.view T (components p) i)
    (hq : At fs.view T (components (dirname p)) q)
    (hgone : Gone fs.view fs'.view T i q (basename p)) : PathGone fs fs' p := by
  obtain ⟨hbelow, hothers⟩ := gone_resolves h hm hm' hp hdirs hne hi hq hgone
  refine ⟨fun q hq hpq => ?_, fun q hq hdq hqp => ?_⟩
  · rw [pathIno_eq hq, hbelow _ hpq]
  · rw [pathIno_eq hq.absolute, pathIno_eq hq.absolute,
      hothers _ (fun _ => hq.nameOk) hdq.dirsTo hqp]

/-- A directory whose entries after the first two are free finds no name. -/
theorem dirFind_empty (h : Inv fs.view T) (hm : fs.Mounted) (hi : i ∈ T)
    (hd : IsDir (fs.view.slot i))
    (hempty : ∀ j, 2 ≤ j → j < 19 → validAt (fs.view.table i) j = false) (hn : NameOk n) :
    dirFind fs i n = none := by
  have htable := ((h.tracked i hi).dir hd).table
  rw [dirFind_eq h hm hi hd,
    (findName_eq_none htable.toEntries hn.ended hn.ne_nil).2 fun j hj hname => ?_]
  · rfl
  · by_cases h2 : 2 ≤ j
    · exact hn.ne_nil (hname.symm.trans (htable.empty j hj (hempty j h2 hj)))
    · exact h2 (htable.two_le hname hn.ne_dot hn.ne_dotDot)

/-- **The namespace is a tree.** In every reached state a call that makes a path leads it to an
inode that was free, and a call that removes a path removes all that go on from it; every other path
whose proper prefixes are directories leads to the same inode as before. -/
theorem namespace_refines (h : Reached disk fs) (hp : Passed fs p) (hne : components p ≠ []) :
    (∀ env fs', rufsMkdir env fs p = some (0, fs') → ∃ i, PathMade fs fs' p i ∧
      IsDir (readi fs' i) ∧ ∀ j < maxDirEntries, validAt (fs'.table i) j = true →
        nameAt (fs'.table i) j = dotDot ∨ nameAt (fs'.table i) j = dot) ∧
    (∀ env mode fs', rufsCreate env fs p mode = some (0, fs') → ∃ i, PathMade fs fs' p i ∧
      get (readi fs' i) .type = 0 ∧ ∀ r, fs'.blockAt i r = none) ∧
    (∀ env fs', rufsRmdir env fs p = some (0, fs') → PathGone fs fs' p) ∧
    ∀ env fs', rufsUnlink env fs p = some (0, fs') → PathGone fs fs' p := by
  obtain ⟨hm, -, T, hinv⟩ := h.spec
  refine ⟨fun env fs' hcall => ?_, fun env mode fs' hcall => ?_, fun env fs' hcall => ?_,
    fun env fs' hcall => ?_⟩
  · obtain ⟨r, fs'', heq, hm', -, hcases⟩ :=
      @rufsMkdir_spec fs env T p hinv hm hp.ok hp.dirs hp.basename_length
    rw [hcall, Option.some.injEq, Prod.mk.injEq] at heq
    obtain ⟨rfl, rfl⟩ := heq
    obtain ⟨hr, -⟩ | ⟨-, i, q, hq, hmade, hd, hempty, -⟩ := hcases
    · exact absurd rfl hr
    have hiT := Finset.mem_insert_self i T
    have hreadi := readi_eq_of_mem hmade.inv hm' hiT
    have htable := ((hmade.inv.tracked i hiT).dir hd).table
    refine ⟨i, hinv.pathMade hm hm' hp.ok hp.dirs hne hq hmade fun n hn =>
      dirFind_empty hmade.inv hm' hiT hd hempty hn, hreadi ▸ hd, fun j hj hv => ?_⟩
    rw [table_eq hmade.inv hm' hiT hd] at hv ⊢
    by_cases h2 : 2 ≤ j
    · rw [hempty j h2 hj] at hv
      cases hv
    · obtain rfl | rfl : j = 0 ∨ j = 1 := by omega
      · exact .inl htable.parent.1
      · exact .inr htable.self.1
  · obtain ⟨r, fs'', heq, hm', -, hcases⟩ :=
      @rufsCreate_spec fs env T mode p hinv hm hp.ok hp.dirs hp.basename_length
    rw [hcall, Option.some.injEq, Prod.mk.injEq] at heq
    obtain ⟨rfl, rfl⟩ := heq
    obtain ⟨hr, -⟩ | ⟨-, i, q, hq, hmade, hnew, -⟩ := hcases
    · exact absurd rfl hr
    have hiT := Finset.mem_insert_self i T
    refine ⟨i, hinv.pathMade hm hm' hp.ok hp.dirs hne hq hmade fun n hn =>
      dirFind_null hm' (hmade.inv.tracked i hiT).lt (hnew.direct 0 (by decide)) hn,
      readi_eq_of_mem hmade.inv hm' hiT ▸ hnew.type, fun r => ?_⟩
    rw [blockAt_eq hmade.inv hm' hiT, hnew.names]
  · obtain ⟨r, hr, heq, -⟩ | ⟨fs'', i, q, heq, hm', -, hi, hq, hgone, -⟩ :=
      @rufsRmdir_spec fs env T p hinv hm hp.ok hp.dirs hne
    all_goals rw [hcall, Option.some.injEq, Prod.mk.injEq] at heq
    · exact absurd heq.1.symm hr
    · exact heq.2 ▸ hinv.pathGone hm hm' hp.ok hp.dirs hne hi hq hgone
  · obtain ⟨r, hr, heq, -⟩ | ⟨fs'', i, q, heq, hm', -, hi, hq, hgone, -⟩ :=
      @rufsUnlink_spec fs env T p hinv hm hp.ok hp.dirs hne
    all_goals rw [hcall, Option.some.injEq, Prod.mk.injEq] at heq
    · exact absurd heq.1.symm hr
    · exact heq.2 ▸ hinv.pathGone hm hm' hp.ok hp.dirs hne hi hq hgone

/-- A directory is made in another. -/
theorem namespace_refines_mkdir : ∃ fs fs' : Fs, ∃ i, PathMade fs fs' [47, 100, 47, 121] i := by
  obtain ⟨fs, hreached, hfs⟩ := reached_of_any Bytes.zero still [(still, .mkdir [47, 100])]
    (fun fs => decide (Passed fs [47, 100, 47, 121]) &&
      (rufsMkdir still fs [47, 100, 47, 121]).any fun r => r.1 == 0) (by decide +kernel)
  simp only [Bool.and_eq_true, decide_eq_true_eq, Option.any_eq_true, beq_iff_eq] at hfs
  obtain ⟨hp, ⟨r, fs'⟩, hcall, hr⟩ := hfs
  obtain rfl : r = 0 := hr
  obtain ⟨i, hmade, -⟩ := (namespace_refines hreached hp (by decide)).1 still fs' hcall
  exact ⟨fs, fs', i, hmade⟩

/-- The bytes of a table whose first entry names inode 1 as `"x"`. -/
def forgedTable : Bytes := fun k => [1, 0, 1, 0, 120].getD k 0

/-- A path that goes through a regular file: `"/f/x/y"` resolves after `"/d/y"` has been made, when
the file `"/f"` holds a table with an entry for the inode of `"/d"`. -/
theorem namespace_forged : ¬∀ (fs fs' : Fs) (p q : CString), Reached Bytes.zero fs → Passed fs p →
    components p ≠ [] → rufsMkdir still fs p = some (0, fs') → PathOk q →
    components q ≠ components p → pathIno fs' q 0 = pathIno fs q 0 := by
  intro hall
  obtain ⟨fs, hreached, hfs⟩ := reached_of_any Bytes.zero still [(still, .mkdir [47, 100]),
      (still, .create [47, 102] 0), (still, .write [47, 102] forgedTable 5 0)]
    (fun fs => decide (Passed fs [47, 100, 47, 121]) &&
      (pathIno fs [47, 102, 47, 120, 47, 121] 0 == some none) &&
      (rufsMkdir still fs [47, 100, 47, 121]).any fun r =>
        r.1 == 0 && pathIno r.2 [47, 102, 47, 120, 47, 121] 0 == some (some 3)) (by decide +kernel)
  simp only [Bool.and_eq_true, decide_eq_true_eq, Option.any_eq_true, beq_iff_eq] at hfs
  obtain ⟨⟨hp, hbefore⟩, ⟨r, fs'⟩, hcall, hr, hafter⟩ := hfs
  obtain rfl : r = 0 := hr
  have hsame := hall fs fs' [47, 100, 47, 121] [47, 102, 47, 120, 47, 121] hreached hp (by decide)
    hcall (by decide) (by decide)
  rw [hbefore, show pathIno fs' [47, 102, 47, 120, 47, 121] 0 = some (some 3) from hafter] at hsame
  cases hsame

end UserOS.Rufs
