import UserOS.Rufs.FileTree

/-!
# The file system is a tree of files

Every request of the kernel is answered, and the reply and the tree on the disk are those that the
meaning of the request allows. So every run from a new disk is a run of requests to a tree of files.

* `prefixDirs_of_walks`: the conditions of the calls, in terms of the tree.
* `serve_make`, `serve_remove`, `serve_read`, `serve_write`: the calls that change the disk.
* `serve_refines`: one request.
* `runs_refine`: every run.
-/

namespace UserOS.Rufs

open Lib

variable {fs fs' : Fs} {env : Env} {T : Finset ℕ} {x : Inode} {y : Node File} {q : Request}
  {a : Reply} {buffer caller : Bytes} {c i j k mode room size offset : ℕ} {r : ℤ} {n : CString}
  {path : CString} {stbuf : Stat}

/-! ## Paths -/

/-- A path that does not go on from a file goes through directories. -/
theorem prefixDirs_of_walks (h : Inv fs.view T) (hm : fs.Mounted) (hw : Walks fs.tree path) :
    PrefixDirs fs path := by
  rw [prefixDirs_iff]
  intro k
  induction k using Nat.strong_induction_on with
  | _ k ih =>
    intro hk i hi
    rw [Option.mem_toList] at hi
    have hdirs : DirsTo fs ((components path).take k) := by
      intro ds es j hds hes hj
      have hlen := congrArg List.length hds
      rw [List.length_take, List.length_append, Nat.min_eq_left hk.le] at hlen
      have hpos := List.length_pos_iff.2 hes
      refine ih ds.length (by omega) (by omega) j (Option.mem_toList.2 ?_)
      have htake : (components path).take ds.length = ds := by
        rw [← Nat.min_eq_left (show ds.length ≤ k by omega), ← List.take_take, hds,
          List.take_left]
      rwa [htake]
    have hnames : ∀ c ∈ (components path).take k, NameOk c := fun c hc =>
      hw.ok.nameOk (List.mem_of_mem_take hc)
    have hat := (walkPath_eq_some h hm hnames hdirs).1 hi
    rw [readi_eq_of_mem h hm (hat.mem h)]
    by_contra hd
    refine hw.dirs _ (List.take_prefix k _) (fun heq => ?_) _ ((tree_of_at h hm hat).trans
      (congrArg some (node_file hd)))
    have hlen := congrArg List.length heq
    rw [List.length_take] at hlen
    omega

theorem Walks.passed (hw : Walks fs.tree path) (h : Inv fs.view T) (hm : fs.Mounted) :
    Passed fs path := ⟨hw.ok, prefixDirs_of_walks h hm hw, hw.short⟩

/-- A path is not found, or leads to what its inode says. -/
theorem path_tree (h : Inv fs.view T) (hm : fs.Mounted) (hp : Passed fs path) :
    (getNodeByPath fs path 0 = some none ∧ fs.tree (components path) = none) ∨
      ∃ i, At fs.view T (components path) i ∧
        getNodeByPath fs path 0 = some (some (fs.view.slot i)) ∧
        fs.tree (components path) = some (fs.view.node i) := by
  obtain ⟨hnone, hnot⟩ | ⟨i, hat, hnode⟩ := path_cases h hm hp.ok hp.dirs
  · exact .inl ⟨hnone, (tree_eq_none h hm).2 hnot⟩
  · exact .inr ⟨i, hat, hnode, tree_of_at h hm hat⟩

/-- The parent of a path is not found, or is a directory. -/
theorem parent_tree (h : Inv fs.view T) (hm : fs.Mounted) (hp : Passed fs path) :
    (getNodeByPath fs (dirname path) 0 = some none ∧
        fs.tree (components (dirname path)) = none) ∨
      ∃ i, At fs.view T (components (dirname path)) i ∧ IsDir (fs.view.slot i) ∧
        getNodeByPath fs (dirname path) 0 = some (some (fs.view.slot i)) ∧
        fs.tree (components (dirname path)) = some .dir := by
  obtain ⟨hnames, hpre, -⟩ := hp.dirs.parent h hm hp.ok
  obtain hnone | ⟨i, hat, hd, hnode⟩ := parent_cases h hm hp.ok hp.dirs
  · refine .inl ⟨hnone, (tree_eq_none h hm).2 fun i hat => ?_⟩
    rw [getNodeByPath_eq (isAbsolute_dirname hp.ok.absolute),
      (walkPath_eq_some h hm hnames hpre).2 hat] at hnone
    cases hnone
  · exact .inr ⟨i, hat, hd, hnode, by rw [tree_of_at h hm hat, node_dir hd]⟩

/-- A path that leads to no directory is that of a regular file, when it is found. -/
theorem regular_of_tree (h : Inv fs.view T) (hm : fs.Mounted) (hp : Passed fs path)
    (hfile : fs.tree (components path) ≠ some .dir) : Regular fs path := by
  intro x hx
  obtain ⟨hnone, -⟩ | ⟨i, hat, hnode, htree⟩ := path_tree h hm hp
  · rw [hnone] at hx
    cases hx
  · rw [hnode, Option.some.injEq, Option.some.injEq] at hx
    subst hx
    refine ((h.tracked i (hat.mem h)).kind).resolve_right fun hd => hfile ?_
    rw [htree, node_dir hd]

/-! ## Looking -/

theorem serve_getattr (h : Reached Bytes.zero fs) (hw : Walks fs.tree path) :
    ∃ a, (Request.getattr path stbuf).serve env fs = some (a, fs) ∧
      Served fs.tree (.getattr path stbuf) a fs.tree := by
  obtain ⟨hm, T, hinv, ho⟩ := h.orderly
  rw [Request.serve]
  unfold rufsGetattr
  obtain ⟨hnone, htree⟩ | ⟨i, hat, hnode, htree⟩ := path_tree hinv hm (hw.passed hinv hm)
  · rw [hnone]
    exact ⟨_, rfl, .missing htree⟩
  rw [hnode]
  refine ⟨_, rfl, ?_⟩
  have hi := hat.mem hinv
  have hslot := readi_eq_of_mem hinv hm hi
  obtain ⟨hst, hdir⟩ := sizes_true h i (hat.live hinv hm)
  rw [hslot] at hst hdir
  by_cases hd : IsDir (fs.view.slot i)
  · have hstat := (ho.stat i hi).dir hd
    have hok := ((hinv.tracked i hi).dir hd).table
    refine .attrDir (htree.trans (congrArg some (node_dir hd))) (lists_table hinv hm hat hd)
      hstat.mode hstat.nlink (hst.trans ((hdir hd).trans ?_))
    rw [length_listNames hok, table_eq hinv hm hi hd]
  · obtain ⟨mode, hstat⟩ := (ho.stat i hi).file hd
    exact .attrFile (htree.trans (congrArg some (node_file hd))) rfl hstat.nlink hst

/-- `rufs_open` and `rufs_opendir` ask whether the path leads somewhere. -/
theorem rufsOpen_tree (h : Inv fs.view T) (hm : fs.Mounted) (hp : Passed fs path) :
    rufsOpen fs path = some (-enoent) ∧ fs.tree (components path) = none ∨
      rufsOpen fs path = some 0 ∧ fs.tree (components path) ≠ none := by
  unfold rufsOpen
  obtain ⟨hnone, htree⟩ | ⟨i, -, hnode, htree⟩ := path_tree h hm hp
  · rw [hnone]
    exact .inl ⟨rfl, htree⟩
  · rw [hnode]
    exact .inr ⟨rfl, htree ▸ Option.some_ne_none _⟩

theorem rufsOpendir_eq : rufsOpendir fs path = rufsOpen fs path := rfl

theorem serve_readdir (h : Reached Bytes.zero fs) (hw : Walks fs.tree path)
    (hdir : ∀ f, fs.tree (components path) ≠ some (.file f)) :
    ∃ a, (Request.readdir path room).serve env fs = some (a, fs) ∧
      Served fs.tree (.readdir path room) a fs.tree := by
  obtain ⟨hm, T, hinv, ho⟩ := h.orderly
  rw [Request.serve]
  unfold rufsReaddir
  obtain ⟨hnone, htree⟩ | ⟨i, hat, hnode, htree⟩ := path_tree hinv hm (hw.passed hinv hm)
  · rw [hnone]
    exact ⟨_, rfl, .missing htree⟩
  rw [hnode]
  refine ⟨_, rfl, ?_⟩
  have hi := hat.mem hinv
  have hd : IsDir (fs.view.slot i) := by
    by_contra hd
    exact hdir _ (htree.trans (congrArg some (node_file hd)))
  have hok := ((hinv.tracked i hi).dir hd).table
  obtain ⟨p, hlinked⟩ := ho.linked i hi hd
  dsimp only
  rw [bioRead_table hinv hi hd, maxDirEntries_eq,
    fillLoop_takeName hok.toEntries hlinked.flags le_rfl (Nat.zero_le room), List.length_nil,
    Nat.zero_add, List.nil_append, listNames_table hok]
  exact .readdir (htree.trans (congrArg some (node_dir hd))) (lists_table hinv hm hat hd)

/-! ## Making -/

theorem dirAdd_result : (dirAdd env fs x c n).1 = 0 ∨ (dirAdd env fs x c n).1 = -enospc ∨
    (dirAdd env fs x c n).1 = -eexist ∧ dirFind fs (get x .ino) n ≠ none := by
  unfold dirAdd
  dsimp only
  split
  next hfind => exact .inr (.inr ⟨rfl, Option.isSome_iff_ne_none.1 hfind⟩)
  next =>
    split
    · exact .inl rfl
    · exact .inr (.inl rfl)

/-- A directory whose inode and block are as before. -/
theorem dirFind_kept (h : Inv fs.view T) (hm : fs.Mounted) (h' : Inv fs'.view T)
    (hm' : fs'.Mounted) (hslot : fs'.view.slot = fs.view.slot) (hblk : fs'.view.blk = fs.view.blk)
    (hi : i ∈ T) (hd : IsDir (fs.view.slot i)) : dirFind fs' i n = dirFind fs i n := by
  have htable : fs'.view.table i = fs.view.table i := by
    unfold View.table View.block
    rw [hslot, hblk]
  rw [dirFind_eq h' hm' hi (hslot.symm ▸ hd), dirFind_eq h hm hi hd, htable]

/-- A new name is refused: the name is there, or something has run out. -/
def Refuses (fs : Fs) (i : ℕ) (n : CString) (r : ℤ) : Prop :=
  r = 0 ∨ r = -enospc ∨ r = -eexist ∧ dirFind fs i n ≠ none

/-- What `dir_add` says, after an inode and a block may have been taken. -/
theorem Refuses.of_dirAdd (h : Inv fs.view T) (hm : fs.Mounted) (h' : Inv fs'.view T)
    (hm' : fs'.Mounted) (hslot : fs'.view.slot = fs.view.slot) (hblk : fs'.view.blk = fs.view.blk)
    (hi : i ∈ T) (hd : IsDir (fs.view.slot i)) :
    Refuses fs i n (dirAdd env fs' (fs.view.slot i) c n).1 := by
  have hresult := @dirAdd_result fs' env (fs.view.slot i) c n
  rwa [(h.tracked i hi).ino, dirFind_kept h hm h' hm' hslot hblk hi hd] at hresult

theorem rufsCreate_result (h : Inv fs.view T) (hm : fs.Mounted) (hi : i ∈ T)
    (hd : IsDir (fs.view.slot i))
    (hpar : getNodeByPath fs (dirname path) 0 = some (some (fs.view.slot i)))
    (hcall : rufsCreate env fs path mode = some (r, fs')) : Refuses fs i (basename path) r := by
  unfold rufsCreate at hcall
  rw [hpar, Option.map_some, Option.some.injEq] at hcall
  dsimp only at hcall
  obtain ⟨j, hj, fs₁, -, hget, hm₁, hview₁⟩ | ⟨hget, -⟩ := getAvailIno_cases hm <;>
    rw [hget] at hcall <;> dsimp only at hcall
  swap
  · rw [if_pos (by decide)] at hcall
    exact .inr (.inl (congrArg Prod.fst hcall).symm)
  split at hcall
  · exact .inr (.inl (congrArg Prod.fst hcall).symm)
  split at hcall <;> obtain ⟨rfl, -⟩ := Prod.mk.inj hcall
  · exact .of_dirAdd h hm (hview₁ ▸ h.takeInode j) hm₁ (by rw [hview₁]; rfl) (by rw [hview₁]; rfl)
      hi hd
  · exact .inl rfl

theorem rufsMkdir_result (h : Inv fs.view T) (hm : fs.Mounted) (hi : i ∈ T)
    (hd : IsDir (fs.view.slot i))
    (hpar : getNodeByPath fs (dirname path) 0 = some (some (fs.view.slot i)))
    (hcall : rufsMkdir env fs path = some (r, fs')) : Refuses fs i (basename path) r := by
  unfold rufsMkdir at hcall
  rw [hpar, Option.map_some, Option.some.injEq] at hcall
  dsimp only at hcall
  obtain ⟨j, hj, fs₁, -, hget, hm₁, hview₁⟩ | ⟨hget, -⟩ := getAvailIno_cases hm <;>
    rw [hget] at hcall <;> dsimp only at hcall
  swap
  · rw [if_pos (by decide)] at hcall
    exact .inr (.inl (congrArg Prod.fst hcall).symm)
  split at hcall
  · exact .inr (.inl (congrArg Prod.fst hcall).symm)
  obtain ⟨k, hk, fs₂, -, hget₂, hm₂, hview₂⟩ | ⟨hget₂, -⟩ := getAvailBlkno_cases hm₁ <;>
    rw [hget₂] at hcall <;> dsimp only at hcall
  swap
  · rw [if_pos (by decide)] at hcall
    exact .inr (.inl (congrArg Prod.fst hcall).symm)
  split at hcall
  · exact .inr (.inl (congrArg Prod.fst hcall).symm)
  have h₂ : Inv fs₂.view T := by
    rw [hview₂, hview₁]
    exact (h.takeInode j).takeBlock k
  split at hcall <;> obtain ⟨rfl, -⟩ := Prod.mk.inj hcall
  · exact .of_dirAdd h hm h₂ hm₂ (by rw [hview₂, hview₁]; rfl) (by rw [hview₂, hview₁]; rfl) hi hd
  · exact .inl rfl

/-- A name that is refused changes nothing. -/
theorem Refuses.served (hr : Refuses fs i (basename path) r) (h0 : r ≠ 0) (h : Inv fs.view T)
    (hm : fs.Mounted) (hp : Passed fs path) (hne : components path ≠ [])
    (hat : At fs.view T (components (dirname path)) i) (hd : IsDir (fs.view.slot i))
    (hmakes : q.makes ≠ none) (hpath : q.path = path) (hneeds : q.needs = dirname path)
    (htree : fs'.tree = fs.tree) : Served fs.tree q ⟨r, .nothing⟩ fs'.tree := by
  have hsplit := components_eq_snoc hp.ok.absolute hne
  rw [htree]
  obtain hr | rfl | ⟨rfl, hfind⟩ := hr
  · exact absurd hr h0
  · refine .noSpace hmakes ?_
    rw [hneeds, tree_of_at h hm hat, node_dir hd]
  · have hname : NameOk (basename path) :=
      hp.ok.nameOk (hsplit ▸ List.mem_append_right _ List.mem_cons_self)
    obtain ⟨c, hc⟩ := Option.ne_none_iff_exists'.1 hfind
    obtain ⟨k, hk, hk'⟩ := (dirFind_eq_some h hm (hat.mem h) hd hname).1 hc
    refine .taken hmakes ?_
    rw [hpath, hsplit, tree_of_at h hm (hat.link (links_eq_some.2 ⟨hk, hk'⟩))]
    exact Option.some_ne_none _

/-- A name that is made changes the tree at its path. -/
theorem Made.served {s : ℕ} (hmade : Made fs.view fs'.view T j i (basename path))
    (h : Inv fs.view T) (hm : fs.Mounted) (hm' : fs'.Mounted) (hp : Passed fs path)
    (hne : components path ≠ []) (hat : At fs.view T (components (dirname path)) i)
    (hd : IsDir (fs.view.slot i)) (hres : Resizes fs.view fs'.view T i s)
    (hquiet : Quiet fs.view fs'.view T i)
    (hnone : ∀ k, fs'.view.children (insert j T) (j, k) = none)
    (hmakes : q.makes = some (fs'.view.node j)) (hpath : q.path = path)
    (hneeds : q.needs = dirname path) : Served fs.tree q ⟨0, .nothing⟩ fs'.tree := by
  obtain ⟨hfree, htree⟩ := tree_made h hm hm' hat hd hmade hres hquiet hnone
  rw [← components_eq_snoc hp.ok.absolute hne, ← hpath] at hfree htree
  rw [htree]
  refine .made hmakes ?_ hfree
  rw [hneeds, tree_of_at h hm hat, node_dir hd]

theorem serve_mkdir (h : Reached Bytes.zero fs) (hw : Walks fs.tree path)
    (hne : components path ≠ []) :
    ∃ a fs', (Request.mkdir path).serve env fs = some (a, fs') ∧ Reached Bytes.zero fs' ∧
      Served fs.tree (.mkdir path) a fs'.tree := by
  obtain ⟨hm, -, T, hinv⟩ := h.spec
  have hp := hw.passed hinv hm
  obtain ⟨r, fs', heq, hm', -, hcases⟩ :=
    @rufsMkdir_spec fs env T path hinv hm hp.ok hp.dirs hp.basename_length
  refine ⟨⟨r, .nothing⟩, fs', by rw [Request.serve, heq]; rfl,
    h.call (show (Op.mkdir path).Allowed fs from hp) heq, ?_⟩
  obtain ⟨hnone, htree⟩ | ⟨i, hat, hd, hpar, -⟩ := parent_tree hinv hm hp
  · unfold rufsMkdir at heq
    rw [hnone] at heq
    obtain ⟨rfl, rfl⟩ := Prod.mk.inj (Option.some.inj heq)
    exact .missing htree
  rcases hcases with ⟨hr, hinv', hslot, hblk⟩ |
    ⟨rfl, j, i', hat', hmade, hdj, hempty, -, -, hres, hquiet, -⟩
  · exact (rufsMkdir_result hinv hm (hat.mem hinv) hd hpar heq).served hr hinv hm hp hne hat hd
      nofun rfl rfl (tree_kept hinv hm hinv' hm' hslot hblk)
  · obtain rfl := hat.inode hinv hat'
    refine hmade.served hinv hm hm' hp hne hat hd hres hquiet (fun k => if_neg fun hh => ?_)
      (congrArg some (node_dir hdj).symm) rfl rfl
    exact absurd ((hempty k hh.2.2.1 hh.2.2.2.1).symm.trans hh.2.2.2.2) Bool.false_ne_true

theorem serve_create (h : Reached Bytes.zero fs) (hw : Walks fs.tree path)
    (hne : components path ≠ []) :
    ∃ a fs', (Request.create path mode).serve env fs = some (a, fs') ∧ Reached Bytes.zero fs' ∧
      Served fs.tree (.create path mode) a fs'.tree := by
  obtain ⟨hm, -, T, hinv⟩ := h.spec
  have hp := hw.passed hinv hm
  obtain ⟨r, fs', heq, hm', -, hcases⟩ :=
    @rufsCreate_spec fs env T mode path hinv hm hp.ok hp.dirs hp.basename_length
  refine ⟨⟨r, .nothing⟩, fs', by rw [Request.serve, heq]; rfl,
    h.call (show (Op.create path mode).Allowed fs from hp) heq, ?_⟩
  obtain ⟨hnone, htree⟩ | ⟨i, hat, hd, hpar, -⟩ := parent_tree hinv hm hp
  · unfold rufsCreate at heq
    rw [hnone] at heq
    obtain ⟨rfl, rfl⟩ := Prod.mk.inj (Option.some.inj heq)
    exact .missing htree
  rcases hcases with ⟨hr, hinv', hslot, hblk⟩ |
    ⟨rfl, j, i', hat', hmade, hfile, hsize, -, hres, hquiet, hstat⟩
  · exact (rufsCreate_result hinv hm (hat.mem hinv) hd hpar heq).served hr hinv hm hp hne hat hd
      nofun rfl rfl (tree_kept hinv hm hinv' hm' hslot hblk)
  · obtain rfl := hat.inode hinv hat'
    have hbyte : fs'.view.fileByte (fs'.view.slot j) = fun _ => none := funext fun o => by
      rw [View.fileByte, hfile.names, Option.map_none]
    refine hmade.served hinv hm hm' hp hne hat hd hres hquiet
      (fun k => children_not_dir hfile.not_isDir) ?_ rfl rfl
    rw [node_file hfile.not_isDir, hstat.mode, hsize.size, hbyte]
    rfl

/-! ## Removing -/

/-- A name that is removed changes the tree at its path. -/
theorem Gone.served {s : ℕ} (hgone : Gone fs.view fs'.view T j i (basename path))
    (h : Inv fs.view T) (hm : fs.Mounted) (hm' : fs'.Mounted) (hp : Passed fs path)
    (hne : components path ≠ []) (hat : At fs.view T (components path) j)
    (hati : At fs.view T (components (dirname path)) i)
    (hres : Resizes fs.view fs'.view (T.erase j) i s)
    (hquiet : Quiet fs.view fs'.view (T.erase j) i) (hremoves : q.Removes)
    (hpath : q.path = path) : Served fs.tree q ⟨0, .nothing⟩ fs'.tree := by
  have htree := tree_gone h hm hm' hati hgone hres hquiet
  rw [← components_eq_snoc hp.ok.absolute hne, ← hpath] at htree
  rw [htree]
  refine .removed hremoves ?_
  rw [hpath, tree_of_at h hm hat]
  exact Option.some_ne_none _

theorem serve_rmdir (h : Reached Bytes.zero fs) (hw : Walks fs.tree path)
    (hne : components path ≠ []) :
    ∃ a fs', (Request.rmdir path).serve env fs = some (a, fs') ∧ Reached Bytes.zero fs' ∧
      Served fs.tree (.rmdir path) a fs'.tree := by
  obtain ⟨hm, -, T, hinv⟩ := h.spec
  have hp := hw.passed hinv hm
  obtain ⟨r, hr, heq, hnot⟩ | ⟨fs', j, i, heq, hm', -, hat, hati, hgone, hres, hquiet⟩ :=
    @rufsRmdir_spec fs env T path hinv hm hp.ok hp.dirs hne
  · obtain ⟨hnone, htree⟩ | ⟨j, hat, -⟩ := path_tree hinv hm hp
    · refine ⟨⟨-enoent, .nothing⟩, fs, ?_, h, .missing htree⟩
      rw [Request.serve]
      unfold rufsRmdir
      rw [hnone]
      rfl
    · exact absurd hat (hnot j)
  · exact ⟨⟨0, .nothing⟩, fs', by rw [Request.serve, heq]; rfl,
      h.call (show (Op.rmdir path).Allowed fs from ⟨hp, hne⟩) heq,
      hgone.served hinv hm hm' hp hne hat hati hres hquiet trivial rfl⟩

theorem serve_unlink (h : Reached Bytes.zero fs) (hw : Walks fs.tree path)
    (hne : components path ≠ []) :
    ∃ a fs', (Request.unlink path).serve env fs = some (a, fs') ∧ Reached Bytes.zero fs' ∧
      Served fs.tree (.unlink path) a fs'.tree := by
  obtain ⟨hm, -, T, hinv⟩ := h.spec
  have hp := hw.passed hinv hm
  obtain ⟨r, hr, heq, hnot⟩ | ⟨fs', j, i, heq, hm', -, hat, hati, hgone, hres, hquiet, -⟩ :=
    @rufsUnlink_spec fs env T path hinv hm hp.ok hp.dirs hne
  · obtain ⟨hnone, htree⟩ | ⟨j, hat, -⟩ := path_tree hinv hm hp
    · refine ⟨⟨-enoent, .nothing⟩, fs, ?_, h, .missing htree⟩
      rw [Request.serve]
      unfold rufsUnlink
      rw [hnone]
      rfl
    · exact absurd hat (hnot j)
  · exact ⟨⟨0, .nothing⟩, fs', by rw [Request.serve, heq]; rfl,
      h.call (show (Op.unlink path).Allowed fs from ⟨hp, hne⟩) heq,
      hgone.served hinv hm hm' hp hne hat hati hres hquiet trivial rfl⟩

/-! ## Reading and writing -/

/-- A path that leads to a file leads to its inode. -/
theorem pathIno_of_at (h : Inv fs.view T) (hm : fs.Mounted) (hp : Passed fs path)
    (hat : At fs.view T (components path) i) : pathIno fs path 0 = some (some i) := by
  rw [pathIno_eq hp.ok.absolute,
    (walkPath_eq_some h hm (fun c => hp.ok.nameOk) hp.dirs.dirsTo).2 hat]

theorem serve_read (h : Reached Bytes.zero fs) (hw : Walks fs.tree path)
    (hdir : fs.tree (components path) ≠ some .dir) (hcap : offset + size ≤ fileCapacity)
    (hchunk : offset % blockSize + size ≤ blockSize) :
    ∃ a fs', (Request.read path caller size offset).serve env fs = some (a, fs') ∧
      Reached Bytes.zero fs' ∧ Served fs.tree (.read path caller size offset) a fs'.tree := by
  obtain ⟨hm, T, hinv, hs⟩ := h.sized
  have hp := hw.passed hinv hm
  have hfile := regular_of_tree hinv hm hp hdir
  obtain ⟨r, buf, fs', heq, hm', -, hinv', hblk, hnode⟩ :=
    @rufsRead_spec fs env T caller size offset path hinv hm hp.ok hp.dirs
  refine ⟨⟨r, .bytes buf⟩, fs', by rw [Request.serve, heq]; rfl,
    h.call (show (Op.read path caller size offset).Allowed fs from ⟨hp, hfile, hcap⟩)
      (by rw [Op.call, heq]; rfl), ?_⟩
  have htree : fs'.tree = fs.tree := by
    refine tree_same hinv hm hinv' hm' (links_touch (fun j => (hnode j).1.toSameNode) hblk)
      fun j hj => (hnode j).1.node ?_ hblk
    obtain ⟨s, hsize, -⟩ := hs j hj
    exact ((hnode j).2 s hsize).size.trans hsize.size.symm
  rw [htree]
  obtain ⟨hnone, hmissing⟩ | ⟨i, hat, hfound, hsome⟩ := path_tree hinv hm hp
  · unfold rufsRead at heq
    rw [hnone, Option.bind_some] at heq
    obtain ⟨rfl, hbuf⟩ := Prod.mk.inj (Option.some.inj heq)
    obtain ⟨rfl, -⟩ := Prod.mk.inj hbuf
    exact .missing hmissing
  have hd : ¬IsDir (fs.view.slot i) := fun hd => hdir (hsome.trans (congrArg some (node_dir hd)))
  rw [node_file hd] at hsome
  have hbyte : ∀ o, fs.fileByte i o = fs.view.fileByte (fs.view.slot i) o := fun o =>
    fileByte_eq hinv hm (hat.mem hinv)
  have hread := rufsRead_page (pathIno_of_at hinv hm hp hat) hcap hchunk heq
  simp only [hbyte, readi_eq_of_mem hinv hm (hat.mem hinv)] at hread
  obtain ⟨hle, hhas, rfl, hbytes, hrest⟩ | ⟨hnot, rfl, rfl⟩ := hread
  · exact .read hsome ⟨hle, hhas⟩ hbytes hrest
  · exact .readNothing hsome hnot

theorem serve_write (h : Reached Bytes.zero fs) (hw : Walks fs.tree path)
    (hdir : fs.tree (components path) ≠ some .dir) (hcap : offset + size ≤ fileCapacity)
    (hchunk : offset % blockSize + size ≤ blockSize) :
    ∃ a fs', (Request.write path buffer size offset).serve env fs = some (a, fs') ∧
      Reached Bytes.zero fs' ∧ Served fs.tree (.write path buffer size offset) a fs'.tree := by
  obtain ⟨hm, -, T, hinv⟩ := h.spec
  have hp := hw.passed hinv hm
  have hfile := regular_of_tree hinv hm hp hdir
  obtain ⟨r, fs', heq, hm', -, hcases⟩ :=
    @rufsWrite_spec fs env T buffer size offset path hinv hm hp.ok hp.dirs hfile hcap
  refine ⟨⟨r, .nothing⟩, fs', by rw [Request.serve, heq]; rfl,
    h.call (show (Op.write path buffer size offset).Allowed fs from ⟨hp, hfile, hcap⟩) heq, ?_⟩
  obtain ⟨hnone, hmissing⟩ | ⟨i, hat, hfound, hsome⟩ := path_tree hinv hm hp
  · unfold rufsWrite at heq
    rw [hnone, Option.bind_some] at heq
    obtain ⟨rfl, rfl⟩ := Prod.mk.inj (Option.some.inj heq)
    exact .missing hmissing
  have hd : ¬IsDir (fs.view.slot i) := fun hd => hdir (hsome.trans (congrArg some (node_dir hd)))
  rw [node_file hd] at hsome
  by_cases hsize : offset ≤ get (fs.view.slot i) .size
  swap
  · unfold rufsWrite at heq
    rw [hfound, Option.bind_some] at heq
    dsimp only at heq
    rw [if_pos (by omega)] at heq
    obtain ⟨rfl, rfl⟩ := Prod.mk.inj (Option.some.inj heq)
    exact .writtenPast hsome (Nat.lt_of_not_le hsize)
  have hfileAt := FileAt.of_passed hm hinv hp hfile (pathIno_of_at hinv hm hp hat)
  -- The mode does not change, and the file stays a file.
  obtain ⟨hd', hmode⟩ : ¬IsDir (fs'.view.slot i) ∧
      get (fs'.view.slot i) .stMode = get (fs.view.slot i) .stMode := by
    rcases hcases with rfl | ⟨i', hat', -, htype, hstat, -⟩
    · exact ⟨hd, rfl⟩
    · obtain rfl := hat.inode hinv hat'
      refine ⟨fun hd' => ?_, hstat.mode⟩
      rw [IsDir, htype] at hd'
      cases hd'
  have htree : ∀ {s f}, Rewritten fs fs' T i s f → fs'.tree = fs.tree.set (components path)
      (.file ⟨get (fs.view.slot i) .stMode, s, f⟩) := fun {s f} hrw => by
    rw [tree_wrote hinv hm hm' hat hd hd' hrw.wrote, node_file hd', hmode, hrw.size, hrw.byte]
  obtain ⟨fs'', heq', hn, hmissing, hrw⟩ | ⟨fs'', heq', hrw⟩ :=
    @rufsWrite_page fs env T buffer i size offset path hfileAt h.freeZero hsize hcap hchunk
  all_goals
    obtain ⟨rfl, rfl⟩ := Prod.mk.inj (Option.some.inj (heq.symm.trans heq'))
    rw [htree hrw]
  · rw [FileTree.set_eq_self hsome, outOfBlocks, Nat.sub_self,
      show toReturn 0 = 0 from rfl, ← blockSize_eq]
    exact .noBlock hsome hn hmissing
  · exact .written hsome hsize

/-! ## Runs -/

/-- **One request** of the kernel is answered as its meaning allows. -/
theorem serve_spec (h : Reached Bytes.zero fs) (hq : q.Allowed fs.tree) :
    ∃ a fs', q.serve env fs = some (a, fs') ∧ Reached Bytes.zero fs' ∧
      Served fs.tree q a fs'.tree := by
  obtain ⟨hw, hq⟩ := hq
  obtain ⟨hm, -, T, hinv⟩ := h.spec
  cases q with
  | getattr path stbuf =>
    obtain ⟨a, heq, hs⟩ := @serve_getattr fs env path stbuf h hw
    exact ⟨a, fs, heq, h, hs⟩
  | opendir path =>
    have hp : Passed fs path := hw.passed hinv hm
    rw [Request.serve, rufsOpendir_eq]
    obtain ⟨heq, htree⟩ | ⟨heq, htree⟩ := rufsOpen_tree hinv hm hp <;> rw [heq]
    · exact ⟨_, fs, rfl, h, .missing htree⟩
    · exact ⟨_, fs, rfl, h, .opendir htree⟩
  | openFile path =>
    have hp : Passed fs path := hw.passed hinv hm
    rw [Request.serve]
    obtain ⟨heq, htree⟩ | ⟨heq, htree⟩ := rufsOpen_tree hinv hm hp <;> rw [heq]
    · exact ⟨_, fs, rfl, h, .missing htree⟩
    · exact ⟨_, fs, rfl, h, .openFile htree⟩
  | readdir path room =>
    obtain ⟨a, heq, hs⟩ := @serve_readdir fs env room path h hw hq
    exact ⟨a, fs, heq, h, hs⟩
  | mkdir path => exact serve_mkdir h hw hq
  | create path mode => exact serve_create h hw hq
  | rmdir path => exact serve_rmdir h hw hq
  | unlink path => exact serve_unlink h hw hq
  | read path buffer size offset => exact serve_read h hw hq.1 hq.2.1 hq.2.2
  | write path buffer size offset => exact serve_write h hw hq.1 hq.2.1 hq.2.2

/-- The file system answers a request of the kernel. -/
def Serving (fs : Fs) (e : Env × Request × Reply) (fs' : Fs) : Prop :=
  e.2.1.Allowed fs.tree ∧ e.2.1.serve e.1 fs = some (e.2.2, fs')

/-- A tree of files answers a request of the kernel. -/
def Meaning (t : FileTree CString File) (e : Request × Reply) (t' : FileTree CString File) :
    Prop := e.1.Allowed t ∧ Served t e.1 e.2 t'

theorem Serving.refines {e : Env × Request × Reply} (h : Reached Bytes.zero fs)
    (hs : Serving fs e fs') : Reached Bytes.zero fs' ∧ Meaning fs.tree e.2 fs'.tree := by
  obtain ⟨hq, heq⟩ := hs
  obtain ⟨a, fs'', heq', hreached, hserved⟩ := @serve_spec fs e.1 e.2.1 h hq
  rw [heq, Option.some.injEq, Prod.mk.injEq] at heq'
  obtain ⟨rfl, rfl⟩ := heq'
  exact ⟨hreached, hq, hserved⟩

/-- A new file system is the root alone. -/
theorem mkfs_tree {disk : Disk} : (rufsMkfs env disk).2.tree = .root := by
  obtain ⟨fs, heq, hm, -, hinv, -, hempty, -⟩ := @rufsMkfs_spec env disk
  rw [heq]
  have hat : ∀ {cs i}, At fs.view {0} cs i → cs = [] := At.rec_link (P := fun cs _ => cs = []) rfl
    fun cs i k n c hat hcs hl => by
      obtain ⟨⟨hi, -, h2, h19, hv⟩, -⟩ := children_eq_some.1 (links_eq_some.1 hl).1
      obtain rfl := Finset.mem_singleton.1 hi
      exact absurd ((hempty k h2 h19).symm.trans hv) Bool.false_ne_true
  funext cs
  cases cs with
  | nil => exact (tree_of_at hinv hm .root).trans (congrArg some (node_dir hinv.root.2))
  | cons n cs => exact (tree_eq_none hinv hm).2 fun i hi => absurd (hat hi) (List.cons_ne_nil n cs)

/-- What is there lies in a directory, after every request. -/
theorem Meaning.wellFormed {t t' : FileTree CString File} {e : Request × Reply}
    (h : t.WellFormed) (hs : Meaning t e t') : t'.WellFormed := by
  obtain ⟨q, a⟩ := e
  obtain ⟨⟨hw, hq⟩, hs⟩ := hs
  have hsplit : components q.path ≠ [] → components q.path =
      components (dirname q.path) ++ [basename q.path] := components_eq_snoc hw.ok.absolute
  dsimp only at hs
  cases hs with
  | made hmakes hdir hnone =>
    cases q with
    | mkdir path | create path mode =>
      dsimp only [Request.path] at hnone hsplit ⊢
      rw [hsplit hq] at hnone ⊢
      exact h.set_new hdir hnone
    | _ => cases hmakes
  | removed hremoves _ =>
    cases q with
    | rmdir path | unlink path => exact h.prune hq
    | _ => exact hremoves.elim
  | written hfile _ => exact h.set_file hfile
  | _ => exact h

theorem Serving.run {es : List (Env × Request × Reply)} (h : Reached Bytes.zero fs)
    (hrun : Run Serving fs es fs') :
    Reached Bytes.zero fs' ∧ Run Meaning fs.tree (es.map Prod.snd) fs'.tree := by
  refine Run.history (I := fun es t => Reached Bytes.zero t ∧
    Run Meaning fs.tree (es.map Prod.snd) t.tree) ⟨h, .nil⟩ ?_ hrun
  intro es t e u ⟨ht, hrun⟩ hs
  obtain ⟨hu, hmeaning⟩ := hs.refines ht
  rw [List.map_append]
  exact ⟨hu, hrun.snoc hmeaning⟩

theorem Meaning.run_wellFormed {es : List (Request × Reply)} {t : FileTree CString File}
    (hrun : Run Meaning .root es t) : t.WellFormed :=
  hrun.invariant .root_tree fun _ _ _ ht hs => hs.wellFormed ht

/-- A run from a new file system. -/
theorem Serving.run_mkfs {es : List (Env × Request × Reply)}
    (hrun : Run Serving (rufsMkfs env Bytes.zero).2 es fs) :
    Reached Bytes.zero fs ∧ Run Meaning .root (es.map Prod.snd) fs.tree := by
  have hstart : Reached Bytes.zero (rufsMkfs env Bytes.zero).2 := ⟨env, [], .nil⟩
  obtain ⟨hreached, hmeaning⟩ := Serving.run hstart hrun
  rw [mkfs_tree] at hmeaning
  exact ⟨hreached, hmeaning⟩

/-- **The file system is a tree of files.** Every run of requests to a new file system is a run of
the same requests to a tree of files, with the same replies; the tree is the one on the disk, and
every further request of the kernel is answered. -/
theorem runs_refine {es : List (Env × Request × Reply)}
    (hrun : Run Serving (rufsMkfs env Bytes.zero).2 es fs) :
    Run Meaning .root (es.map Prod.snd) fs.tree ∧ fs.tree.WellFormed ∧
      ∀ env q, q.Allowed fs.tree → ∃ a fs', Serving fs (env, q, a) fs' := by
  obtain ⟨hreached, hmeaning⟩ := Serving.run_mkfs hrun
  refine ⟨hmeaning, Meaning.run_wellFormed hmeaning, fun env q hq => ?_⟩
  obtain ⟨a, fs', heq, -⟩ := @serve_spec fs env q hreached hq
  exact ⟨a, fs', hq, heq⟩

/-- The reply to a request, and the state after it, when it is one of the kernel. -/
def answer (fs : Fs) (env : Env) (q : Request) : Option (Reply × Fs) :=
  if q.Allowed fs.tree then q.serve env fs else none

/-- The replies to some requests, and the state after them. -/
def answers (fs : Fs) : List (Env × Request) → Option (List (Env × Request × Reply) × Fs)
  | [] => some ([], fs)
  | (env, q) :: qs => (answer fs env q).bind fun r =>
    (answers r.2 qs).map fun s => ((env, q, r.1) :: s.1, s.2)

theorem serving_of_answer {a : Reply} (h : answer fs env q = some (a, fs')) :
    Serving fs (env, q, a) fs' := by
  unfold answer at h
  split at h
  next hq => exact ⟨hq, h⟩
  next => cases h

theorem run_of_answers {qs : List (Env × Request)} {es : List (Env × Request × Reply)}
    (h : answers fs qs = some (es, fs')) : Run Serving fs es fs' := by
  induction qs generalizing fs es with
  | nil =>
    cases h
    exact .nil
  | cons p qs ih =>
    obtain ⟨env, q⟩ := p
    obtain ⟨⟨a, fs''⟩, hanswer, h⟩ := Option.bind_eq_some_iff.1 h
    obtain ⟨⟨es', t⟩, hanswers, h⟩ := Option.map_eq_some_iff.1 h
    cases h
    exact (Run.single (serving_of_answer hanswer)).append (ih hanswers)

/-- A property of what a computed reply gives. -/
theorem serving_of_any {p : Reply × Fs → Bool} (h : (answer fs env q).any p = true) :
    ∃ a fs', Serving fs (env, q, a) fs' ∧ p (a, fs') = true := by
  obtain ⟨⟨a, fs'⟩, hanswer, hp⟩ := (Option.any_eq_true _ _).1 h
  exact ⟨a, fs', serving_of_answer hanswer, hp⟩

/-- A property of what a computed run gives. -/
theorem run_of_any {qs : List (Env × Request)} {p : List (Env × Request × Reply) × Fs → Bool}
    (h : (answers fs qs).any p = true) : ∃ es fs', Run Serving fs es fs' ∧ p (es, fs') = true := by
  obtain ⟨⟨es, fs'⟩, hanswers, hp⟩ := (Option.any_eq_true _ _).1 h
  exact ⟨es, fs', run_of_answers hanswers, hp⟩

/-- A directory with a file is made and removed. -/
theorem runs_refine_removed : ∃ (es : List (Env × Request × Reply)) (fs : Fs), es.length = 4 ∧
    Run Meaning .root (es.map Prod.snd) fs.tree := by
  have hvalue : (answers (rufsMkfs still Bytes.zero).2
      [(still, .mkdir [47, 100]), (still, .create [47, 100, 47, 102] 0),
        (still, .write [47, 100, 47, 102] (fun _ => 7) 3 0), (still, .rmdir [47, 100])]).any
      (fun s => decide (s.1.length = 4)) = true := by decide +kernel
  obtain ⟨es, fs, hrun, hlen⟩ := run_of_any hvalue
  exact ⟨es, fs, of_decide_eq_true hlen, (runs_refine hrun).1⟩

end UserOS.Rufs
