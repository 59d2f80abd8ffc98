import UserOS.Rufs.Files
import UserOS.Rufs.Places
import UserOS.Rufs.SizeFields

/-!
# Directories that know their parents

Every directory names itself in its second entry and its parent in its first, as long as it has a
parent, and every inode records a mode and a number of links that fit its type.

* `Orderly`: the invariant.
* `Orderly.made`, `Orderly.gone`, `Orderly.wrote`: the operations.
* `dots_resolve`: what `"."` and `".."` lead to, after every run.
-/

namespace UserOS.Rufs

open Lib

variable {disk : Disk} {v v' : View} {fs fs' : Fs} {env : Env} {T S : Finset ℕ} {x x' : Inode}
  {op : Op} {i j k m q s : ℕ} {r : ℤ} {n : CString} {p path : CString}

/-! ## The invariant -/

/-- Inode `i` records what it was made with. -/
structure StatAt (v : View) (i : ℕ) : Prop where
  dir : IsDir (v.slot i) → StatIs (v.slot i) (sIfdir ||| 0o755) 2
  file : ¬IsDir (v.slot i) → ∃ mode, StatIs (v.slot i) ((sIfreg ||| mode) % 2 ^ 32) 1

/-- The inodes `T` record what they were made with, and directories name themselves and their
parents. -/
structure Orderly (v : View) (T : Finset ℕ) : Prop where
  stat : ∀ i ∈ T, StatAt v i
  linked : ∀ i ∈ T, IsDir (v.slot i) → ∃ q, Linked (v.table i) i q
  parent : ∀ i k n c, v.links T (i, k) = some (n, c) → IsDir (v.slot c) → inoAt (v.table c) 0 = i
  root : inoAt (v.table 0) 0 = 0

theorem StatIs.congr {mode nlink : ℕ} (h : StatIs x mode nlink) (hs : SameStat x x') :
    StatIs x' mode nlink := ⟨hs.mode.trans h.mode, hs.nlink.trans h.nlink⟩

theorem StatAt.congr (h : StatAt v i) (hdir : IsDir (v'.slot i) ↔ IsDir (v.slot i))
    (hs : SameStat (v.slot i) (v'.slot i)) : StatAt v' i where
  dir hd := (h.dir (hdir.1 hd)).congr hs
  file hd := by
    obtain ⟨mode, hmode⟩ := h.file (mt hdir.2 hd)
    exact ⟨mode, hmode.congr hs⟩

/-- A directory whose table names the inode and its parent. -/
theorem Orderly.linked_parent (h : Orderly v T) (hi : i ∈ T) (hd : IsDir (v.slot i)) :
    Linked (v.table i) i (inoAt (v.table i) 0) := by
  obtain ⟨q, hq⟩ := h.linked i hi hd
  exact ⟨hq.flags, rfl, hq.self⟩

/-- What the inodes in `S` keep, when only directory `q` has changed. -/
theorem Quiet.kept (h : Orderly v T) (hS : S ⊆ T)
    (hnode : ∀ j ∈ S, SameNode (v.slot j) (v'.slot j)) (hres : Resizes v v' S q s)
    (hquiet : Quiet v v' S q)
    (htable : ∀ j ∈ S, IsDir (v.slot j) → j ≠ q → v'.table j = v.table j) (h2 : 2 ≤ m)
    (hother : ∀ k < 19, k ≠ m → nameAt (v'.table q) k = nameAt (v.table q) k ∧
      validAt (v'.table q) k = validAt (v.table q) k ∧
      inoAt (v'.table q) k = inoAt (v.table q) k) :
    (∀ j ∈ S, StatAt v' j) ∧ ∀ j ∈ S, IsDir (v.slot j) →
      Linked (v'.table j) j (inoAt (v.table j) 0) := by
  refine ⟨fun j hj => (h.stat j (hS hj)).congr (hnode j hj).isDir ?_, fun j hj hd => ?_⟩
  · by_cases hjq : j = q
    · rw [hjq]
      exact hquiet.node.toSameStat
    · rw [hres.others j hj hjq]
      exact .refl _
  · have hold := h.linked_parent (hS hj) hd
    by_cases hjq : j = q
    · subst hjq
      exact hold.congr (hquiet.flags hold.flags) h2 hother
    · rw [htable j hj hd hjq]
      exact hold

/-! ## The operations -/

/-- **An inode is made.** -/
theorem Orderly.made (h : Orderly v T) (hv : Inv v T) (hmade : Made v v' T i q n) (hq : q ∈ T)
    (hd : IsDir (v.slot q)) (hres : Resizes v v' T q s) (hquiet : Quiet v v' T q)
    (hnone : ∀ k, v'.children (insert i T) (i, k) = none) (hstat : StatAt v' i)
    (hnew : IsDir (v'.slot i) → Linked (v'.table i) i q) : Orderly v' (insert i T) := by
  obtain ⟨m, ha⟩ := hmade.added
  obtain ⟨hkept, htables⟩ := Quiet.kept h subset_rfl hmade.node hres hquiet hmade.table ha.two_le
    ha.other
  obtain ⟨l, hlfree, hlinks⟩ := hmade.links hq hd hnone
  refine ⟨fun j hj => ?_, fun j hj hdj => ?_, fun j k n' c hl hc => ?_, ?_⟩
  · obtain rfl | hj := Finset.mem_insert.1 hj
    · exact hstat
    · exact hkept j hj
  · obtain rfl | hj := Finset.mem_insert.1 hj
    · exact ⟨q, hnew hdj⟩
    · exact ⟨_, htables j hj ((hmade.node j hj).isDir.1 hdj)⟩
  · rw [hlinks] at hl
    by_cases hjk : (j, k) = (q, l)
    · rw [hjk, Function.update_self, Option.some.injEq, Prod.mk.injEq] at hl
      obtain ⟨-, rfl⟩ := hl
      rw [(Prod.mk.inj hjk).1]
      exact (hnew hc).parent
    · rw [Function.update_of_ne hjk] at hl
      have hcT := (hv.child (links_eq_some.1 hl).1).1
      have hcd := (hmade.node c hcT).isDir.1 hc
      rw [(htables c hcT hcd).parent]
      exact h.parent j k n' c hl hcd
  · rw [(htables 0 hv.root.1 hv.root.2).parent]
    exact h.root

/-- **An inode is removed.** -/
theorem Orderly.gone (h : Orderly v T) (hv : Inv v T) (hgone : Gone v v' T i q n)
    (hres : Resizes v v' (T.erase i) q s) (hquiet : Quiet v v' (T.erase i) q) :
    Orderly v' (T.erase i) := by
  obtain ⟨m, -, hr⟩ := hgone.removed
  obtain ⟨hkept, htables⟩ := Quiet.kept h (Finset.erase_subset i T) hgone.node hres hquiet
    hgone.table hr.two_le hr.other
  obtain ⟨l, -, hlinks⟩ := hgone.links
  have hroot := hgone.inv.root
  refine ⟨hkept, fun j hj hdj => ⟨_, htables j hj ((hgone.node j hj).isDir.1 hdj)⟩,
    fun j k n' c hl hc => ?_, ?_⟩
  · have hcS := (hgone.inv.child (links_eq_some.1 hl).1).1
    have hcd := (hgone.node c hcS).isDir.1 hc
    rw [hlinks, Option.ite_none_left_eq_some] at hl
    rw [(htables c hcS hcd).parent]
    exact h.parent j k n' c hl.2 hcd
  · rw [(htables 0 hroot.1 hv.root.2).parent]
    exact h.root

/-- **A file is written.** -/
theorem Orderly.wrote (h : Orderly v T) (hv : Inv v T) (hw : Wrote v v' T i)
    (hfile : ¬IsDir (v.slot i)) (hfile' : ¬IsDir (v'.slot i))
    (hstat : SameStat (v.slot i) (v'.slot i)) : Orderly v' T := by
  have hdir : ∀ j, IsDir (v'.slot j) → j ≠ i ∧ IsDir (v.slot j) := fun j hd => by
    have hji : j ≠ i := fun hji => hfile' (hji ▸ hd)
    exact ⟨hji, hw.slot j hji ▸ hd⟩
  have htable : ∀ j ∈ T, IsDir (v'.slot j) → v'.table j = v.table j := fun j hj hd =>
    hw.table hv hj (hdir j hd).1 (hdir j hd).2
  refine ⟨fun j hj => ?_, fun j hj hd => ?_, fun j k n' c hl hc => ?_, ?_⟩
  · by_cases hji : j = i
    · subst hji
      exact (h.stat j hj).congr (iff_of_false hfile' hfile) hstat
    · refine (h.stat j hj).congr ?_ ?_ <;> rw [hw.slot j hji]
      exact .refl _
  · rw [htable j hj hd]
    exact h.linked j hj (hdir j hd).2
  · rw [hw.links hv hfile hfile'] at hl
    rw [htable c (hv.child (links_eq_some.1 hl).1).1 hc]
    exact h.parent j k n' c hl (hdir c hc).2
  · have hroot := hw.inv.root
    rw [htable 0 hroot.1 hroot.2]
    exact h.root

/-- **Inodes are stored again.** -/
theorem Orderly.touch (h : Orderly v T) (hnode : ∀ j, Touched (v.slot j) (v'.slot j))
    (hblk : v'.blk = v.blk) : Orderly v' T := by
  have htable : v'.table = v.table := funext fun j => by
    unfold View.table View.block
    rw [(hnode j).direct 0 (by decide), hblk]
  have hdir : ∀ j, IsDir (v'.slot j) ↔ IsDir (v.slot j) := fun j => (hnode j).isDir
  refine ⟨fun j hj => (h.stat j hj).congr (hdir j) (hnode j).toSameStat, fun j hj hd => ?_,
    fun j k n' c hl hc => ?_, ?_⟩
  · rw [htable]
    exact h.linked j hj ((hdir j).1 hd)
  · rw [links_touch (fun j => (hnode j).toSameNode) hblk] at hl
    rw [htable]
    exact h.parent j k n' c hl ((hdir c).1 hc)
  · rw [htable]
    exact h.root

/-- A file names nothing. -/
theorem children_not_dir (hfile : ¬IsDir (v.slot i)) : v.children T (i, k) = none :=
  if_neg fun hh => hfile hh.2.1

/-- **One call** keeps the inodes orderly, whatever it returns. -/
theorem call_orderly (h : Inv fs.view T) (hm : fs.Mounted) (ho : Orderly fs.view T)
    (hop : op.Allowed fs) (hcall : op.call env fs = some (r, fs')) :
    fs'.Mounted ∧ ∃ T', Inv fs'.view T' ∧ Orderly fs'.view T' := by
  have hsame : ∀ {fs'' : Fs}, fs''.view.slot = fs.view.slot → fs''.view.blk = fs.view.blk →
      Orderly fs''.view T := fun hslot hblk => ho.touch (fun j => hslot ▸ .refl _) hblk
  cases op with
  | mkdir path =>
    obtain ⟨r', fs₁, heq, hm', -, hcases⟩ :=
      @rufsMkdir_spec fs env T path h hm hop.ok hop.dirs hop.basename_length
    obtain ⟨-, rfl⟩ := Prod.mk.inj (Option.some.inj (hcall.symm.trans heq))
    rcases hcases with ⟨-, hinv, hslot, hblk⟩ |
      ⟨-, i, q, hq, hmade, hdi, hempty, -, hd, hres, hquiet, hlinked, hstat⟩
    · exact ⟨hm', T, hinv, hsame hslot hblk⟩
    · refine ⟨hm', _, hmade.inv, ho.made h hmade (hq.mem h) hd hres hquiet (fun k => ?_)
        ⟨fun _ => hstat, fun hnot => absurd hdi hnot⟩ fun _ => hlinked⟩
      refine if_neg fun hh => ?_
      exact absurd ((hempty k hh.2.2.1 hh.2.2.2.1).symm.trans hh.2.2.2.2) Bool.false_ne_true
  | create path mode =>
    obtain ⟨r', fs₁, heq, hm', -, hcases⟩ :=
      @rufsCreate_spec fs env T mode path h hm hop.ok hop.dirs hop.basename_length
    obtain ⟨-, rfl⟩ := Prod.mk.inj (Option.some.inj (hcall.symm.trans heq))
    rcases hcases with ⟨-, hinv, hslot, hblk⟩ |
      ⟨-, i, q, hq, hmade, hfile, -, hd, hres, hquiet, hstat⟩
    · exact ⟨hm', T, hinv, hsame hslot hblk⟩
    · exact ⟨hm', _, hmade.inv, ho.made h hmade (hq.mem h) hd hres hquiet
        (fun _ => children_not_dir hfile.not_isDir)
        ⟨fun hdir => absurd hdir hfile.not_isDir, fun _ => ⟨mode, hstat⟩⟩
        fun hdir => absurd hdir hfile.not_isDir⟩
  | rmdir path =>
    obtain ⟨hp, hne⟩ := hop
    obtain ⟨r', -, heq, -⟩ | ⟨fs₁, i, q, heq, hm', -, -, -, hgone, hres, hquiet⟩ :=
      @rufsRmdir_spec fs env T path h hm hp.ok hp.dirs hne
    all_goals obtain ⟨-, rfl⟩ := Prod.mk.inj (Option.some.inj (hcall.symm.trans heq))
    · exact ⟨hm, T, h, ho⟩
    · exact ⟨hm', _, hgone.inv, ho.gone h hgone hres hquiet⟩
  | unlink path =>
    obtain ⟨hp, hne⟩ := hop
    obtain ⟨r', -, heq, -⟩ | ⟨fs₁, i, q, heq, hm', -, -, -, hgone, hres, hquiet, -⟩ :=
      @rufsUnlink_spec fs env T path h hm hp.ok hp.dirs hne
    all_goals obtain ⟨-, rfl⟩ := Prod.mk.inj (Option.some.inj (hcall.symm.trans heq))
    · exact ⟨hm, T, h, ho⟩
    · exact ⟨hm', _, hgone.inv, ho.gone h hgone hres hquiet⟩
  | read path buffer size offset =>
    obtain ⟨hp, -, -⟩ := hop
    obtain ⟨r', buf, fs₁, heq, hm', -, hinv, hblk, hnode⟩ :=
      @rufsRead_spec fs env T buffer size offset path h hm hp.ok hp.dirs
    rw [Op.call, heq, Option.map_some, Option.some.injEq, Prod.mk.injEq] at hcall
    obtain ⟨-, rfl⟩ := hcall
    exact ⟨hm', T, hinv, ho.touch (fun j => (hnode j).1) hblk⟩
  | write path buffer size offset =>
    obtain ⟨hp, hfile, hcap⟩ := hop
    rw [fileCapacity_eq] at hcap
    obtain ⟨r', fs₁, heq, hm', -, hcases⟩ :=
      @rufsWrite_spec fs env T buffer size offset path h hm hp.ok hp.dirs hfile hcap
    obtain ⟨-, rfl⟩ := Prod.mk.inj (Option.some.inj (hcall.symm.trans heq))
    rcases hcases with rfl | ⟨i, hat, hw, htype, hstat, -⟩
    · exact ⟨hm, T, h, ho⟩
    · have hnot : ∀ {x : Inode}, get x .type = 0 → ¬IsDir x := fun h0 h1 => by
        rw [IsDir, h0] at h1
        cases h1
      have hi : get (fs.view.slot i) .type = 0 := by
        have hwalk := (walkPath_eq_some h hm (fun c => hp.ok.nameOk) hp.dirs.dirsTo).2 hat
        have hnode := hfile (readi fs i) (by
          rw [getNodeByPath_eq hp.ok.absolute, hwalk, Option.map_some])
        rwa [readi_eq_of_mem h hm (hat.mem h)] at hnode
      exact ⟨hm', T, hw.inv, ho.wrote h hw (hnot hi) (hnot htype) hstat⟩

/-! ## The states reached -/

/-- **Every run** keeps the inodes orderly. -/
theorem Reached.orderly (h : Reached disk fs) :
    fs.Mounted ∧ ∃ T, Inv fs.view T ∧ Orderly fs.view T := by
  obtain ⟨env, es, hrun⟩ := h
  refine Run.invariant (I := fun fs : Fs => fs.Mounted ∧ ∃ T, Inv fs.view T ∧ Orderly fs.view T)
    ?_ ?_ hrun
  · obtain ⟨fs₀, heq, hm, -, hinv, -, hempty, hlinked, hstat⟩ := @rufsMkfs_spec env disk
    rw [heq]
    have hdir : IsDir (fs₀.view.slot 0) := hinv.root.2
    refine ⟨hm, {0}, hinv, fun j hj => ?_, fun j hj _ => ?_, fun j k n c hl _ => ?_,
      hlinked.parent⟩
    · obtain rfl := Finset.mem_singleton.1 hj
      exact ⟨fun _ => hstat, fun hnot => absurd hdir hnot⟩
    · obtain rfl := Finset.mem_singleton.1 hj
      exact ⟨0, hlinked⟩
    · obtain ⟨⟨hj, -, h2, h19, hv⟩, -⟩ := children_eq_some.1 (links_eq_some.1 hl).1
      obtain rfl := Finset.mem_singleton.1 hj
      exact absurd ((hempty k h2 h19).symm.trans hv) Bool.false_ne_true
  · intro fs e fs' ⟨hm, T, hinv, ho⟩ ⟨hop, r, hcall⟩
    exact call_orderly hinv hm ho hop hcall

/-- The first two entries of a directory are found. -/
theorem dirFind_dots (h : Inv fs.view T) (hm : fs.Mounted) (hi : i ∈ T)
    (hd : IsDir (fs.view.slot i)) (hlinked : Linked (fs.view.table i) i q) :
    dirFind fs i dot = some i ∧ dirFind fs i dotDot = some q := by
  have hok := ((h.tracked i hi).dir hd).table
  have hself : findName (fs.view.table i) dot = some 1 :=
    (findName_eq hok.toEntries (by decide) (by decide)).2
      ⟨by decide, hok.self.2, hok.self.1⟩
  have hparent : findName (fs.view.table i) dotDot = some 0 :=
    (findName_eq hok.toEntries (by decide) (by decide)).2
      ⟨by decide, hok.parent.2, hok.parent.1⟩
  rw [dirFind_eq h hm hi hd, dirFind_eq h hm hi hd, hself, hparent, Option.map_some,
    Option.map_some, hlinked.self, hlinked.parent]
  exact ⟨rfl, rfl⟩

/-- **`"."` and `".."`.** In every reached state the path of a directory, gone on with by `"."`,
leads to the directory itself, and gone on with by `".."` to where `dirname` of the path leads. -/
theorem dots_resolve (h : Reached disk fs) (hp : Passed fs path)
    (hi : pathIno fs path 0 = some (some i)) (hd : IsDir (readi fs i)) (hq : IsAbsolute p) :
    (components p = components path ++ [dot] → pathIno fs p 0 = pathIno fs path 0) ∧
    (components p = components path ++ [dotDot] →
      pathIno fs p 0 = pathIno fs (dirname path) 0) := by
  obtain ⟨hm, T, hinv, ho⟩ := h.orderly
  have hat := at_of_pathIno hinv hm hp.ok hp.dirs hi
  have hiT := hat.mem hinv
  rw [readi_eq_of_mem hinv hm hiT] at hd
  obtain ⟨hdot, hdotDot⟩ := dirFind_dots hinv hm hiT hd (ho.linked_parent hiT hd)
  have hwalk := (walkPath_eq_some hinv hm (fun c => hp.ok.nameOk) hp.dirs.dirsTo).2 hat
  obtain ⟨hnames, hpre, -⟩ := hp.dirs.parent hinv hm hp.ok
  have hparent : At fs.view T (components (dirname path)) (inoAt (fs.view.table i) 0) := by
    rw [components_dirname hp.ok.absolute]
    by_cases hne : components path = []
    · rw [hne] at hat
      obtain rfl := hat.inode hinv .root
      rw [hne, ho.root]
      exact .root
    · rw [← List.dropLast_append_getLast hne] at hat
      obtain ⟨j, k, hj, hl⟩ := hat.link_inv
      rw [ho.parent j k _ i hl hd]
      exact hj
  rw [pathIno_eq hq, pathIno_eq hp.ok.absolute, pathIno_eq (isAbsolute_dirname hp.ok.absolute),
    hwalk, (walkPath_eq_some hinv hm hnames hpre).2 hparent]
  constructor <;> intro hcs <;> rw [hcs, walkPath_append, hwalk, Option.bind_some,
    walkPath_singleton]
  · rw [hdot]
  · rw [hdotDot]

/-- A directory is made in another: its parent is found from it. -/
theorem dots_resolve_nested : ∃ fs : Fs, pathIno fs [47, 100, 47, 101, 47, 46, 46] 0 =
    some (some 1) := by
  obtain ⟨fs, hreached, hfs⟩ := reached_of_any Bytes.zero still
    [(still, .mkdir [47, 100]), (still, .mkdir [47, 100, 47, 101])]
    (fun fs => decide (Passed fs [47, 100, 47, 101]) &&
      (pathIno fs [47, 100, 47, 101] 0 == some (some 2)) && decide (IsDir (readi fs 2)) &&
      (pathIno fs (dirname [47, 100, 47, 101]) 0 == some (some 1))) (by decide +kernel)
  simp only [Bool.and_eq_true, decide_eq_true_eq, beq_iff_eq] at hfs
  obtain ⟨⟨⟨hp, hi⟩, hd⟩, hpar⟩ := hfs
  exact ⟨fs, ((dots_resolve hreached hp hi hd (p := [47, 100, 47, 101, 47, 46, 46])
    (by decide)).2 (by decide)).trans hpar⟩

end UserOS.Rufs
