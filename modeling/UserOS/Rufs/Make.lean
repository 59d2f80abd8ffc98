import UserOS.Rufs.Directories

/-!
# Making files and directories

`rufs_mkdir` and `rufs_create`. Each takes an inode, and `rufs_mkdir` a data block, before it knows
whether the name can be added; then it stores the entry, and the inode last.

* `Inv.made`: the new inode is in order, and has its name.
* `rufsMkdir_spec`, `rufsCreate_spec`: what the two operations change.
-/

namespace UserOS.Rufs

open Lib

variable {v v₁ : View} {fs : Fs} {env : Env} {T : Finset ℕ} {x y : Inode} {b t : Bytes}
  {i j k m d q mode now : ℕ} {path n : CString}

/-! ## The parent directory -/

theorem basename_ok (h : PathOk path) : 0 ∉ basename path ∧ basename path ≠ [] := by
  rw [basename_eq h.absolute]
  cases hlast : (components path).getLast? with
  | none => exact ⟨by decide, by decide⟩
  | some c =>
    have hok := h.nameOk (List.mem_of_getLast? hlast)
    exact ⟨hok.ended, hok.ne_nil⟩

/-- The names before the last lead to a directory. -/
theorem PrefixDirs.parent (h : Inv fs.view T) (hm : fs.Mounted) (hp : PathOk path)
    (hdirs : PrefixDirs fs path) : (∀ c ∈ components (dirname path), NameOk c) ∧
      DirsTo fs (components (dirname path)) ∧
      ∀ q, At fs.view T (components (dirname path)) q → IsDir (fs.view.slot q) := by
  rw [components_dirname hp.absolute]
  have hnames : ∀ c ∈ (components path).dropLast, NameOk c := fun c hc =>
    hp.nameOk (List.mem_of_mem_dropLast hc)
  by_cases hne : components path = []
  · rw [hne]
    refine ⟨fun c hc => absurd hc List.not_mem_nil, fun ds es i hcs hes => ?_, fun q hat => ?_⟩
    · exact absurd (List.append_eq_nil_iff.1 hcs.symm).2 hes
    · obtain rfl := At.inode h .root hat
      exact h.root.2
  · have hsplit := (List.dropLast_append_getLast hne).symm
    have hall := hdirs.dirsTo
    have hpre : DirsTo fs (components path).dropLast := DirsTo.left (hsplit ▸ hall)
    refine ⟨hnames, hpre, fun q hat => ?_⟩
    have hwalk := (walkPath_eq_some h hm hnames hpre).2 hat
    have hd := hall _ _ q hsplit (List.cons_ne_nil _ _) hwalk
    rwa [readi_eq_of_mem h hm (hat.mem h)] at hd

/-- The parent is not found, or is a directory. -/
theorem parent_cases (h : Inv fs.view T) (hm : fs.Mounted) (hp : PathOk path)
    (hdirs : PrefixDirs fs path) : getNodeByPath fs (dirname path) 0 = some none ∨
      ∃ q, At fs.view T (components (dirname path)) q ∧ IsDir (fs.view.slot q) ∧
        getNodeByPath fs (dirname path) 0 = some (some (fs.view.slot q)) := by
  obtain ⟨hnames, hpre, hdir⟩ := hdirs.parent h hm hp
  rw [getNodeByPath_eq (isAbsolute_dirname hp.absolute)]
  cases hwalk : walkPath fs 0 (components (dirname path)) with
  | none => exact .inl rfl
  | some q =>
    have hat := (walkPath_eq_some h hm hnames hpre).1 hwalk
    refine .inr ⟨q, hat, hdir q hat, ?_⟩
    rw [Option.map_some, readi_eq_of_mem h hm (hat.mem h)]

/-! ## The new inode -/

/-- Inode `i` is made, and gets the name `n` in directory `q`. -/
structure Made (v v' : View) (T : Finset ℕ) (i q : ℕ) (n : CString) : Prop where
  inv : Inv v' (insert i T)
  fresh : i ∉ T
  free : v.ibit i = false
  node : ∀ j ∈ T, SameNode (v.slot j) (v'.slot j)
  table : ∀ j ∈ T, IsDir (v.slot j) → j ≠ q → v'.table j = v.table j
  added : ∃ m, Added (v.table q) (v'.table q) m n i

theorem table_setSlot (h : j ≠ i ∨ direct x 0 = direct (v.slot i) 0) :
    (v.setSlot i x).table j = v.table j := by
  unfold View.table
  rw [View.setSlot_slot]
  by_cases hji : j = i
  · rw [hji, Function.update_self, h.resolve_left (not_not_intro hji)]
    rfl
  · rw [Function.update_of_ne hji]
    rfl

/-- **A new inode with its name.** -/
theorem Inv.made (h : Inv v₁ T) (hslot : v₁.slot = v.slot)
    (htables : ∀ j ∈ T, IsDir (v.slot j) → v₁.table j = v.table j) (hi : i ∉ T)
    (hfree : v.ibit i = false) (hx : Inv (v₁.setSlot i x) (insert i T))
    (hnone : ∀ k, (v₁.setSlot i x).children (insert i T) (i, k) = none) (hq : q ∈ T)
    (hd : IsDir (v.slot q)) (hk : direct (v.slot q) 0 = 67 + k)
    (hadded : Added (v.table q) b m n i) (hy : SameNode (v.slot q) y) :
    Made v (((v₁.setBlk k b).setSlot q y).setSlot i x) T i q n := by
  have hne : ∀ {j}, j ∈ T → j ≠ i := fun hj => ne_of_mem_of_not_mem hj hi
  have hk₁ : direct (v₁.slot q) 0 = 67 + k := by
    rw [hslot]
    exact hk
  have hd₁ : IsDir (v₁.slot q) := by
    rw [hslot]
    exact hd
  have hwslot : (v₁.setSlot i x).slot q = v₁.slot q := Function.update_of_ne (hne hq) ..
  have hwtable : (v₁.setSlot i x).table q = v.table q :=
    (table_setSlot (.inl (hne hq))).trans (htables q hq hd)
  have hlink : Inv ((v₁.setSlot i x).setBlk k b) (insert i T) := by
    refine hx.link (Finset.mem_insert_of_mem hq) (hwslot ▸ hd₁) (hwslot ▸ hk₁) hadded.ok
      hadded.two_le hadded.lt hadded.valid hadded.ino (fun j hj hjm => ?_)
      ⟨Finset.mem_insert_self i T, (hne h.root.1).symm⟩ fun o ho => ?_
    · rw [hwtable]
      exact (hadded.other j hj hjm).2
    · rw [children_adopt hi hnone] at ho
      exact hi (h.tree.used ho).1
  have hinv := hlink.touch (i := q) (x := y) (by
    rw [View.setBlk_slot, hwslot, hslot]
    exact hy)
  have hcomm : ((v₁.setSlot i x).setBlk k b).setSlot q y =
      ((v₁.setBlk k b).setSlot q y).setSlot i x :=
    @View.setSlot_comm (v₁.setBlk k b) i q x y (hne hq).symm
  refine ⟨hcomm ▸ hinv, hi, hfree, fun j hj => ?_, fun j hj hdj hjq => ?_, m, ?_⟩
  · rw [View.setSlot_slot, View.setSlot_slot, View.setBlk_slot, hslot,
      Function.update_of_ne (hne hj)]
    by_cases hjq : j = q
    · rw [hjq, Function.update_self]
      exact hy
    · rw [Function.update_of_ne hjq]
      exact .refl _
  · rw [table_setSlot (.inl (hne hj)), table_setSlot (.inl hjq)]
    have hdj₁ : IsDir (v₁.slot j) := by
      rw [hslot]
      exact hdj
    rw [h.table_setBlk_of_ne hq hd₁ hk₁ hj hdj₁ hjq]
    exact htables j hj hdj
  · have hptr : direct y 0 = direct ((v₁.setBlk k b).slot q) 0 := by
      rw [View.setBlk_slot, hslot]
      exact hy.direct 0 (by decide)
    rw [table_setSlot (.inl (hne hq)), table_setSlot (.inr hptr), table_setBlk_self hk₁]
    exact hadded

/-- Of the inodes `T`, only that of `q` is stored again, with the size `n`. -/
structure Resizes (v v' : View) (T : Finset ℕ) (q n : ℕ) : Prop where
  self : SizeIs (v'.slot q) n
  others : ∀ j ∈ T, j ≠ q → v'.slot j = v.slot j

/-- The inode of the parent is stored before that of the new inode. -/
theorem Resizes.made {v' : View} {s : ℕ} (hi : i ∉ T) (hq : q ∈ T) (hx : SizeIs x s)
    (hslot : v'.slot = Function.update (Function.update v.slot q x) i y) : Resizes v v' T q s where
  self := by
    rw [hslot, Function.update_of_ne (ne_of_mem_of_not_mem hq hi), Function.update_self]
    exact hx
  others j hj hjq := by
    rw [hslot, Function.update_of_ne (ne_of_mem_of_not_mem hj hi), Function.update_of_ne hjq]

/-- The inodes `T` other than `q` keep what is in their blocks; the inode of `q` is stored again,
and the flags in its table stay flags. -/
structure Quiet (v v' : View) (T : Finset ℕ) (q : ℕ) : Prop where
  blocks : ∀ j ∈ T, j ≠ q → ∀ r p, v.names (v.slot j) r = some p → v'.block p = v.block p
  node : Touched (v.slot q) (v'.slot q)
  flags : Flagged (v.table q) → Flagged (v'.table q)

/-- The table of `q` is stored. -/
theorem Inv.quiet {v' : View} {S : Finset ℕ} (h : Inv v T) (hS : S ⊆ T) (hq : q ∈ T)
    (hd : IsDir (v.slot q)) (hk : direct (v.slot q) 0 = 67 + k)
    (hnode : Touched (v.slot q) (v'.slot q)) (hself : v'.blk k = b)
    (hflags : Flagged (v.table q) → Flagged b)
    (hother : ∀ j ∈ S, ∀ r, ∀ n : ℕ, v.names (v.slot j) r = some (67 + (n : ℤ)) → n ≠ k →
      v'.blk n = v.blk n) : Quiet v v' S q where
  blocks j hj hjq r p hr := by
    obtain ⟨n, -, rfl, -⟩ := h.used (hS hj) hr
    obtain ⟨k', -, hk', -, -, hname⟩ := h.table hq hd
    obtain rfl : k = k' := by omega
    rw [View.block_add, View.block_add]
    exact hother j hj r n hr fun hnk => hjq (h.owner (hS hj) hq hr (hnk ▸ hname)).1
  node := hnode
  flags hf := by
    have htable : v'.table q = b := by
      unfold View.table
      rw [hnode.direct 0 (by decide), hk, View.block_add, hself]
    exact htable ▸ hflags hf

theorem newFile (hi : i < 65536) :
    NewFile (stored now (set (initInode env x i 0) .stMode (sIfreg ||| mode))) i := by
  have hnew : SameNode (initInode env x i 0)
      (stored now (set (initInode env x i 0) .stMode (sIfreg ||| mode))) :=
    ((SameNode.refl _).set (by decide) (by decide) (by decide)).stored
  exact ⟨hnew.ino.trans (initInode_ino hi), hnew.type.trans (initInode_type (by decide)),
    fun k hk => (hnew.direct k hk).trans (initInode_direct hk),
    fun k hk => (hnew.indirect k hk).trans (initInode_indirect hk)⟩

theorem newFile_size :
    SizeIs (stored now (set (initInode env x i 0) .stMode (sIfreg ||| mode))) 0 := by
  refine SizeIs.stored ⟨?_, ?_⟩ <;> rw [get_set_of_disjoint (by decide)]
  · exact initInode_size
  · exact initInode_stSize

theorem newDir_size : SizeIs (stored now (setDirect (initInode env x i 1) 0 (67 + d))) 0 := by
  refine SizeIs.stored ⟨?_, ?_⟩ <;> rw [get_setDirect (by decide) (by decide)]
  · exact initInode_size
  · exact initInode_stSize

theorem StatIs.stored {nlink : ℕ} (h : StatIs x mode nlink) : StatIs (stored now x) mode nlink :=
  ⟨(get_stored (by decide) (by decide)).trans h.mode,
    (get_stored (by decide) (by decide)).trans h.nlink⟩

theorem newFile_stat : StatIs (stored now (set (initInode env x i 0) .stMode (sIfreg ||| mode)))
    ((sIfreg ||| mode) % 2 ^ 32) 1 :=
  StatIs.stored ⟨get_set_self, (get_set_of_disjoint (by decide)).trans initInode_nlink⟩

theorem newDir_stat :
    StatIs (stored now (setDirect (initInode env x i 1) 0 (67 + d))) (sIfdir ||| 0o755) 2 := by
  refine StatIs.stored ⟨?_, ?_⟩ <;> rw [get_setDirect (by decide) (by decide)]
  · exact initInode_dir.mode
  · exact initInode_dir.nlink

theorem newDir (hi : i < 65536) (hd : d < 16384) :
    NewDir (stored now (setDirect (initInode env x i 1) 0 (67 + d))) i d := by
  have hnew : SameNode (setDirect (initInode env x i 1) 0 (67 + d))
      (stored now (setDirect (initInode env x i 1) 0 (67 + d))) := (SameNode.refl _).stored
  refine ⟨?_, ?_, ?_, fun k h0 hk => ?_, fun k hk => ?_⟩
  · rw [hnew.ino, get_setDirect (by decide) (by decide), initInode_ino hi]
  · rw [IsDir, hnew.type, get_setDirect (by decide) (by decide), initInode_type (by decide)]
  · rw [hnew.direct 0 (by decide), direct_setDirect_self (by omega) (by omega)]
  · rw [hnew.direct k hk, direct_setDirect_of_ne (by omega), initInode_direct hk]
  · rw [hnew.indirect k hk, indirect_setDirect (by decide), initInode_indirect hk]

/-- The table of a new directory is well formed and names nothing. -/
theorem newTable {curr par : ℕ} :
    TableOk ((initDirentTable b curr par maxDirEntries).slice 0 4096) ∧
      ∀ j, 2 ≤ j → j < 19 →
        validAt ((initDirentTable b curr par maxDirEntries).slice 0 4096) j = false := by
  refine ⟨initDirentTable_ok.slice, fun j h2 h19 => ?_⟩
  rw [(entry_slice h19).2.1, maxDirEntries_eq, (entry_initDirentTable h19).2]
  exact decide_eq_false (by omega)

/-- **A new directory with its name**, whose table is stored after that of its parent. -/
theorem Inv.madeDir (h : Inv v₁ T) (hslot : v₁.slot = v.slot) (hblk : v₁.blk = v.blk) (hi : i ∉ T)
    (hfree : v.ibit i = false) (hlt : i < 1024) (hibit : v₁.ibit i = true) (hq : q ∈ T)
    (hd : IsDir (v.slot q)) (hk : direct (v.slot q) 0 = 67 + k)
    (hadded : Added (v.table q) b m n i) (hx : SameNode (v.slot q) x) (hy : NewDir y i d)
    (hdlt : d < 16384) (hdbit : v₁.dbit d = true) (hun : v₁.Unowned T (67 + d)) (hok : TableOk t)
    (hempty : ∀ j, 2 ≤ j → j < 19 → validAt t j = false) :
    Made v ((((v₁.setBlk k b).setSlot q x).setBlk d t).setSlot i y) T i q n ∧
      ((((v₁.setBlk k b).setSlot q x).setBlk d t).setSlot i y).table i = t := by
  have hmeta := h.not_meta hun
  have hself : (v₁.setBlk d t).blk d = t := Function.update_self ..
  have hok' : TableOk ((v₁.setBlk d t).blk d) := by
    rw [hself]
    exact hok
  have hempty' : ∀ j, 2 ≤ j → j < 19 → validAt ((v₁.setBlk d t).blk d) j = false := by
    rw [hself]
    exact hempty
  have hkd : k ≠ d := fun hkd => by
    obtain ⟨k', -, hk', -, -, hname⟩ := h.table hq (hslot ▸ hd)
    rw [hslot, hk] at hk'
    exact hun q hq (.direct 0) (hname.trans (congrArg some (by omega)))
  have htables : ∀ j ∈ T, IsDir (v.slot j) → (v₁.setBlk d t).table j = v.table j := by
    intro j hj hdj
    rw [h.table_setBlk_of_meta hmeta hj (hslot ▸ hdj)]
    unfold View.table View.block
    rw [hslot, hblk]
  have hinv := (h.setBlk hmeta).adoptDir hi hlt hibit hy hdlt hdbit (h.unowned_setBlk hmeta hun)
    hok' hempty'
  have hmade := (h.setBlk hmeta).made hslot htables hi hfree hinv
    (fun _ => children_empty hy.ptr hempty') hq hd hk hadded hx
  have hcomm : (((v₁.setBlk k b).setSlot q x).setBlk d t).setSlot i y =
      (((v₁.setBlk d t).setBlk k b).setSlot q x).setSlot i y :=
    congrArg (fun w : View => (w.setSlot q x).setSlot i y) (View.setBlk_comm hkd)
  refine ⟨hcomm ▸ hmade, ?_⟩
  unfold View.table
  rw [View.setSlot_slot, Function.update_self, hy.ptr, View.block_add, View.setSlot_blk,
    View.setBlk_blk, Function.update_self]

/-! ## The operations -/

theorem ne_zero_of_free (h : Inv v T) (hfree : v.ibit i = false) : i ∉ T ∧ i ≠ 0 := by
  have hi : i ∉ T := fun hi => by
    rw [(h.tracked i hi).ibit] at hfree
    cases hfree
  exact ⟨hi, fun h0 => hi (h0 ▸ h.root.1)⟩

/-- **`rufs_create`** makes an empty file, or takes at most an inode. -/
theorem rufsCreate_spec (h : Inv fs.view T) (hm : fs.Mounted) (hp : PathOk path)
    (hdirs : PrefixDirs fs path) (hlen : (basename path).length ≤ 207) :
    ∃ r fs', rufsCreate env fs path mode = some (r, fs') ∧ fs'.Mounted ∧
      View.Steps fs.view fs'.view ∧
      (r ≠ 0 ∧ Inv fs'.view T ∧ fs'.view.slot = fs.view.slot ∧ fs'.view.blk = fs.view.blk ∨
        r = 0 ∧ ∃ i q, At fs.view T (components (dirname path)) q ∧
          Made fs.view fs'.view T i q (basename path) ∧ NewFile (fs'.view.slot i) i ∧
          SizeIs (fs'.view.slot i) 0 ∧ IsDir (fs.view.slot q) ∧
          Resizes fs.view fs'.view T q
            ((get (fs.view.slot q) .size + direntSize) % 2 ^ 32) ∧
          Quiet fs.view fs'.view T q ∧
          StatIs (fs'.view.slot i) ((sIfreg ||| mode) % 2 ^ 32) 1) := by
  obtain ⟨h0, hne⟩ := basename_ok hp
  unfold rufsCreate
  obtain hpar | ⟨q, hat, hd, hpar⟩ := parent_cases h hm hp hdirs <;> rw [hpar, Option.map_some]
  · exact ⟨_, _, rfl, hm, .refl, .inl ⟨by decide, h, rfl, rfl⟩⟩
  have hq := hat.mem h
  dsimp only
  obtain ⟨i, hi, fs₁, ⟨hfree, -⟩, hget, hm₁, hview₁⟩ | ⟨hget, -⟩ := getAvailIno_cases hm
  swap
  · rw [hget]
    exact ⟨_, _, rfl, hm, .refl, .inl ⟨by decide, h, rfl, rfl⟩⟩
  obtain ⟨hiT, hi0⟩ := ne_zero_of_free h hfree
  have h₁ : Inv fs₁.view T := hview₁ ▸ h.takeInode i
  have hsteps₁ : View.Steps fs.view fs₁.view := hview₁ ▸ .single (.takeInode hi hfree)
  have hslot₁ : fs₁.view.slot = fs.view.slot := by rw [hview₁]; rfl
  have hblk₁ : fs₁.view.blk = fs.view.blk := by rw [hview₁]; rfl
  rw [hget]
  dsimp only
  rw [if_neg (by omega), Int.toNat_natCast, ← hslot₁]
  obtain ⟨r, hr, hadd⟩ |
      ⟨fs₂, k, m, b, x, hadd, hm₂, hk, hptr, hbit, hadded, hflags, hsame, hsize, hview₂⟩ :=
    @dirAdd_cases fs₁ env T i q _ h₁ hm₁ hq (hslot₁ ▸ hd) hlen h0 hne (by omega)
  · rw [hadd]
    dsimp only
    rw [if_pos hr]
    exact ⟨_, _, rfl, hm₁, hsteps₁, .inl ⟨hr, h₁, rfl, hblk₁⟩⟩
  rw [hadd]
  dsimp only
  rw [if_neg (not_not_intro rfl)]
  refine ⟨_, _, rfl, writei_mounted hm₂, ?_, .inr ⟨rfl, i, q, hat, ?_⟩⟩ <;>
    rw [writei_view hm₂ hi, hview₂]
  · exact ((hsteps₁.tail (.setBlk hk hbit)).tail (.setSlot (h.tracked q hq).lt)).tail (.setSlot hi)
  have hnew := @newFile env (readi fs₂ i) i mode (env.time 3) (by omega)
  have hempty := @newFile_size env (readi fs₂ i) i mode (env.time 3)
  have hstat := @newFile_stat env (readi fs₂ i) i mode (env.time 3)
  generalize stored _ (set _ _ _) = y at hnew hempty hstat ⊢
  have hbit₁ : fs₁.view.ibit i = true := by
    rw [hview₁]
    exact Function.update_self ..
  have hself : (((fs₁.view.setBlk k b).setSlot q x).setSlot i y).slot i = y :=
    Function.update_self ..
  rw [hself]
  have htable₁ : fs₁.view.table = fs.view.table := by
    rw [hview₁]
    rfl
  have hmade := h₁.made hslot₁ (fun j _ _ => congrFun htable₁ j) hiT hfree
    (h₁.adoptFile hiT hi hbit₁ hnew)
    (fun _ => Inv.children_file hnew.type) hq hd (hslot₁ ▸ hptr) (htable₁ ▸ hadded)
    (hslot₁ ▸ hsame.toSameNode)
  have hqslot : (((fs₁.view.setBlk k b).setSlot q x).setSlot i y).slot q = x := by
    rw [View.setSlot_slot, Function.update_of_ne (ne_of_mem_of_not_mem hq hiT)]
    exact Function.update_self ..
  refine ⟨hmade, hnew, hempty, hslot₁.symm ▸ hd, .made hiT hq hsize (by rw [← hslot₁]; rfl),
    h.quiet (Finset.Subset.refl T) hq hd (hslot₁ ▸ hptr) (hqslot.symm ▸ hslot₁ ▸ hsame)
      (Function.update_self ..) (htable₁ ▸ hflags) fun j _ r n _ hnk => ?_, hstat⟩
  rw [View.setSlot_blk, View.setSlot_blk, View.setBlk_blk, Function.update_of_ne hnk, hblk₁]

/-- **`rufs_mkdir`** makes an empty directory, or takes at most an inode and a data block. -/
theorem rufsMkdir_spec (h : Inv fs.view T) (hm : fs.Mounted) (hp : PathOk path)
    (hdirs : PrefixDirs fs path) (hlen : (basename path).length ≤ 207) :
    ∃ r fs', rufsMkdir env fs path = some (r, fs') ∧ fs'.Mounted ∧
      View.Steps fs.view fs'.view ∧
      (r ≠ 0 ∧ Inv fs'.view T ∧ fs'.view.slot = fs.view.slot ∧ fs'.view.blk = fs.view.blk ∨
        r = 0 ∧ ∃ i q, At fs.view T (components (dirname path)) q ∧
          Made fs.view fs'.view T i q (basename path) ∧ IsDir (fs'.view.slot i) ∧
          (∀ j, 2 ≤ j → j < 19 → validAt (fs'.view.table i) j = false) ∧
          SizeIs (fs'.view.slot i) 0 ∧ IsDir (fs.view.slot q) ∧
          Resizes fs.view fs'.view T q
            ((get (fs.view.slot q) .size + direntSize) % 2 ^ 32) ∧
          Quiet fs.view fs'.view T q ∧ Linked (fs'.view.table i) i q ∧
          StatIs (fs'.view.slot i) (sIfdir ||| 0o755) 2) := by
  obtain ⟨h0, hne⟩ := basename_ok hp
  unfold rufsMkdir
  obtain hpar | ⟨q, hat, hd, hpar⟩ := parent_cases h hm hp hdirs <;> rw [hpar, Option.map_some]
  · exact ⟨_, _, rfl, hm, .refl, .inl ⟨by decide, h, rfl, rfl⟩⟩
  have hq := hat.mem h
  dsimp only
  obtain ⟨i, hi, fs₁, ⟨hfree, -⟩, hget, hm₁, hview₁⟩ | ⟨hget, -⟩ := getAvailIno_cases hm
  swap
  · rw [hget]
    exact ⟨_, _, rfl, hm, .refl, .inl ⟨by decide, h, rfl, rfl⟩⟩
  obtain ⟨hiT, hi0⟩ := ne_zero_of_free h hfree
  have h₁ : Inv fs₁.view T := hview₁ ▸ h.takeInode i
  have hsteps₁ : View.Steps fs.view fs₁.view := hview₁ ▸ .single (.takeInode hi hfree)
  rw [hget]
  dsimp only
  rw [if_neg (by omega), Int.toNat_natCast]
  obtain ⟨d, hdlt, fs₂, hdfree, hget₂, hm₂, hview₂⟩ | ⟨hget₂, -⟩ := getAvailBlkno_cases hm₁
  swap
  · rw [hget₂]
    exact ⟨_, _, rfl, hm₁, hsteps₁, .inl ⟨by decide, h₁, by rw [hview₁]; rfl, by rw [hview₁]; rfl⟩⟩
  have h₂ : Inv fs₂.view T := hview₂ ▸ h₁.takeBlock d
  have hsteps₂ : View.Steps fs.view fs₂.view := hsteps₁.tail (hview₂ ▸ .takeBlock hdlt hdfree)
  have hslot₂ : fs₂.view.slot = fs.view.slot := by
    rw [hview₂, View.takeBlock_slot, hview₁, View.takeInode_slot]
  have hblk₂ : fs₂.view.blk = fs.view.blk := by
    rw [hview₂, View.takeBlock_blk, hview₁, View.takeInode_blk]
  rw [hget₂]
  dsimp only
  rw [if_neg (by omega), ← hslot₂]
  obtain ⟨r, hr, hadd⟩ |
      ⟨fs₃, k, m, b, x, hadd, hm₃, hk, hptr, hbit, hadded, hflags, hsame, hsize, hview₃⟩ :=
    @dirAdd_cases fs₂ env T i q _ h₂ hm₂ hq (hslot₂ ▸ hd) hlen h0 hne (by omega)
  · rw [hadd]
    dsimp only
    rw [if_pos hr]
    exact ⟨_, _, rfl, hm₂, hsteps₂, .inl ⟨hr, h₂, rfl, hblk₂⟩⟩
  rw [hadd]
  dsimp only
  rw [if_neg (not_not_intro rfl)]
  generalize htable : initDirentTable _ _ _ _ = table
  have hm₄ := hm₃.setDisk (bioWrite fs₃.disk (67 + (d : ℤ)) table)
  have hdbit : fs₂.view.dbit d = true := by
    rw [hview₂]
    exact Function.update_self ..
  refine ⟨_, _, rfl, writei_mounted hm₄, ?_, .inr ⟨rfl, i, q, hat, ?_⟩⟩ <;>
    rw [writei_view hm₄ hi, bioWrite_view hdlt rfl, hview₃]
  · exact (((hsteps₂.tail (.setBlk hk hbit)).tail (.setSlot (h.tracked q hq).lt)).tail
      (.setBlk hdlt hdbit)).tail (.setSlot hi)
  have hnew := @newDir env (readi fs₃ i) i d (env.time 3) (by omega) hdlt
  have hzero := @newDir_size env (readi fs₃ i) i d (env.time 3)
  have hstat := @newDir_stat env (readi fs₃ i) i d (env.time 3)
  generalize stored _ (setDirect _ _ _) = y at hnew hzero hstat ⊢
  obtain ⟨hok, hempty⟩ : TableOk (table.slice 0 4096) ∧
      ∀ j, 2 ≤ j → j < 19 → validAt (table.slice 0 4096) j = false := htable ▸ newTable
  have hlinked : Linked (table.slice 0 4096) i q := by
    have hlt := (h.tracked q hq).lt
    rw [← htable, (h₂.tracked q hq).ino]
    exact .new (by omega) (by omega)
  generalize table.slice 0 4096 = t at hok hempty hlinked ⊢
  have hun : fs₂.view.Unowned T (67 + d) := by
    rw [hview₂]
    exact h₁.unowned_of_free hdfree
  have hibit : fs₂.view.ibit i = true := by
    rw [hview₂, View.takeBlock_ibit, hview₁]
    exact Function.update_self ..
  have htable : fs₂.view.table = fs.view.table := by
    unfold View.table View.block
    rw [hslot₂, hblk₂]
  have hself : ((((fs₂.view.setBlk k b).setSlot q x).setBlk d t).setSlot i y).slot i = y :=
    Function.update_self ..
  obtain ⟨hmade, ht⟩ := h₂.madeDir hslot₂ hblk₂ hiT hfree hi hibit hq hd (hslot₂ ▸ hptr)
    (htable ▸ hadded) (hslot₂ ▸ hsame.toSameNode) hnew hdlt hdbit hun hok hempty
  have hqslot : ((((fs₂.view.setBlk k b).setSlot q x).setBlk d t).setSlot i y).slot q = x := by
    rw [View.setSlot_slot, Function.update_of_ne (ne_of_mem_of_not_mem hq hiT)]
    exact Function.update_self ..
  rw [hself, ht]
  have hkd : k ≠ d := fun hkd => by
    obtain ⟨k', -, hk', -, -, hname⟩ := h₂.table hq (hslot₂.symm ▸ hd)
    exact hun q hq (.direct 0) (hname.trans (congrArg some (by omega)))
  refine ⟨hmade, hnew.type, hempty, hzero, hslot₂.symm ▸ hd,
    .made hiT hq hsize (by rw [← hslot₂]; rfl),
    h.quiet (Finset.Subset.refl T) hq hd (hslot₂ ▸ hptr) (hqslot.symm ▸ hslot₂ ▸ hsame) ?_
      (htable ▸ hflags)
      fun j hj r n hr hnk => ?_, hlinked, hstat⟩
  · rw [View.setSlot_blk, View.setBlk_blk, Function.update_of_ne hkd]
    exact Function.update_self ..
  · have hnd : n ≠ d := fun hnd => by
      refine h.unowned_of_free (k := d) ?_ j hj r (hnd ▸ hr)
      rw [hview₁, View.takeInode_dbit] at hdfree
      exact hdfree
    rw [View.setSlot_blk, View.setBlk_blk, Function.update_of_ne hnd, View.setSlot_blk,
      View.setBlk_blk, Function.update_of_ne hnk, hblk₂]

end UserOS.Rufs
