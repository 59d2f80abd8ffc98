import UserOS.Rufs.Bindings
import UserOS.Rufs.Requests

/-!
# The tree of files

The tree on the disk is read off the inodes that have paths. Making and removing names change it at
one path, writing changes one file, and calls that fail change nothing.

* `tree_of_at`: a path leads to what its inode says.
* `tree_made`, `tree_gone`, `tree_wrote`, `tree_same`: the tree afterwards.
* `lists_table`, `fillLoop_takeName`: the names in a directory, and those that `rufs_readdir` gives.
-/

namespace UserOS.Rufs

open Lib

variable {disk : Disk} {v v' : View} {fs fs' : Fs} {env : Env} {T T' : Finset ℕ} {b : Bytes}
  {x : Node File} {i j k m q c s l room : ℕ} {r : ℤ} {n : CString} {cs ps : List CString}
  {path : CString}

/-! ## What inodes say -/

/-- What inode `i` says. -/
def View.node (v : View) (i : ℕ) : Node File :=
  if IsDir (v.slot i) then .dir
  else .file ⟨get (v.slot i) .stMode, get (v.slot i) .size, v.fileByte (v.slot i)⟩

theorem node_dir (h : IsDir (v.slot i)) : v.node i = .dir := if_pos h

theorem node_file (h : ¬IsDir (v.slot i)) :
    v.node i = .file ⟨get (v.slot i) .stMode, get (v.slot i) .size, v.fileByte (v.slot i)⟩ :=
  if_neg h

theorem node_eq (h : Inv fs.view T) (hm : fs.Mounted) (hi : i ∈ T) :
    fs.node i = fs.view.node i := by
  have hbyte : fs.fileByte i = fs.view.fileByte (fs.view.slot i) :=
    funext fun o => fileByte_eq h hm hi
  unfold Fs.node View.node
  rw [readi_eq_of_mem h hm hi, hbyte]

/-- Inodes and blocks that stay say the same. -/
theorem node_congr (hslot : v'.slot j = v.slot j)
    (hblocks : ∀ r p, v.names (v.slot j) r = some p → v'.block p = v.block p) :
    v'.node j = v.node j := by
  have hnames : v'.names (v.slot j) = v.names (v.slot j) :=
    names_congr (.refl _) fun k hk hne =>
      hblocks (.indirect k) _ ((names_indirect hk).trans (nonNull_eq_some.2 ⟨hne, rfl⟩))
  have hbyte : v'.fileByte (v.slot j) = v.fileByte (v.slot j) := by
    funext o
    unfold View.fileByte
    rw [hnames]
    exact Option.map_congr fun p hp => by rw [hblocks _ p hp]
  unfold View.node
  rw [hslot, hbyte]

/-- Other inodes than the directory `q` say the same when its table is stored. -/
theorem Quiet.node_eq (h : Quiet v v' T q) (hres : Resizes v v' T q s) (hd : IsDir (v.slot q))
    (hj : j ∈ T) : v'.node j = v.node j := by
  by_cases hjq : j = q
  · rw [hjq, node_dir hd, node_dir (h.node.isDir.2 hd)]
  · exact node_congr (hres.others j hj hjq) (h.blocks j hj hjq)

theorem Wrote.node (h : Wrote v v' T i) (hj : j ∈ T) (hji : j ≠ i) : v'.node j = v.node j :=
  node_congr (h.slot j hji) (h.others j hj hji)

/-- Inodes say the same when other fields of theirs are stored. -/
theorem Touched.node (h : Touched (v.slot j) (v'.slot j))
    (hsize : get (v'.slot j) .size = get (v.slot j) .size) (hblk : v'.blk = v.blk) :
    v'.node j = v.node j := by
  have hblock : v'.block = v.block := by
    unfold View.block
    rw [hblk]
  have hnames : v'.names (v'.slot j) = v.names (v.slot j) :=
    names_congr h.toSamePtrs fun _ _ _ => by rw [hblock]
  have hbyte : v'.fileByte (v'.slot j) = v.fileByte (v.slot j) := by
    unfold View.fileByte
    rw [hnames, hblock]
  unfold View.node
  rw [hbyte, hsize, h.mode]
  exact if_congr h.isDir rfl rfl

/-! ## Paths -/

/-- A directory is entered along its links. -/
theorem enter_eq_some (h : Inv fs.view T) (hm : fs.Mounted) (hi : i ∈ T) :
    fs.enter i n = some c ↔ ∃ k, fs.view.links T (i, k) = some (n, c) := by
  unfold Fs.enter
  rw [Option.ite_none_right_eq_some, readi_eq_of_mem h hm hi]
  constructor
  · intro ⟨⟨hd, hn⟩, hc⟩
    obtain ⟨k, hk, hname⟩ := (dirFind_eq_some h hm hi hd hn).1 hc
    exact ⟨k, links_eq_some.2 ⟨hk, hname⟩⟩
  · intro ⟨k, hl⟩
    obtain ⟨hk, hname⟩ := links_eq_some.1 hl
    have hd := (children_eq_some.1 hk).1.2.1
    have hn := links_nameOk h hl
    exact ⟨⟨hd, hn⟩, (dirFind_eq_some h hm hi hd hn).2 ⟨k, hk, hname⟩⟩

/-- The inode found is the one that has the path. -/
theorem find_eq_some (h : Inv fs.view T) (hm : fs.Mounted) :
    fs.find cs = some i ↔ At fs.view T cs i := by
  induction cs using List.reverseRecOn generalizing i with
  | nil =>
    constructor
    · intro hi
      cases hi
      exact .root
    · intro hat
      exact congrArg some (At.inode h .root hat)
  | append_singleton cs n ih =>
    have hsnoc : fs.find (cs ++ [n]) = (fs.find cs).bind fun j => fs.enter j n := by
      unfold Fs.find
      rw [List.foldlM_append]
      exact congrArg _ (funext fun j => Option.bind_fun_some _)
    rw [hsnoc, Option.bind_eq_some_iff]
    constructor
    · intro ⟨j, hj, hi⟩
      have hat := ih.1 hj
      obtain ⟨k, hl⟩ := (enter_eq_some h hm (hat.mem h)).1 hi
      exact hat.link hl
    · intro hat
      obtain ⟨j, k, hat, hl⟩ := hat.link_inv
      exact ⟨j, ih.2 hat, (enter_eq_some h hm (hat.mem h)).2 ⟨k, hl⟩⟩

theorem tree_eq_some (h : Inv fs.view T) (hm : fs.Mounted) :
    fs.tree cs = some x ↔ ∃ i, At fs.view T cs i ∧ fs.view.node i = x := by
  unfold Fs.tree
  rw [Option.map_eq_some_iff]
  refine exists_congr fun i => ?_
  rw [find_eq_some h hm]
  exact and_congr_right fun hat => by rw [node_eq h hm (hat.mem h)]

/-- **A path** leads to what its inode says. -/
theorem tree_of_at (h : Inv fs.view T) (hm : fs.Mounted) (hat : At fs.view T cs i) :
    fs.tree cs = some (fs.view.node i) := (tree_eq_some h hm).2 ⟨i, hat, rfl⟩

theorem tree_eq_none (h : Inv fs.view T) (hm : fs.Mounted) :
    fs.tree cs = none ↔ ∀ i, ¬At fs.view T cs i := by
  rw [Option.eq_none_iff_forall_ne_some]
  constructor
  · exact fun hall i hat => hall _ (tree_of_at h hm hat)
  · intro hall x hx
    obtain ⟨i, hat, -⟩ := (tree_eq_some h hm).1 hx
    exact hall i hat

/-! ## Changes -/

/-- The tree depends on the paths and on what the inodes say. -/
theorem tree_same (h : Inv fs.view T) (hm : fs.Mounted) (h' : Inv fs'.view T) (hm' : fs'.Mounted)
    (hlinks : fs'.view.links T = fs.view.links T)
    (hnode : ∀ j ∈ T, fs'.view.node j = fs.view.node j) : fs'.tree = fs.tree := by
  funext cs
  refine Option.ext fun x => ?_
  rw [tree_eq_some h' hm', tree_eq_some h hm]
  refine exists_congr fun j => ?_
  rw [at_congr hlinks]
  exact and_congr_right fun hat => by rw [hnode j (hat.mem h)]

/-- Nothing in use is stored. -/
theorem tree_kept (h : Inv fs.view T) (hm : fs.Mounted) (h' : Inv fs'.view T) (hm' : fs'.Mounted)
    (hslot : fs'.view.slot = fs.view.slot) (hblk : fs'.view.blk = fs.view.blk) :
    fs'.tree = fs.tree := by
  refine tree_same h hm h' hm' (links_touch (fun j => hslot ▸ .refl _) hblk) fun j _ => ?_
  exact node_congr (congrFun hslot j) fun _ p _ => congrFun hblk _

/-- **A name is made.** -/
theorem tree_made (h : Inv fs.view T) (hm : fs.Mounted) (hm' : fs'.Mounted)
    (hq : At fs.view T ps q) (hd : IsDir (fs.view.slot q)) (hmade : Made fs.view fs'.view T i q n)
    (hres : Resizes fs.view fs'.view T q s) (hquiet : Quiet fs.view fs'.view T q)
    (hnone : ∀ k, fs'.view.children (insert i T) (i, k) = none) :
    fs.tree (ps ++ [n]) = none ∧ fs'.tree = fs.tree.set (ps ++ [n]) (fs'.view.node i) := by
  obtain ⟨m, hfree, hlinks⟩ := hmade.links (hq.mem h) hd hnone
  have hat : ∀ {cs j}, At fs'.view (insert i T) cs j ↔ At fs.view T cs j ∨
      cs = ps ++ [n] ∧ j = i := at_made h hmade.fresh hq hfree hlinks
  have hnew : ∀ j, ¬At fs.view T (ps ++ [n]) j := by
    intro j hj
    obtain ⟨q', k, hq', hl⟩ := hj.link_inv
    obtain rfl := hq'.inode h hq
    obtain ⟨hc, hname⟩ := links_eq_some.1 hl
    obtain ⟨m, ha⟩ := hmade.added
    exact ha.new k (children_eq_some.1 hc).1.2.2.2.1 hname
  refine ⟨(tree_eq_none h hm).2 hnew, funext fun cs => ?_⟩
  by_cases hcs : cs = ps ++ [n]
  · rw [hcs, FileTree.set_self]
    exact tree_of_at hmade.inv hm' (hat.2 (.inr ⟨rfl, rfl⟩))
  · rw [FileTree.set_of_ne hcs]
    refine Option.ext fun x => ?_
    rw [tree_eq_some hmade.inv hm', tree_eq_some h hm]
    refine exists_congr fun j => ?_
    rw [hat, or_iff_left fun hh => hcs hh.1]
    exact and_congr_right fun hat => by rw [hquiet.node_eq hres hd (hat.mem h)]

/-- **A name is removed.** -/
theorem tree_gone (h : Inv fs.view T) (hm : fs.Mounted) (hm' : fs'.Mounted)
    (hq : At fs.view T ps q) (hgone : Gone fs.view fs'.view T i q n)
    (hres : Resizes fs.view fs'.view (T.erase i) q s)
    (hquiet : Quiet fs.view fs'.view (T.erase i) q) :
    fs'.tree = fs.tree.prune (ps ++ [n]) := by
  obtain ⟨m, hlink, hlinks⟩ := hgone.links
  have hd := (children_eq_some.1 (links_eq_some.1 hlink).1).1.2.1
  have hat : ∀ {cs j}, At fs'.view (T.erase i) cs j ↔ At fs.view T cs j ∧ ¬ps ++ [n] <+: cs :=
    at_gone h hq hlink hlinks
  funext cs
  by_cases hcs : ps ++ [n] <+: cs
  · rw [FileTree.prune_below hcs]
    exact (tree_eq_none hgone.inv hm').2 fun j hj => (hat.1 hj).2 hcs
  · rw [FileTree.prune_apart hcs]
    refine Option.ext fun x => ?_
    rw [tree_eq_some hgone.inv hm', tree_eq_some h hm]
    refine exists_congr fun j => ?_
    have hj : At fs'.view (T.erase i) cs j ↔ At fs.view T cs j := hat.trans (and_iff_left hcs)
    rw [hj]
    exact and_congr_right fun hatj => by
      rw [hquiet.node_eq hres hd ((hj.2 hatj).mem hgone.inv)]

/-- **A file is written.** -/
theorem tree_wrote (h : Inv fs.view T) (hm : fs.Mounted) (hm' : fs'.Mounted)
    (hi : At fs.view T cs i) (hfile : ¬IsDir (fs.view.slot i)) (hfile' : ¬IsDir (fs'.view.slot i))
    (hw : Wrote fs.view fs'.view T i) : fs'.tree = fs.tree.set cs (fs'.view.node i) := by
  have hlinks := hw.links h hfile hfile'
  funext ds
  by_cases hds : ds = cs
  · rw [hds, FileTree.set_self]
    exact tree_of_at hw.inv hm' ((at_congr hlinks).2 hi)
  · rw [FileTree.set_of_ne hds]
    refine Option.ext fun x => ?_
    rw [tree_eq_some hw.inv hm', tree_eq_some h hm]
    refine exists_congr fun j => ?_
    rw [at_congr hlinks]
    refine and_congr_right fun hat => ?_
    rw [hw.node (hat.mem h) fun hji => hds (hat.unique h (hji ▸ hi))]

/-! ## Names -/

/-- The first two names of a directory. -/
theorem listNames_table (h : TableOk b) :
    listNames b 19 0 = dotDot :: dot :: listNames b 17 2 := by
  unfold listNames
  rw [show List.range' 0 19 = 0 :: 1 :: List.range' 2 17 from rfl,
    List.filter_cons_of_pos h.parent.2, List.filter_cons_of_pos h.self.2, List.map_cons,
    List.map_cons, h.parent.1, h.self.1]

theorem length_listNames (h : TableOk b) : (listNames b 17 2).length = (entries b).card := by
  have heq : entries b = ((List.range' 2 17).filter fun j => validAt b j).toFinset := by
    ext j
    rw [mem_entries h, List.mem_toFinset, List.mem_filter, List.mem_range'_1, and_assoc]
  unfold listNames
  rw [List.length_map, heq, List.toFinset_card_of_nodup ((List.nodup_range').filter _)]

/-- **The names in a directory** are those of its table. -/
theorem lists_table (h : Inv fs.view T) (hm : fs.Mounted) (hat : At fs.view T cs i)
    (hd : IsDir (fs.view.slot i)) : fs.tree.Lists cs (listNames (fs.view.table i) 17 2) := by
  have hok := ((h.tracked i (hat.mem h)).dir hd).table
  have hnodup := listNames_nodup hok.toEntries
  rw [listNames_table hok] at hnodup
  refine ⟨hnodup.of_cons.of_cons, fun n => ?_⟩
  unfold listNames
  rw [List.mem_map, ne_eq, tree_eq_none h hm, not_forall]
  constructor
  · intro ⟨k, hk, hname⟩
    rw [List.mem_filter, List.mem_range'_1] at hk
    exact ⟨_, not_not_intro (hat.link (k := k) (links_eq_some.2
      ⟨children_eq_some.2 ⟨⟨hat.mem h, hd, hk.1.1, by omega, hk.2⟩, rfl⟩, hname⟩))⟩
  · intro ⟨c, hc⟩
    obtain ⟨j, k, hj, hl⟩ := (not_not.1 hc).link_inv
    obtain rfl := hj.inode h hat
    obtain ⟨hk, hname⟩ := links_eq_some.1 hl
    obtain ⟨⟨-, -, h2, h19, hv⟩, -⟩ := children_eq_some.1 hk
    exact ⟨k, List.mem_filter.2 ⟨List.mem_range'_1.2 ⟨h2, by omega⟩, hv⟩, hname⟩

/-- **The loop of `rufs_readdir`** gives names until the buffer is full. -/
theorem fillLoop_takeName {acc : List CString} (hb : Entries b)
    (hflag : ∀ j < 19, get b (entValid j) ≤ 1) (hl : i + l ≤ 19) (hacc : acc.length ≤ room) :
    fillLoop (takeName room) b l i acc =
      (if room < acc.length + (listNames b l i).length then -1 else 0,
        (acc ++ listNames b l i).take room) := by
  induction l generalizing i acc with
  | zero =>
    have hnil : listNames b 0 i = [] := rfl
    rw [hnil, List.append_nil, List.take_of_length_le hacc, List.length_nil, Nat.add_zero,
      if_neg (by omega)]
    rfl
  | succ l ih =>
    have hvalid : get b (entValid i) = 1 ↔ validAt b i = true := by
      have hle := hflag i (by omega)
      unfold validAt
      rw [bne_iff_ne]
      omega
    have hstr : b.readStr (entName i) (blockSize - entName i) = nameAt b i := by
      refine Bytes.readStr_of_le (hb.ended i (by omega)) ?_
      unfold blockSize entName direntSize
      omega
    have hlist : listNames b (l + 1) i =
        if validAt b i = true then nameAt b i :: listNames b l (i + 1)
        else listNames b l (i + 1) := by
      unfold listNames
      rw [List.range'_succ, List.filter_cons]
      split <;> rfl
    rw [fillLoop, hstr, hlist, if_congr hvalid rfl rfl]
    split
    swap
    · exact ih (by omega) hacc
    unfold takeName
    by_cases hroom : acc.length < room
    · rw [if_pos hroom]
      dsimp only
      rw [if_neg (not_not_intro rfl)]
      refine (ih (by omega) (by rw [List.length_append, List.length_singleton]; omega)).trans ?_
      rw [List.append_assoc, List.singleton_append, List.length_append, List.length_singleton,
        List.length_cons, Nat.add_assoc, Nat.add_comm 1]
    · -- The buffer is full.
      rw [if_neg hroom]
      dsimp only
      rw [if_pos (by decide), if_pos (by rw [List.length_cons]; omega),
        show room = acc.length by omega, List.take_left]

end UserOS.Rufs
