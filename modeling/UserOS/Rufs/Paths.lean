import UserOS.Rufs.Tree

/-!
# Path resolution

`get_node_by_path` counts the levels of a path with `dirname` and `basename`, collects the names,
and looks them up from the root on. On the paths that FUSE passes this finds the inode that has the
path.

* `pathIno_eq`: the loops look the components up, in order.
* `dirFind_eq_some`: one look-up in a directory.
* `walkPath_eq_some`: the inode found is the one that has the path.
-/

namespace UserOS.Rufs

open Lib

variable {fs : Fs} {T : Finset ℕ} {path : CString} {n : CString} {cs ds es : List CString}
  {i k c fuel : ℕ}

/-! ## The loops -/

theorem numLevels_eq (h : IsAbsolute path) (hf : (components path).length < fuel) :
    numLevels fuel path = some (components path).length := by
  induction fuel generalizing path with
  | zero => exact absurd hf (Nat.not_lt_zero _)
  | succ fuel ih =>
    rw [numLevels]
    split
    next hb =>
      rw [(basename_eq_slash h).1 hb]
      rfl
    next hb =>
      have hlen : 0 < (components path).length :=
        List.length_pos_iff.2 (mt (basename_eq_slash h).2 hb)
      have hdir : (components (dirname path)).length = (components path).length - 1 := by
        rw [components_dirname h, List.length_dropLast]
      rw [ih (isAbsolute_dirname h) (by omega), hdir, Option.map_some]
      exact congrArg some (Nat.sub_add_cancel hlen)

theorem levelNames_eq {m : ℕ} (h : IsAbsolute path) (hm : (components path).length = m) :
    levelNames m path = (components path).reverse := by
  induction m generalizing path with
  | zero =>
    rw [List.length_eq_zero_iff.1 hm]
    rfl
  | succ m ih =>
    have hne : components path ≠ [] := fun h0 => by
      rw [h0] at hm
      cases hm
    have hdir : (components (dirname path)).length = m := by
      rw [components_dirname h, List.length_dropLast, hm]
      rfl
    rw [levelNames, ih (isAbsolute_dirname h) hdir, components_dirname h, basename_eq h,
      List.getLast?_eq_some_getLast hne, Option.getD_some]
    conv_rhs => rw [← List.dropLast_append_getLast hne, List.reverse_append]
    rfl

/-- **The loops of `get_node_by_path`** end, and look up the components of the path. -/
theorem pathIno_eq (h : IsAbsolute path) :
    pathIno fs path i = some (walkPath fs i (components path)) := by
  have hlen := components_length_le path
  unfold pathIno
  rw [numLevels_eq h (by omega), Option.map_some, levelNames_eq h rfl, List.reverse_reverse]

theorem getNodeByPath_eq (h : IsAbsolute path) : getNodeByPath fs path i =
    some ((walkPath fs i (components path)).map (readi fs)) := by
  unfold getNodeByPath
  rw [pathIno_eq h]
  rfl

/-- The loop over the names is a fold. -/
theorem walkPath_eq_foldlM : walkPath fs i cs = cs.foldlM (dirFind fs) i := by
  induction cs generalizing i with
  | nil => rfl
  | cons n cs ih =>
    rw [walkPath, List.foldlM_cons]
    exact congrArg _ (funext fun j => ih)

/-- **Path resolution** folds `dir_find` over the components from the root on: it fails when a
component is not found in the directory reached so far, and else reads the inode reached. -/
theorem getNodeByPath_eq_foldlM (h : IsAbsolute path) : getNodeByPath fs path 0 =
    some (((components path).foldlM (dirFind fs) 0).map (readi fs)) := by
  rw [getNodeByPath_eq h, walkPath_eq_foldlM]

/-- The path `"//a/"` has one component. -/
theorem getNodeByPath_eq_foldlM_slashes : ∃ fs : Fs, getNodeByPath fs [47, 47, 97, 47] 0 =
    some ((([[97]] : List CString).foldlM (dirFind fs) 0).map (readi fs)) :=
  ⟨Fs.opened Bytes.zero Bytes.zero, getNodeByPath_eq_foldlM (by decide)⟩

theorem walkPath_append :
    walkPath fs i (cs ++ ds) = (walkPath fs i cs).bind fun j => walkPath fs j ds := by
  induction cs generalizing i with
  | nil => rfl
  | cons n cs ih =>
    rw [List.cons_append, walkPath, walkPath, Option.bind_assoc]
    exact congrArg _ (funext fun j => ih)

theorem walkPath_singleton : walkPath fs i [n] = dirFind fs i n := Option.bind_fun_some _

/-! ## Names and paths -/

/-- A name that FUSE passes. -/
structure NameOk (n : CString) : Prop where
  ended : 0 ∉ n
  ne_nil : n ≠ []
  ne_dot : n ≠ dot
  ne_dotDot : n ≠ dotDot

instance : Decidable (NameOk n) :=
  decidable_of_iff (0 ∉ n ∧ n ≠ [] ∧ n ≠ dot ∧ n ≠ dotDot)
    ⟨fun h => ⟨h.1, h.2.1, h.2.2.1, h.2.2.2⟩, fun h => ⟨h.ended, h.ne_nil, h.ne_dot, h.ne_dotDot⟩⟩

/-- A path that FUSE passes: absolute, and without `.` and `..`. -/
structure PathOk (path : CString) : Prop where
  absolute : IsAbsolute path
  ended : 0 ∉ path
  plain : ∀ c ∈ components path, c ≠ dot ∧ c ≠ dotDot

instance : Decidable (PathOk path) :=
  decidable_of_iff
    (IsAbsolute path ∧ 0 ∉ path ∧ ∀ c ∈ components path, c ≠ dot ∧ c ≠ dotDot)
    ⟨fun h => ⟨h.1, h.2.1, h.2.2⟩, fun h => ⟨h.absolute, h.ended, h.plain⟩⟩

theorem PathOk.nameOk (h : PathOk path) (hn : n ∈ components path) : NameOk n where
  ended h0 := h.ended (component_subset hn h0)
  ne_nil := component_ne_nil hn
  ne_dot := (h.plain n hn).1
  ne_dotDot := (h.plain n hn).2

/-- Every proper prefix of the names that resolves is a directory. -/
def DirsTo (fs : Fs) (cs : List CString) : Prop :=
  ∀ ds es i, cs = ds ++ es → es ≠ [] → walkPath fs 0 ds = some i → IsDir (readi fs i)

/-- Every proper prefix of the path that resolves is a directory. -/
def PrefixDirs (fs : Fs) (path : CString) : Prop :=
  ∀ q x, IsAbsolute q → components q <+: components path → components q ≠ components path →
    getNodeByPath fs q 0 = some (some x) → IsDir x

theorem PrefixDirs.dirsTo (h : PrefixDirs fs path) : DirsTo fs (components path) := by
  intro ds es i hcs hes hi
  have hmem : ∀ c ∈ ds, c ≠ [] ∧ slash ∉ c := fun c hc =>
    have hc' : c ∈ components path := hcs ▸ List.mem_append_left es hc
    ⟨component_ne_nil hc', slash_notMem_component hc'⟩
  obtain ⟨q, hq, rfl⟩ := exists_components ds hmem
  refine h q _ hq ⟨es, hcs.symm⟩ (fun heq => hes ?_) ?_
  · rw [heq] at hcs
    exact List.append_cancel_left (hcs.symm.trans (List.append_nil _).symm)
  · rw [getNodeByPath_eq hq, hi]
    rfl

/-- The prefixes of the path can be looked up one by one. -/
theorem prefixDirs_iff : PrefixDirs fs path ↔ ∀ k < (components path).length,
    ∀ i ∈ (walkPath fs 0 ((components path).take k)).toList, IsDir (readi fs i) := by
  constructor
  · intro h k hk i hi
    rw [Option.mem_toList] at hi
    refine h.dirsTo _ ((components path).drop k) i (List.take_append_drop k _).symm ?_ hi
    rw [ne_eq, List.drop_eq_nil_iff]
    omega
  · intro h q x hq hpre hne hx
    rw [getNodeByPath_eq hq, Option.some.injEq, Option.map_eq_some_iff] at hx
    obtain ⟨i, hi, rfl⟩ := hx
    have hlen := hpre.length_le
    have hlt : (components q).length < (components path).length := by
      refine lt_of_le_of_ne hlen fun heq => hne ?_
      exact hpre.eq_of_length heq
    refine h _ hlt i ?_
    rw [Option.mem_toList, ← List.prefix_iff_eq_take.1 hpre]
    exact hi

instance : Decidable (PrefixDirs fs path) := decidable_of_iff _ prefixDirs_iff.symm

theorem DirsTo.left (h : DirsTo fs (cs ++ ds)) : DirsTo fs cs := fun ds' es i hcs hes hi =>
  h ds' (es ++ ds) i (by rw [hcs, List.append_assoc]) (by simp [hes]) hi

/-! ## Look-ups -/

theorem readi_eq_of_mem (h : Inv fs.view T) (hm : fs.Mounted) (hi : i ∈ T) :
    readi fs i = fs.view.slot i := readi_eq hm (h.tracked i hi).lt

/-- The table that a directory's inode leads to. -/
theorem bioRead_table (h : Inv fs.view T) (hi : i ∈ T) (hd : IsDir (fs.view.slot i)) :
    bioRead fs.disk (direct (fs.view.slot i) 0) = fs.view.table i := by
  obtain ⟨k, hk, heq, -, htable, -⟩ := h.table hi hd
  rw [htable]
  exact bioRead_blk hk heq

theorem dirFind_eq (h : Inv fs.view T) (hm : fs.Mounted) (hi : i ∈ T)
    (hd : IsDir (fs.view.slot i)) :
    dirFind fs i n = (findName (fs.view.table i) n).map (inoAt (fs.view.table i)) := by
  unfold dirFind
  rw [readi_eq_of_mem h hm hi, bioRead_table h hi hd]
  rfl

/-- **A look-up in a directory** finds the entry with the name. -/
theorem dirFind_eq_some (h : Inv fs.view T) (hm : fs.Mounted) (hi : i ∈ T)
    (hd : IsDir (fs.view.slot i)) (hn : NameOk n) : dirFind fs i n = some c ↔
      ∃ k, fs.view.children T (i, k) = some c ∧ nameAt (fs.view.table i) k = n := by
  have htable := ((h.tracked i hi).dir hd).table
  rw [dirFind_eq h hm hi hd, Option.map_eq_some_iff]
  constructor
  · intro ⟨k, hk, hc⟩
    obtain ⟨hlt, hv, hname⟩ := (findName_eq htable.toEntries hn.ended hn.ne_nil).1 hk
    have h2 := htable.two_le hname hn.ne_dot hn.ne_dotDot
    exact ⟨k, children_eq_some.2 ⟨⟨hi, hd, h2, hlt, hv⟩, hc⟩, hname⟩
  · intro ⟨k, hk, hname⟩
    obtain ⟨⟨-, -, -, hlt, hv⟩, hc⟩ := children_eq_some.1 hk
    exact ⟨k, (findName_eq htable.toEntries hn.ended hn.ne_nil).2 ⟨hlt, hv, hname⟩, hc⟩

/-- A file without blocks has no names. -/
theorem dirFind_null (hm : fs.Mounted) (hi : i < 1024) (hnull : direct (fs.view.slot i) 0 = -1)
    (hn : NameOk n) : dirFind fs i n = none := by
  unfold dirFind
  rw [readi_eq hm hi, hnull, bioRead_null]
  have hnone := findName_zero hn.ne_nil hn.ended
  unfold findName at hnone
  dsimp only
  rw [hnone]
  rfl

/-- **Resolution.** The inode found is the one that has the path. -/
theorem walkPath_eq_some (h : Inv fs.view T) (hm : fs.Mounted) (hcs : ∀ c ∈ cs, NameOk c)
    (hdirs : DirsTo fs cs) : walkPath fs 0 cs = some i ↔ At fs.view T cs i := by
  induction cs using List.reverseRecOn generalizing i with
  | nil =>
    constructor
    · intro hi
      cases hi
      exact .root
    · intro hat
      exact congrArg some (At.inode h .root hat)
  | append_singleton cs n ih =>
    have ih := fun j => ih (i := j) (fun c hc => hcs c (List.mem_append_left _ hc)) hdirs.left
    have hn : NameOk n := hcs n (by simp)
    rw [walkPath_append, Option.bind_eq_some_iff]
    constructor
    · intro ⟨j, hj, hi⟩
      rw [walkPath_singleton] at hi
      have hat := (ih j).1 hj
      have hd := hdirs cs [n] j rfl (List.cons_ne_nil _ _) hj
      rw [readi_eq_of_mem h hm (hat.mem h)] at hd
      obtain ⟨k, hk, rfl⟩ := (dirFind_eq_some h hm (hat.mem h) hd hn).1 hi
      exact hat.child hk
    · intro hat
      obtain ⟨j, k, hj, hk, hname⟩ := hat.snoc_inv
      refine ⟨j, (ih j).2 hj, ?_⟩
      obtain ⟨⟨hmem, hd, -⟩, -⟩ := children_eq_some.1 hk
      rw [walkPath_singleton]
      exact (dirFind_eq_some h hm hmem hd hn).2 ⟨k, hk, hname⟩

/-- The path of an inode is that of a tracked one. -/
theorem at_of_pathIno (h : Inv fs.view T) (hm : fs.Mounted) (hp : PathOk path)
    (hdirs : PrefixDirs fs path) (hi : pathIno fs path 0 = some (some i)) :
    At fs.view T (components path) i := by
  rw [pathIno_eq hp.absolute, Option.some.injEq] at hi
  exact (walkPath_eq_some h hm (fun _ => hp.nameOk) hdirs.dirsTo).1 hi

end UserOS.Rufs
