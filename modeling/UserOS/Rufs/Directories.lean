import UserOS.Rufs.Changes
import UserOS.Rufs.Paths

/-!
# Directories

What `dir_add` and `dir_remove` do to a directory in use: one entry of its table changes, and its
inode is stored again with the same pointers.

* `dirAdd_cases`: a name is added, or nothing changes.
* `dirRemove_eq`: the entry with a name is removed.
-/

namespace UserOS.Rufs

open Lib

variable {v v' : View} {fs : Fs} {env : Env} {T : Finset ℕ} {x y z : Inode} {b b' : Bytes}
  {i j k m c q now : ℕ} {n : CString}

/-! ## Inodes stored again -/

theorem SameNode.trans (h : SameNode x y) (h' : SameNode y z) : SameNode x z where
  direct k hk := (h'.direct k hk).trans (h.direct k hk)
  indirect k hk := (h'.indirect k hk).trans (h.indirect k hk)
  ino := h'.ino.trans h.ino
  type := h'.type.trans h.type

/-- A field other than the number, the type and the pointers is stored. -/
theorem SameNode.set {f : Field} {a : ℕ} (h : SameNode x y) (hp : f.Disjoint .ptrs)
    (hi : Field.ino.Disjoint f) (ht : Field.type.Disjoint f) : SameNode x (set y f a) :=
  h.trans ⟨⟨fun _ hk => direct_set hp hk, fun _ hk => indirect_set hp hk⟩, get_set_of_disjoint hi,
    get_set_of_disjoint ht⟩

theorem SameNode.slice (x : Inode) : SameNode x (x.slice 0 256) where
  direct k hk := (Bytes.getInt_slice (by omega)).trans (by rw [Nat.zero_add]; rfl)
  indirect k hk := (Bytes.getInt_slice (by omega)).trans (by rw [Nat.zero_add]; rfl)
  ino := Bytes.getNat_slice (by decide)
  type := Bytes.getNat_slice (by decide)

/-- `writei` stores the time only. -/
theorem SameNode.stored (h : SameNode x y) : SameNode x (stored now y) :=
  (h.set (by decide) (by decide) (by decide)).trans (.slice _)

theorem get_stored {f : Field} (h : f.Disjoint .stCtime) (hw : f.off + f.width ≤ 256) :
    get (stored now x) f = get x f := by
  unfold stored get
  rw [Bytes.getNat_slice hw, Nat.zero_add]
  exact get_set_of_disjoint h

/-- The inode says the size twice. -/
structure SizeIs (x : Inode) (n : ℕ) : Prop where
  size : get x .size = n
  stSize : get x .stSize = n

theorem SizeIs.stored {size : ℕ} (h : SizeIs x size) : SizeIs (stored now x) size where
  size := (get_stored (by decide) (by decide)).trans h.size
  stSize := (get_stored (by decide) (by decide)).trans h.stSize

/-- Both fields are stored from one value, of which a `uint32_t` is kept. -/
theorem sizeIs_set {size : ℕ} : SizeIs
    (Rufs.set (Rufs.set x .size size) .stSize (get (Rufs.set x .size size) .size))
    (size % 2 ^ 32) := by
  have hsize : get (Rufs.set x .size size) .size = size % 2 ^ 32 := get_set_self
  have hlt : size % 2 ^ 32 < 256 ^ Field.stSize.width :=
    (Nat.mod_lt _ (by decide)).trans (by decide)
  refine ⟨(get_set_of_disjoint (by decide)).trans hsize, ?_⟩
  rw [get_set_self, hsize, Nat.mod_eq_of_lt hlt]

/-- The two inodes say the same mode and number of links. -/
structure SameStat (x y : Inode) : Prop where
  mode : get y .stMode = get x .stMode
  nlink : get y .stNlink = get x .stNlink

theorem SameStat.refl (x : Inode) : SameStat x x := ⟨rfl, rfl⟩

theorem SameStat.trans (h : SameStat x y) (h' : SameStat y z) : SameStat x z :=
  ⟨h'.mode.trans h.mode, h'.nlink.trans h.nlink⟩

theorem SameStat.set {f : Field} {a : ℕ} (h : SameStat x y) (hmode : Field.stMode.Disjoint f)
    (hnlink : Field.stNlink.Disjoint f) : SameStat x (Rufs.set y f a) :=
  h.trans ⟨get_set_of_disjoint hmode, get_set_of_disjoint hnlink⟩

theorem SameStat.stored (h : SameStat x y) : SameStat x (Rufs.stored now y) :=
  h.trans ⟨get_stored (by decide) (by decide), get_stored (by decide) (by decide)⟩

/-- An inode is stored again with other sizes and times. -/
structure Touched (x y : Inode) : Prop extends SameNode x y, SameStat x y

theorem Touched.refl (x : Inode) : Touched x x := ⟨.refl x, .refl x⟩

/-- The inode of a directory is stored with a new size. -/
theorem writeDirInode_view {size : ℕ} (hm : fs.Mounted) (hq : q < 1024) (hino : get x .ino = q) :
    (writeDirInode env fs x size).Mounted ∧ ∃ y, Touched x y ∧ SizeIs y (size % 2 ^ 32) ∧
      (writeDirInode env fs x size).view = fs.view.setSlot q y := by
  unfold writeDirInode
  dsimp only
  have hsize := @sizeIs_set x size
  generalize hz : Rufs.set (Rufs.set x .size size) .stSize _ = z at hsize
  generalize hy : Rufs.set (Rufs.set z .stMtime _) .stAtime _ = y
  have hsame : SameNode x y := by
    subst hy hz
    repeat' refine SameNode.set ?_ (by decide) (by decide) (by decide)
    exact .refl x
  have hstat : SameStat x y := by
    subst hy hz
    repeat' refine SameStat.set ?_ (by decide) (by decide)
    exact .refl x
  have hsizes : SizeIs y (size % 2 ^ 32) := by
    subst hy
    constructor
    · simp (disch := decide) only [get_set_of_disjoint]
      exact hsize.size
    · simp (disch := decide) only [get_set_of_disjoint]
      exact hsize.stSize
  rw [hsame.ino.trans hino]
  exact ⟨writei_mounted hm, _, ⟨hsame.stored, hstat.stored⟩, hsizes.stored, writei_view hm hq⟩

/-! ## Tables -/

/-- A name is added to a table, in entry `m`. -/
structure Added (b b' : Bytes) (m : ℕ) (n : CString) (c : ℕ) : Prop where
  two_le : 2 ≤ m
  lt : m < 19
  free : validAt b m = false
  new : ∀ j < 19, nameAt b j ≠ n
  ok : TableOk b'
  name : nameAt b' m = n
  valid : validAt b' m = true
  ino : inoAt b' m = c
  other : ∀ j < 19, j ≠ m →
    nameAt b' j = nameAt b j ∧ validAt b' j = validAt b j ∧ inoAt b' j = inoAt b j

/-- A name is removed from a table, in entry `m`. -/
structure Removed (b b' : Bytes) (m : ℕ) (n : CString) : Prop where
  two_le : 2 ≤ m
  lt : m < 19
  valid : validAt b m = true
  name : nameAt b m = n
  ok : TableOk b'
  free : validAt b' m = false
  other : ∀ j < 19, j ≠ m →
    nameAt b' j = nameAt b j ∧ validAt b' j = validAt b j ∧ inoAt b' j = inoAt b j

/-- The table that `dir_add` writes. -/
theorem TableOk.added {len : ℕ} (h : TableOk b) (hm : m < 19) (hfree : validAt b m = false)
    (hlen : n.length ≤ 207) (h0 : 0 ∉ n) (hne : n ≠ []) (hnew : ∀ j < 19, nameAt b j ≠ n)
    (hc : c < 65536) : Added b ((setEntry b m n c len 1).slice 0 4096) m n c := by
  have hslice : ∀ {j}, j < 19 → _ := fun hj => entry_slice (b := setEntry b m n c len 1) hj
  have h2 := h.two_le_of_free hfree
  refine ⟨h2, hm, hfree, hnew, (h.replace h2 hlen (h.add hlen h0 hne hnew)).slice, ?_, ?_, ?_,
    fun j hj hjm => ?_⟩
  · exact (hslice hm).1.trans (nameAt_setEntry hlen h0)
  · exact (hslice hm).2.1.trans (validAt_setEntry (by decide))
  · exact (hslice hm).2.2.trans (inoAt_setEntry hc)
  · exact ⟨(hslice hj).1.trans (entry_setEntry_of_ne hlen hjm).1,
      (hslice hj).2.1.trans (entry_setEntry_of_ne hlen hjm).2.1,
      (hslice hj).2.2.trans (entry_setEntry_of_ne hlen hjm).2.2⟩

/-- The table that `dir_remove` writes. -/
theorem TableOk.removed (h : TableOk b) (h2 : 2 ≤ m) (hm : m < 19) (hv : validAt b m = true)
    (hname : nameAt b m = n) : Removed b ((setEntry b m [] 0 0 0).slice 0 4096) m n := by
  have hslice : ∀ {j}, j < 19 → _ := fun hj => entry_slice (b := setEntry b m [] 0 0 0) hj
  refine ⟨h2, hm, hv, hname, (h.replace h2 (Nat.zero_le _) h.remove).slice, ?_, fun j hj hjm => ?_⟩
  · exact (hslice hm).2.1.trans (validAt_setEntry (by decide))
  · exact ⟨(hslice hj).1.trans (entry_setEntry_of_ne (Nat.zero_le _) hjm).1,
      (hslice hj).2.1.trans (entry_setEntry_of_ne (Nat.zero_le _) hjm).2.1,
      (hslice hj).2.2.trans (entry_setEntry_of_ne (Nat.zero_le _) hjm).2.2⟩

/-- The valid flags of a table are 0 or 1. -/
def Flagged (b : Bytes) : Prop := ∀ j < 19, get b (entValid j) ≤ 1

/-- The flag depends on the bytes of its entry only. -/
theorem flag_congr (h : ∀ k, 214 * j ≤ k → k < 214 * j + 214 → b' k = b k) :
    get b' (entValid j) = get b (entValid j) :=
  Bytes.getNat_congr fun k hk => by
    simp only [entValid, direntSize] at hk ⊢
    exact h _ (by omega) (by omega)

theorem Flagged.slice (h : Flagged b) : Flagged (b.slice 0 4096) := fun j hj => by
  rw [flag_congr fun k _ hk => by rw [Bytes.slice_of_lt (by omega), Nat.zero_add]]
  exact h j hj

theorem Flagged.setEntry {ino len valid : ℕ} (h : Flagged b) (hlen : n.length ≤ 207)
    (hv : valid ≤ 1) : Flagged (setEntry b m n ino len valid) := fun j hj => by
  by_cases hjm : j = m
  · subst hjm
    unfold Rufs.setEntry
    rw [get_set_self]
    exact (Nat.mod_le _ _).trans hv
  · rw [flag_congr fun k h1 h2 => setEntry_of_outside hlen (by omega)]
    exact h j hj

/-- The table of a new directory. -/
theorem Flagged.initDirentTable {curr par : ℕ} : Flagged (initDirentTable b curr par 19) := by
  intro j hj
  rw [flag_congr fun k _ hk => initDirentTable_of_lt hj hk, Rufs.initDirentTable]
  unfold Rufs.setEntry
  split
  · rw [get_set_self]
    exact (by decide : 1 % 256 ^ 2 ≤ 1)
  · split <;> rw [get_set_self]
    · exact (by decide : 1 % 256 ^ 2 ≤ 1)
    · exact (by decide : 0 % 256 ^ 2 ≤ 1)

theorem inoAt_initDirentTable {curr par : ℕ} (hcurr : curr < 65536) (hpar : par < 65536) :
    inoAt (initDirentTable b curr par 19) 0 = par ∧
      inoAt (initDirentTable b curr par 19) 1 = curr := by
  have hino : ∀ {j}, j < 19 → _ := fun {j} hj => (entry_congr (i := j) fun k _ hk =>
    @initDirentTable_of_lt b j 19 curr par k hj hk).2.2
  exact ⟨(hino (by decide)).trans (inoAt_setEntry hpar),
    (hino (by decide)).trans (inoAt_setEntry hcurr)⟩

/-- The table of directory `i`, whose parent is `q`: the flags are 0 or 1, and `"."` and `".."` have
these numbers. -/
structure Linked (b : Bytes) (i q : ℕ) : Prop where
  flags : Flagged b
  parent : inoAt b 0 = q
  self : inoAt b 1 = i

theorem Linked.new (hi : i < 65536) (hq : q < 65536) :
    Linked ((initDirentTable b i q maxDirEntries).slice 0 4096) i q where
  flags := Flagged.initDirentTable.slice
  parent := (entry_slice (by decide)).2.2.trans (inoAt_initDirentTable hi hq).1
  self := (entry_slice (by decide)).2.2.trans (inoAt_initDirentTable hi hq).2

/-- The first two entries stay when another is stored. -/
theorem Linked.congr (h : Linked b i q) (hflags : Flagged b') (h2 : 2 ≤ m)
    (hother : ∀ j < 19, j ≠ m →
      nameAt b' j = nameAt b j ∧ validAt b' j = validAt b j ∧ inoAt b' j = inoAt b j) :
    Linked b' i q where
  flags := hflags
  parent := (hother 0 (by decide) (by omega)).2.2.trans h.parent
  self := (hother 1 (by decide) (by omega)).2.2.trans h.self

/-! ## The operations -/

/-- The table of a directory is written, and then its inode. -/
theorem writeTable_view {size : ℕ} (hm : fs.Mounted) (hq : q < 1024) (hino : get x .ino = q)
    (hk : k < 16384) (hptr : direct x 0 = 67 + k) {fs' : Fs}
    (hfs : writeDirInode env { fs with disk := bioWrite fs.disk (direct x 0) b } x size = fs') :
    fs'.Mounted ∧ ∃ y, Touched x y ∧ SizeIs y (size % 2 ^ 32) ∧
      fs'.view = (fs.view.setBlk k (b.slice 0 4096)).setSlot q y := by
  have hm' := hm.setDisk (bioWrite fs.disk (direct x 0) b)
  obtain ⟨hmounted, y, hsame, hsize, hview⟩ := @writeDirInode_view _ env x q size hm' hq hino
  rw [bioWrite_view hk hptr, hfs] at hview
  exact ⟨hfs ▸ hmounted, y, hsame, hsize, hview⟩

/-- **`dir_add`** adds a name, or changes nothing. -/
theorem dirAdd_cases (h : Inv fs.view T) (hm : fs.Mounted) (hq : q ∈ T)
    (hd : IsDir (fs.view.slot q)) (hlen : n.length ≤ 207) (h0 : 0 ∉ n) (hne : n ≠ [])
    (hc : c < 65536) :
    (∃ r, r ≠ 0 ∧ dirAdd env fs (fs.view.slot q) c n = (r, fs)) ∨
    ∃ fs' k m b x, dirAdd env fs (fs.view.slot q) c n = (0, fs') ∧ fs'.Mounted ∧ k < 16384 ∧
      direct (fs.view.slot q) 0 = 67 + (k : ℕ) ∧ fs.view.dbit k = true ∧
      Added (fs.view.table q) b m n c ∧ (Flagged (fs.view.table q) → Flagged b) ∧
      Touched (fs.view.slot q) x ∧
      SizeIs x ((get (fs.view.slot q) .size + direntSize) % 2 ^ 32) ∧
      fs'.view = (fs.view.setBlk k b).setSlot q x := by
  have ht := h.tracked q hq
  obtain ⟨k, hk, heq, hbit, -, -⟩ := h.table hq hd
  unfold dirAdd
  dsimp only
  rw [ht.ino, dirFind_eq h hm hq hd, bioRead_table h hq hd]
  split
  next => exact .inl ⟨_, by decide, rfl⟩
  next hfind =>
    have hnew : ∀ j < 19, nameAt (fs.view.table q) j ≠ n := by
      refine (findName_eq_none (ht.dir hd).table.toEntries h0 hne).1 ?_
      simpa using hfind
    split
    next m hfirst =>
      obtain ⟨-, hlt, hfree, -⟩ := firstFrom_eq_some.1 hfirst
      rw [maxDirEntries_eq] at hlt
      have hfree : validAt (fs.view.table q) m = false := by
        unfold validAt
        simpa using hfree
      have htable := (ht.dir hd).table
      obtain ⟨hmounted, x, hsame, hsize, hview⟩ := writeTable_view hm ht.lt ht.ino hk heq rfl
      exact .inr ⟨_, k, m, _, x, rfl, hmounted, hk, heq, hbit,
        htable.added (by omega) hfree hlen h0 hne hnew hc,
        fun hflag => (hflag.setEntry hlen le_rfl).slice, hsame, hsize, hview⟩
    next => exact .inl ⟨_, by decide, rfl⟩

/-- **`dir_remove`** removes the entry with a name that is there. -/
theorem dirRemove_eq (hm : fs.Mounted) (hq : q < 1024) (hino : get x .ino = q) (hk : k < 16384)
    (hptr : direct x 0 = 67 + k) (hok : TableOk (fs.view.blk k)) (hn : NameOk n) (h2 : 2 ≤ m)
    (h19 : m < 19) (hv : validAt (fs.view.blk k) m = true) (hname : nameAt (fs.view.blk k) m = n) :
    ∃ fs' b y, dirRemove env fs x n = (0, fs') ∧ fs'.Mounted ∧ Removed (fs.view.blk k) b m n ∧
      (Flagged (fs.view.blk k) → Flagged b) ∧ Touched x y ∧
      SizeIs y ((get x .size + (2 ^ 32 - direntSize)) % 2 ^ 32) ∧
      fs'.view = (fs.view.setBlk k b).setSlot q y := by
  have hfind : findName (fs.view.blk k) n = some m :=
    (findName_eq hok.toEntries hn.ended hn.ne_nil).2 ⟨h19, hv, hname⟩
  unfold findName at hfind
  unfold dirRemove
  dsimp only
  rw [bioRead_blk hk hptr, hfind]
  obtain ⟨hmounted, y, hsame, hsize, hview⟩ := writeTable_view hm hq hino hk hptr rfl
  exact ⟨_, _, y, rfl, hmounted, hok.removed h2 h19 hv hname,
    fun hflag => (hflag.setEntry (Nat.zero_le _) (Nat.zero_le _)).slice, hsame, hsize, hview⟩

end UserOS.Rufs
