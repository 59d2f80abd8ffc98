import Mathlib.Data.Finmap
import Mathlib.Data.Finset.Card
import UserOS.Lib.Run
import UserOS.Rufs.Directories

/-!
# Directories as finite maps

What a directory block is for: a finite map from names to inode numbers. The calls of `dir_add` and
`dir_remove` on the block are the operations of the map.

* `Represents`: the entries of the table are the bindings of a map.
* `Holds.add`, `Holds.remove`: one call.
* `directory_is_map`: every run, and what `dir_find` and `rufs_readdir` see after it.
-/

namespace UserOS.Rufs

open Lib

/-- A finite map from names to inode numbers. -/
abbrev Bindings := Finmap fun _ : CString => ℕ

namespace Bindings

/-- The map of a new directory. -/
def new (curr par : ℕ) : Bindings := ((∅ : Bindings).insert dotDot par).insert dot curr

/-- Add a binding. -/
def add (m : Bindings) (n : CString) (c : ℕ) : ℤ × Bindings :=
  if n ∈ m then (-eexist, m)
  else if m.keys.card = maxDirEntries then (-enospc, m)
  else (0, m.insert n c)

/-- Remove a binding. -/
def remove (m : Bindings) (n : CString) : ℤ × Bindings :=
  if n ∈ m then (0, m.erase n) else (-1, m)

end Bindings

/-- The table holds the bindings of the map. The valid flags are 0 or 1. -/
structure Represents (m : Bindings) (b : Bytes) : Prop extends Entries b where
  flag : ∀ i < 19, get b (entValid i) ≤ 1
  lookup : ∀ n c, m.lookup n = some c ↔
    ∃ i < 19, validAt b i = true ∧ nameAt b i = n ∧ inoAt b i = c

variable {m m' : Bindings} {b : Bytes} {fs fs' : Fs} {env : Env} {n : CString}
  {i j k c curr par : ℕ} {r : ℤ}

/-! ## Tables and maps -/

namespace Represents

theorem mem_iff (h : Represents m b) : n ∈ m ↔ ∃ i < 19, validAt b i = true ∧ nameAt b i = n := by
  rw [Finmap.mem_iff]
  constructor
  · intro ⟨c, hc⟩
    obtain ⟨i, hi, hv, hname, -⟩ := (h.lookup n c).1 hc
    exact ⟨i, hi, hv, hname⟩
  · intro ⟨i, hi, hv, hname⟩
    exact ⟨inoAt b i, (h.lookup n _).2 ⟨i, hi, hv, hname, rfl⟩⟩

/-- **Looking up** a name. -/
theorem find (h : Represents m b) (h0 : 0 ∉ n) (hne : n ≠ []) :
    (findName b n).map (inoAt b) = m.lookup n := by
  apply Option.ext
  intro c
  rw [Option.map_eq_some_iff, h.lookup]
  constructor
  · intro ⟨i, hi, hc⟩
    obtain ⟨hlt, hv, hname⟩ := (findName_eq h.toEntries h0 hne).1 hi
    exact ⟨i, hlt, hv, hname, hc⟩
  · intro ⟨i, hlt, hv, hname, hc⟩
    exact ⟨i, (findName_eq h.toEntries h0 hne).2 ⟨hlt, hv, hname⟩, hc⟩

/-- The names bound are those of the valid entries. -/
theorem keys_eq (h : Represents m b) :
    m.keys = ((Finset.range 19).filter fun i => validAt b i = true).image (nameAt b) := by
  ext n
  rw [Finmap.mem_keys, h.mem_iff, Finset.mem_image]
  simp only [Finset.mem_filter, Finset.mem_range, and_assoc]

theorem card_eq (h : Represents m b) :
    m.keys.card = ((Finset.range 19).filter fun i => validAt b i = true).card := by
  rw [h.keys_eq]
  apply Finset.card_image_of_injOn
  intro i hi j hj hname
  rw [Finset.mem_coe, Finset.mem_filter, Finset.mem_range] at hi hj
  exact h.inj i hi.1 j hj.1 hi.2 hname

theorem card_le (h : Represents m b) : m.keys.card ≤ maxDirEntries := by
  rw [h.card_eq, maxDirEntries_eq]
  exact (Finset.card_filter_le _ _).trans_eq (Finset.card_range 19)

/-- The map is full when no entry is free. -/
theorem full_iff (h : Represents m b) :
    m.keys.card = maxDirEntries ↔ ∀ i < 19, validAt b i = true := by
  rw [h.card_eq, maxDirEntries_eq]
  constructor
  · intro hcard i hi
    have hall := Finset.eq_of_subset_of_card_le (Finset.filter_subset _ (Finset.range 19))
      (by rw [hcard, Finset.card_range])
    have hmem : i ∈ (Finset.range 19).filter fun i => validAt b i = true := by
      rw [hall]
      exact Finset.mem_range.2 hi
    exact (Finset.mem_filter.1 hmem).2
  · intro hall
    rw [Finset.filter_true_of_mem fun i hi => hall i (Finset.mem_range.1 hi), Finset.card_range]

theorem slice (h : Represents m b) : Represents m (b.slice 0 4096) where
  toEntries := h.toEntries.slice
  flag := Flagged.slice h.flag
  lookup n c := by
    rw [h.lookup]
    refine exists_congr fun i => and_congr_right fun hi => ?_
    rw [(entry_slice hi).1, (entry_slice hi).2.1, (entry_slice hi).2.2]

/-- **A binding is added** in an entry that is free. -/
theorem insert (h : Represents m b) (hj : j < 19) (hfree : validAt b j = false)
    (hlen : n.length ≤ 207) (h0 : 0 ∉ n) (hne : n ≠ []) (hnew : n ∉ m) (hc : c < 65536) :
    Represents (m.insert n c) (setEntry b j n c n.length 1) where
  toEntries := by
    refine h.toEntries.add hlen h0 hne fun i hi hname => ?_
    by_cases hv : validAt b i = true
    · exact hnew (h.mem_iff.2 ⟨i, hi, hv, hname⟩)
    · exact hne (hname.symm.trans (h.empty i hi (by simpa using hv)))
  flag := Flagged.setEntry h.flag hlen le_rfl
  lookup n' c' := by
    have hself : validAt (setEntry b j n c n.length 1) j = true := validAt_setEntry (by decide)
    have hname : nameAt (setEntry b j n c n.length 1) j = n := nameAt_setEntry hlen h0
    have hino : inoAt (setEntry b j n c n.length 1) j = c := inoAt_setEntry hc
    have hother : ∀ i, i ≠ j → _ := fun i hij =>
      @entry_setEntry_of_ne b j i c n.length 1 n hlen hij
    by_cases hn : n' = n
    · rw [hn, Finmap.lookup_insert, Option.some.injEq]
      constructor
      · intro hcc
        exact ⟨j, hj, hself, hname, hino.trans hcc⟩
      · intro ⟨i, hi, hv, hni, hci⟩
        by_cases hij : i = j
        · rw [← hci, hij, hino]
        · obtain ⟨ho1, ho2, -⟩ := hother i hij
          exact absurd (h.mem_iff.2 ⟨i, hi, ho2 ▸ hv, ho1.symm.trans hni⟩) hnew
    · rw [Finmap.lookup_insert_of_ne m hn, h.lookup]
      refine exists_congr fun i => and_congr_right fun hi => ?_
      by_cases hij : i = j
      · rw [hij, hfree, hname]
        simp [Ne.symm hn]
      · obtain ⟨ho1, ho2, ho3⟩ := hother i hij
        rw [ho1, ho2, ho3]

/-- **A binding is removed.** -/
theorem erase (h : Represents m b) (hj : j < 19) (hname : nameAt b j = n) :
    Represents (m.erase n) (setEntry b j [] 0 0 0) where
  toEntries := h.toEntries.remove
  flag := Flagged.setEntry h.flag (Nat.zero_le _) (Nat.zero_le _)
  lookup n' c' := by
    have hself : validAt (setEntry b j [] 0 0 0) j = false := validAt_setEntry (by decide)
    have hother : ∀ i, i ≠ j → _ := fun i hij =>
      @entry_setEntry_of_ne b j i 0 0 0 [] (Nat.zero_le _) hij
    by_cases hn : n' = n
    · rw [hn, Finmap.lookup_erase]
      refine iff_of_false (fun hf => by cases hf) fun ⟨i, hi, hvi, hni, _⟩ => ?_
      by_cases hij : i = j
      · rw [hij, hself] at hvi
        cases hvi
      · obtain ⟨ho1, ho2, -⟩ := hother i hij
        exact hij (h.inj i hi j hj (ho2 ▸ hvi) (ho1.symm.trans (hni.trans hname.symm)))
    · rw [Finmap.lookup_erase_ne hn, h.lookup]
      refine exists_congr fun i => and_congr_right fun hi => ?_
      by_cases hij : i = j
      · rw [hij, hself, hname]
        simp [Ne.symm hn]
      · obtain ⟨ho1, ho2, ho3⟩ := hother i hij
        rw [ho1, ho2, ho3]

/-- **A new table** binds `"."` and `".."`. -/
theorem new (hcurr : curr < 65536) (hpar : par < 65536) :
    Represents (.new curr par) (initDirentTable b curr par 19) where
  toEntries := initDirentTable_ok.toEntries
  flag := Flagged.initDirentTable
  lookup n c := by
    have hentry : ∀ {i}, i < 19 → _ := fun hi =>
      @entry_initDirentTable b _ 19 curr par hi
    obtain ⟨hino0, hino1⟩ := @inoAt_initDirentTable b curr par hcurr hpar
    constructor
    · intro hlookup
      unfold Bindings.new at hlookup
      by_cases hdot : n = dot
      · rw [hdot, Finmap.lookup_insert, Option.some.injEq] at hlookup
        exact ⟨1, by decide, (hentry (by decide)).2, (hentry (by decide)).1.trans hdot.symm,
          hino1.trans hlookup⟩
      · rw [Finmap.lookup_insert_of_ne _ hdot] at hlookup
        by_cases hdotDot : n = dotDot
        · rw [hdotDot, Finmap.lookup_insert, Option.some.injEq] at hlookup
          exact ⟨0, by decide, (hentry (by decide)).2, (hentry (by decide)).1.trans hdotDot.symm,
            hino0.trans hlookup⟩
        · rw [Finmap.lookup_insert_of_ne _ hdotDot, Finmap.lookup_empty] at hlookup
          cases hlookup
    · rintro ⟨i, hi, hv, hname, hc⟩
      rw [(hentry hi).2, decide_eq_true_eq] at hv
      rw [(hentry hi).1] at hname
      unfold Bindings.new
      obtain rfl | rfl : i = 0 ∨ i = 1 := by omega
      · rw [if_pos rfl] at hname
        rw [← hname, Finmap.lookup_insert_of_ne _ (by decide), Finmap.lookup_insert, ← hc, hino0]
      · rw [if_neg (by decide), if_pos rfl] at hname
        rw [← hname, Finmap.lookup_insert, ← hc, hino1]

end Represents

/-! ## Listing -/

/-- The names of the valid entries, from `i` on. -/
def listNames (b : Bytes) (n i : ℕ) : List CString :=
  ((List.range' i n).filter fun j => validAt b j).map (nameAt b)

/-- **The loop of `rufs_readdir`** hands over the names, when the callback takes them all. -/
theorem fillLoop_eq {σ : Type} {filler : σ → CString → ℤ × σ} {buffer : σ} {l : ℕ}
    (hb : Entries b) (hflag : ∀ i < 19, get b (entValid i) ≤ 1)
    (htake : ∀ s n, (filler s n).1 = 0) (hl : i + l ≤ 19) :
    fillLoop filler b l i buffer =
      (0, (listNames b l i).foldl (fun s n => (filler s n).2) buffer) := by
  induction l generalizing i buffer with
  | zero => rfl
  | succ l ih =>
    have hi : i < 19 := by omega
    have hvalid : get b (entValid i) = 1 ↔ validAt b i = true := by
      have hle := hflag i hi
      unfold validAt
      rw [bne_iff_ne]
      omega
    have hstr : b.readStr (entName i) (blockSize - entName i) = nameAt b i := by
      refine Bytes.readStr_of_le (hb.ended i hi) ?_
      unfold blockSize entName direntSize
      omega
    rw [fillLoop, hstr]
    unfold listNames
    rw [List.range'_succ, List.filter_cons]
    by_cases hv : validAt b i = true
    · rw [if_pos (hvalid.2 hv), if_pos hv, List.map_cons, List.foldl_cons]
      dsimp only
      rw [if_neg (not_not_intro (htake _ _))]
      exact ih (by omega)
    · rw [if_neg (mt hvalid.1 hv), if_neg hv]
      exact ih (by omega)

theorem mem_listNames : n ∈ listNames b 19 0 ↔ ∃ i < 19, validAt b i = true ∧ nameAt b i = n := by
  unfold listNames
  rw [List.mem_map]
  simp only [List.mem_filter, List.mem_range'_1, Nat.zero_le, Nat.zero_add, true_and, and_assoc]

/-- Every name is listed once. -/
theorem listNames_nodup (hb : Entries b) : (listNames b 19 0).Nodup := by
  unfold listNames
  refine List.Nodup.map_on (fun i hi j hj hname => ?_) ((List.nodup_range').filter _)
  rw [List.mem_filter, List.mem_range'_1] at hi hj
  exact hb.inj i (by omega) j (by omega) hi.2 hname

/-! ## Calls -/

/-- A name that fits into an entry. -/
structure NameFits (n : CString) : Prop where
  ended : 0 ∉ n
  ne_nil : n ≠ []
  short : n.length ≤ 207

/-- The calls that change a directory block. -/
inductive DirOp
  | add (n : CString) (fIno : ℕ)
  | remove (n : CString)

namespace DirOp

/-- The names fit, and inode numbers have 16 bits. -/
def Fits : DirOp → Prop
  | .add n fIno => NameFits n ∧ fIno < 65536
  | .remove n => NameFits n

/-- A call on directory `i`, whose inode is read again. -/
def call (env : Env) (fs : Fs) (i : ℕ) : DirOp → ℤ × Fs
  | .add n fIno => dirAdd env fs (readi fs i) fIno n
  | .remove n => dirRemove env fs (readi fs i) n

/-- The operation of the map. -/
def spec (m : Bindings) : DirOp → ℤ × Bindings
  | .add n fIno => m.add n fIno
  | .remove n => m.remove n

end DirOp

/-- A call on directory `i`, with its result. -/
def DirCall (i : ℕ) (fs : Fs) (e : Env × DirOp × ℤ) (fs' : Fs) : Prop :=
  e.2.1.call e.1 fs i = (e.2.2, fs')

/-- The same operation of the map, with the same result. -/
def MapCall (m : Bindings) (e : Env × DirOp × ℤ) (m' : Bindings) : Prop :=
  e.2.1.spec m = (e.2.2, m')

/-- Directory `i` has its table in data block `k`. -/
structure TableAt (i k : ℕ) (fs : Fs) : Prop where
  mounted : fs.Mounted
  inode : i < 1024
  block : k < 16384
  ino : get (readi fs i) .ino = i
  ptr : direct (readi fs i) 0 = 67 + k

/-- The table of directory `i` holds the map. -/
structure Holds (i k : ℕ) (m : Bindings) (fs : Fs) : Prop extends TableAt i k fs where
  table : Represents m (bioRead fs.disk (67 + k))

theorem TableAt.dirFind_eq (h : TableAt i k fs) : dirFind fs i n =
    (findName (bioRead fs.disk (67 + k)) n).map (inoAt (bioRead fs.disk (67 + k))) := by
  rw [← h.ptr]
  rfl

/-- The table and the inode are written. -/
theorem TableAt.write {size : ℕ} (h : TableAt i k fs)
    (hfs : writeDirInode env { fs with disk := bioWrite fs.disk (direct (readi fs i) 0) b }
      (readi fs i) size = fs') :
    TableAt i k fs' ∧ bioRead fs'.disk (67 + k) = b.slice 0 4096 := by
  obtain ⟨hm', y, hsame, -, hview⟩ := writeTable_view h.mounted h.inode h.ino h.block h.ptr hfs
  have hread : readi fs' i = y := by
    rw [readi_eq hm' h.inode, hview]
    exact Function.update_self ..
  refine ⟨⟨hm', h.inode, h.block, ?_, ?_⟩, ?_⟩
  · rw [hread, hsame.ino, h.ino]
  · rw [hread, hsame.direct 0 (by decide), h.ptr]
  · rw [bioRead_blk h.block rfl, hview]
    exact Function.update_self ..

namespace Holds

theorem dirFind (h : Holds i k m fs) (hn : NameFits n) : dirFind fs i n = m.lookup n := by
  rw [← h.table.find hn.ended hn.ne_nil]
  exact h.dirFind_eq

theorem write {size : ℕ} (h : Holds i k m fs) (hb : Represents m' b)
    (hfs : writeDirInode env { fs with disk := bioWrite fs.disk (direct (readi fs i) 0) b }
      (readi fs i) size = fs') : Holds i k m' fs' := by
  obtain ⟨hat, hblk⟩ := h.toTableAt.write hfs
  exact ⟨hat, hblk ▸ hb.slice⟩

/-- **`dir_add`** adds a binding, and a call that fails changes nothing. -/
theorem add (h : Holds i k m fs) (hn : NameFits n) (hc : c < 65536) :
    ∃ fs', dirAdd env fs (readi fs i) c n = ((m.add n c).1, fs') ∧
      Holds i k (m.add n c).2 fs' ∧ ((m.add n c).1 ≠ 0 → fs' = fs) := by
  unfold dirAdd Bindings.add
  dsimp only
  rw [h.ino, h.dirFind hn, h.ptr]
  by_cases hmem : n ∈ m
  · rw [if_pos (Finmap.lookup_isSome.2 hmem), if_pos hmem]
    exact ⟨fs, rfl, h, fun _ => rfl⟩
  rw [if_neg (mt Finmap.lookup_isSome.1 hmem), if_neg hmem]
  cases hfirst : firstFrom (fun j => get (bioRead fs.disk (67 + (k : ℤ))) (entValid j) == 0)
    maxDirEntries 0 with
  | none =>
    have hall : ∀ j < 19, validAt (bioRead fs.disk (67 + (k : ℤ))) j = true := fun j hj => by
      have := firstFrom_eq_none.1 hfirst j (Nat.zero_le j) (by rwa [maxDirEntries_eq, Nat.zero_add])
      unfold validAt
      simpa using this
    rw [if_pos (h.table.full_iff.2 hall)]
    exact ⟨fs, rfl, h, fun _ => rfl⟩
  | some j =>
    obtain ⟨-, hlt, hfree, -⟩ := firstFrom_eq_some.1 hfirst
    rw [maxDirEntries_eq, Nat.zero_add] at hlt
    have hfree : validAt (bioRead fs.disk (67 + (k : ℤ))) j = false := by
      unfold validAt
      simpa using hfree
    rw [if_neg fun hcard => by
      rw [h.table.full_iff.1 hcard j hlt] at hfree
      cases hfree]
    refine ⟨_, rfl, ?_, fun hr => absurd rfl hr⟩
    rw [← h.ptr] at hfree ⊢
    exact h.write (h.ptr ▸ h.table.insert hlt (h.ptr ▸ hfree) hn.short hn.ended hn.ne_nil hmem hc)
      rfl

/-- **`dir_remove`** removes a binding, and a call that fails changes nothing. -/
theorem remove (h : Holds i k m fs) (hn : NameFits n) :
    ∃ fs', dirRemove env fs (readi fs i) n = ((m.remove n).1, fs') ∧
      Holds i k (m.remove n).2 fs' ∧ ((m.remove n).1 ≠ 0 → fs' = fs) := by
  have hfind := h.table.find hn.ended hn.ne_nil
  unfold findName at hfind
  unfold dirRemove Bindings.remove
  dsimp only
  rw [h.ptr]
  cases hfirst : firstFrom
    (fun j => (bioRead fs.disk (67 + (k : ℤ))).strEq (entName j) n) maxDirEntries 0 with
  | none =>
    rw [hfirst, Option.map_none] at hfind
    rw [if_neg (Finmap.lookup_eq_none.1 hfind.symm)]
    exact ⟨fs, rfl, h, fun _ => rfl⟩
  | some j =>
    have hmem : n ∈ m := by
      rw [hfirst, Option.map_some] at hfind
      exact Finmap.mem_of_lookup_eq_some hfind.symm
    obtain ⟨hj, -, hname⟩ := (findName_eq h.table.toEntries hn.ended hn.ne_nil).1 hfirst
    rw [if_pos hmem]
    refine ⟨_, rfl, ?_, fun hr => absurd rfl hr⟩
    rw [← h.ptr]
    exact h.write (h.ptr ▸ h.table.erase hj hname) rfl

/-- **One call.** -/
theorem call {op : DirOp} (h : Holds i k m fs) (hop : op.Fits) :
    ∃ fs', op.call env fs i = ((op.spec m).1, fs') ∧ Holds i k (op.spec m).2 fs' ∧
      ((op.spec m).1 ≠ 0 → fs' = fs) := by
  cases op with
  | add n c =>
    obtain ⟨hn, hc⟩ := hop
    exact @Holds.add m fs env n i k c h hn hc
  | remove n => exact @Holds.remove m fs env n i k h hop

/-- The names that `rufs_readdir` hands over are those bound. -/
theorem readdir {path : CString} (h : Holds i k m fs)
    (hpath : getNodeByPath fs path 0 = some (some (readi fs i))) :
    ∃ names : List CString, names.Nodup ∧ (∀ n, n ∈ names ↔ n ∈ m) ∧
      ∀ (σ : Type) (filler : σ → CString → ℤ × σ) (buffer : σ),
        (∀ s n, (filler s n).1 = 0) → rufsReaddir fs path filler buffer =
          some (0, names.foldl (fun s n => (filler s n).2) buffer) := by
  refine ⟨_, listNames_nodup h.table.toEntries, fun n => ?_, fun σ filler buffer htake => ?_⟩
  · rw [mem_listNames, h.table.mem_iff]
  · unfold rufsReaddir
    rw [hpath, Option.map_some]
    dsimp only
    rw [h.ptr, maxDirEntries_eq, fillLoop_eq h.table.toEntries h.table.flag htake le_rfl]

end Holds

/-! ## Runs -/

/-- The calls of a run are the operations of the map, with the same results. -/
theorem dirCalls_simulate {es : List (Env × DirOp × ℤ)} (h : Holds i k m fs)
    (hrun : Run (Guarded (fun _ e => e.2.1.Fits) (DirCall i)) fs es fs') :
    ∃ m', Run MapCall m es m' ∧ Holds i k m' fs' := by
  induction hrun with
  | nil => exact ⟨m, .nil, h⟩
  | snoc _ hstep ih =>
    obtain ⟨m', hrun', h'⟩ := ih
    obtain ⟨hop, hcall⟩ := hstep
    obtain ⟨fs'', heq, h'', -⟩ := h'.call hop
    unfold DirCall at hcall
    rw [hcall, Prod.mk.injEq] at heq
    obtain ⟨hr, rfl⟩ := heq
    exact ⟨_, hrun'.snoc (Prod.ext hr.symm rfl), h''⟩

/-- **A directory is a finite map.** After any calls on a new directory its block holds the map that
the same operations make, with the same results; a call that fails changes nothing, `dir_find` looks
names up in the map, and `rufs_readdir` lists each of its names once. -/
theorem directory_is_map {es : List (Env × DirOp × ℤ)} (hm : fs.Mounted) (hi : i < 1024)
    (hk : k < 16384) (hino : get (readi fs i) .ino = i) (hptr : direct (readi fs i) 0 = 67 + k)
    (hcurr : curr < 65536) (hpar : par < 65536) (hnew : bioRead fs.disk (67 + k) =
      (initDirentTable b curr par maxDirEntries).slice 0 blockSize)
    (hrun : Run (Guarded (fun _ e => e.2.1.Fits) (DirCall i)) fs es fs') :
    ∃ m, Run MapCall (.new curr par) es m ∧ m.keys.card ≤ maxDirEntries ∧
      (∀ env (op : DirOp) r fs'', op.Fits → op.call env fs' i = (r, fs'') →
        r = (op.spec m).1 ∧ (r ≠ 0 → fs'' = fs')) ∧
      (∀ n, NameFits n → dirFind fs' i n = m.lookup n) ∧
      ∀ path, getNodeByPath fs' path 0 = some (some (readi fs' i)) →
        ∃ names : List CString, names.Nodup ∧ (∀ n, n ∈ names ↔ n ∈ m) ∧
          ∀ (σ : Type) (filler : σ → CString → ℤ × σ) (buffer : σ),
            (∀ s n, (filler s n).1 = 0) → rufsReaddir fs' path filler buffer =
              some (0, names.foldl (fun s n => (filler s n).2) buffer) := by
  have hstart : Holds i k (.new curr par) fs :=
    ⟨⟨hm, hi, hk, hino, hptr⟩, hnew ▸ (Represents.new hcurr hpar).slice⟩
  obtain ⟨m, hmap, h⟩ := dirCalls_simulate hstart hrun
  refine ⟨m, hmap, h.table.card_le, fun env op r fs'' hop hcall => ?_, fun n hn => h.dirFind hn,
    fun path hpath => h.readdir hpath⟩
  obtain ⟨fs₁, heq, -, hfail⟩ := @Holds.call m fs' env i k op h hop
  rw [hcall, Prod.mk.injEq] at heq
  obtain ⟨hr, rfl⟩ := heq
  exact ⟨hr, fun hne => hfail (hr ▸ hne)⟩

/-- A disk whose inode 0 is a directory with a new table in the first data block. -/
def oneDirectory : Fs :=
  let disk := bioWrite Bytes.zero 3 (setDirect Bytes.zero 0 67)
  Fs.opened (bioWrite disk 67 (initDirentTable Bytes.zero 0 0 maxDirEntries)) newSuperBlock

theorem oneDirectory_table : bioRead oneDirectory.disk (67 + (0 : ℕ)) =
    (initDirentTable Bytes.zero 0 0 maxDirEntries).slice 0 blockSize := by
  have hview := @bioWrite_view
    (Fs.opened (bioWrite Bytes.zero 3 (setDirect Bytes.zero 0 67)) newSuperBlock) 0
    (initDirentTable Bytes.zero 0 0 maxDirEntries) 67 (by decide) rfl
  rw [bioRead_blk (k := 0) (by decide) rfl]
  refine (congrArg (fun v : View => v.blk 0) hview).trans ?_
  rw [View.setBlk_blk, Function.update_self]
  rfl

/-- One name is added to a new directory. -/
theorem directory_is_map_add : ∃ es m, es.length = 1 ∧ Run MapCall (.new 0 0) es m ∧
    m.keys.card ≤ maxDirEntries := by
  have hfits : (DirOp.add [97] 5).Fits := ⟨⟨by decide, by decide, by decide⟩, by decide⟩
  obtain ⟨r, fs', hcall⟩ : ∃ r fs', (DirOp.add [97] 5).call (.mk (fun _ => 0) 0 0) oneDirectory 0 =
      (r, fs') := ⟨_, _, Prod.mk.eta.symm⟩
  obtain ⟨m, hrun, hcard, -⟩ := @directory_is_map Bytes.zero oneDirectory fs' 0 0 0 0
    [(.mk (fun _ => 0) 0 0, .add [97] 5, r)] rfl (by decide) (by decide) (by decide +kernel)
    (by decide +kernel) (by decide) (by decide) oneDirectory_table (Run.single ⟨hfits, hcall⟩)
  exact ⟨_, m, rfl, hrun, hcard⟩

end UserOS.Rufs
