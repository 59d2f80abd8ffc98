import UserOS.Rufs.FileSystem

/-!
# Directory tables

A directory block holds 19 entries. The names of the valid entries differ, the other entries have
the empty name, and the first two entries of a directory in use are `".."` and `"."`.

* `findName_eq`: the entry that `dir_find` and `dir_remove` look for.
* `initDirentTable_ok`, `Entries.add`, `Entries.remove`: the tables the program makes are well
  formed.
-/

namespace UserOS.Rufs

open Lib

/-! ## Entries -/

/-- The name of entry `i`. -/
def nameAt (b : Bytes) (i : ℕ) : CString := b.readStr (entName i) 208

/-- Entry `i` is valid. -/
def validAt (b : Bytes) (i : ℕ) : Bool := get b (entValid i) != 0

/-- The inode number of entry `i`. -/
def inoAt (b : Bytes) (i : ℕ) : ℕ := get b (entIno i)

/-- The entry with a name, as `strcmp` finds it. -/
def findName (b : Bytes) (n : CString) : Option ℕ :=
  firstFrom (fun i => b.strEq (entName i) n) maxDirEntries 0

/-- The names of a table: those of the valid entries differ, and the others are empty. -/
structure Entries (b : Bytes) : Prop where
  ended : ∀ i < 19, (nameAt b i).length < 208
  empty : ∀ i < 19, validAt b i = false → nameAt b i = []
  named : ∀ i < 19, validAt b i = true → nameAt b i ≠ []
  inj : ∀ i < 19, ∀ j < 19, validAt b i = true → nameAt b i = nameAt b j → i = j

/-- The table of a directory in use. -/
structure TableOk (b : Bytes) : Prop extends Entries b where
  parent : nameAt b 0 = dotDot ∧ validAt b 0 = true
  self : nameAt b 1 = dot ∧ validAt b 1 = true

variable {b b' : Bytes} {i j k ino len v : ℕ} {n m : CString}

theorem maxDirEntries_eq : maxDirEntries = 19 := rfl

/-- The entry depends on its bytes only. -/
theorem entry_congr (h : ∀ k, 214 * i ≤ k → k < 214 * i + 214 → b k = b' k) :
    nameAt b i = nameAt b' i ∧ validAt b i = validAt b' i ∧ inoAt b i = inoAt b' i := by
  refine ⟨Bytes.readStr_congr fun k hk => ?_, congrArg (· != 0) (Bytes.getNat_congr fun k hk => ?_),
    Bytes.getNat_congr fun k hk => ?_⟩ <;>
  · simp only [entName, entValid, entIno, direntSize] at hk ⊢
    exact h _ (by omega) (by omega)

/-- A block keeps the whole table. -/
theorem entry_slice (hi : i < 19) : nameAt (b.slice 0 4096) i = nameAt b i ∧
    validAt (b.slice 0 4096) i = validAt b i ∧ inoAt (b.slice 0 4096) i = inoAt b i :=
  entry_congr fun k _ hk => by rw [Bytes.slice_of_lt (by omega), Nat.zero_add]

theorem set_of_outside {f : Field} (h : k < f.off ∨ f.off + f.width ≤ k) : set b f v k = b k :=
  Bytes.setNat_of_outside h

theorem setEntry_of_outside (hn : n.length ≤ 207) (h : k < 214 * i ∨ 214 * i + 214 ≤ k) :
    setEntry b i n ino len v k = b k := by
  simp only [setEntry]
  rw [set_of_outside, set_of_outside, set_of_outside, Bytes.strcpy_of_outside]
  all_goals
    simp only [entName, entValid, entIno, entLen, direntSize]
    omega

/-- The other entries stay. -/
theorem entry_setEntry_of_ne (hn : n.length ≤ 207) (h : j ≠ i) :
    nameAt (setEntry b i n ino len v) j = nameAt b j ∧
      validAt (setEntry b i n ino len v) j = validAt b j ∧
      inoAt (setEntry b i n ino len v) j = inoAt b j :=
  entry_congr fun k h1 h2 => setEntry_of_outside hn (by omega)

theorem nameAt_setEntry (hn : n.length ≤ 207) (h0 : 0 ∉ n) :
    nameAt (setEntry b i n ino len v) i = n := by
  have hcopied : (b.strcpy (entName i) n).readStr (entName i) 208 = n :=
    Bytes.readStr_strcpy h0 (by omega)
  refine (Bytes.readStr_congr fun k hk => ?_).trans hcopied
  simp only [setEntry]
  rw [set_of_outside, set_of_outside, set_of_outside]
  all_goals
    simp only [entName, entValid, entIno, entLen, direntSize]
    omega

theorem validAt_setEntry (hv : v < 65536) : validAt (setEntry b i n ino len v) i = (v != 0) := by
  unfold validAt setEntry
  rw [get_set_self]
  exact congrArg (· != 0) (Nat.mod_eq_of_lt hv)

theorem inoAt_setEntry (hino : ino < 65536) : inoAt (setEntry b i n ino len v) i = ino := by
  unfold inoAt setEntry
  rw [get_set_of_disjoint, get_set_of_disjoint, get_set_self]
  · exact Nat.mod_eq_of_lt hino
  all_goals
    simp only [Field.Disjoint, entValid, entIno, entLen, direntSize]
    omega

/-! ## Looking names up -/

/-- **The entry found** is the one with the name. -/
theorem findName_eq (h : Entries b) (h0 : 0 ∉ n) (hne : n ≠ []) :
    findName b n = some i ↔ i < 19 ∧ validAt b i = true ∧ nameAt b i = n := by
  have heq : ∀ j < 19, b.strEq (entName j) n = true ↔ nameAt b j = n := fun j hj =>
    Bytes.strEq_iff (h.ended j hj) h0
  have hvalid : ∀ j < 19, nameAt b j = n → validAt b j = true := by
    intro j hj hname
    by_contra hv
    exact hne (hname ▸ h.empty j hj (by simpa using hv))
  unfold findName
  rw [firstFrom_eq_some, maxDirEntries_eq]
  constructor
  · rintro ⟨-, hi, hfound, -⟩
    have hi : i < 19 := by omega
    have hname := (heq i hi).1 hfound
    exact ⟨hi, hvalid i hi hname, hname⟩
  · rintro ⟨hi, hv, hname⟩
    refine ⟨Nat.zero_le i, by omega, (heq i hi).2 hname, fun j _ hj => ?_⟩
    by_contra hfound
    have hnamej := (heq j (by omega)).1 (by simpa using hfound)
    have := h.inj i hi j (by omega) hv (hname.trans hnamej.symm)
    omega

theorem findName_eq_none (h : Entries b) (h0 : 0 ∉ n) (hne : n ≠ []) :
    findName b n = none ↔ ∀ i < 19, nameAt b i ≠ n := by
  constructor
  · intro hnone i hi hname
    have hv : validAt b i = true := by
      by_contra hv
      exact hne (hname ▸ h.empty i hi (by simpa using hv))
    rw [(findName_eq h h0 hne).2 ⟨hi, hv, hname⟩] at hnone
    cases hnone
  · intro hnone
    cases hfind : findName b n with
    | none => rfl
    | some i =>
      obtain ⟨hi, -, hname⟩ := (findName_eq h h0 hne).1 hfind
      exact absurd hname (hnone i hi)

/-- Names other than `"."` and `".."` are found behind these. -/
theorem TableOk.two_le (h : TableOk b) (hname : nameAt b i = n) (hdot : n ≠ dot)
    (hdotDot : n ≠ dotDot) : 2 ≤ i := by
  by_contra hlt
  obtain rfl | rfl : i = 0 ∨ i = 1 := by omega
  · exact hdotDot (hname.symm.trans h.parent.1)
  · exact hdot (hname.symm.trans h.self.1)

/-- No table has names in a block of zeros. -/
theorem findName_zero (hne : n ≠ []) (h0 : 0 ∉ n) : findName Bytes.zero n = none := by
  unfold findName
  rw [firstFrom_eq_none]
  intro j _ _
  obtain ⟨c, n, rfl⟩ := List.exists_cons_of_ne_nil hne
  have hc : (0 : UInt8) ≠ c := fun h => h0 (h ▸ List.mem_cons_self)
  simp [Bytes.strEq, Bytes.zero, hc]

/-! ## Making tables -/

theorem Entries.slice (h : Entries b) : Entries (b.slice 0 4096) where
  ended i hi := by
    rw [(entry_slice hi).1]
    exact h.ended i hi
  empty i hi := by
    rw [(entry_slice hi).1, (entry_slice hi).2.1]
    exact h.empty i hi
  named i hi := by
    rw [(entry_slice hi).1, (entry_slice hi).2.1]
    exact h.named i hi
  inj i hi j hj := by
    rw [(entry_slice hi).1, (entry_slice hi).2.1, (entry_slice hj).1]
    exact h.inj i hi j hj

/-- **Adding** a new name to an entry that is not in use. -/
theorem Entries.add (h : Entries b) (hlen : n.length ≤ 207) (h0 : 0 ∉ n) (hne : n ≠ [])
    (hnew : ∀ j < 19, nameAt b j ≠ n) : Entries (setEntry b i n ino len 1) := by
  have hname : nameAt (setEntry b i n ino len 1) i = n := nameAt_setEntry hlen h0
  have hvalid : validAt (setEntry b i n ino len 1) i = true := validAt_setEntry (by decide)
  have hother : ∀ {j}, j ≠ i → nameAt (setEntry b i n ino len 1) j = nameAt b j ∧
      validAt (setEntry b i n ino len 1) j = validAt b j := fun hj =>
    ⟨(entry_setEntry_of_ne hlen hj).1, (entry_setEntry_of_ne hlen hj).2.1⟩
  refine ⟨fun j hj => ?_, fun j hj hv => ?_, fun j hj hv => ?_, fun j hj k hk hv heq => ?_⟩
  · by_cases hji : j = i
    · rw [hji, hname]
      omega
    · rw [(hother hji).1]
      exact h.ended j hj
  · by_cases hji : j = i
    · rw [hji, hvalid] at hv
      cases hv
    · rw [(hother hji).1]
      exact h.empty j hj ((hother hji).2 ▸ hv)
  · by_cases hji : j = i
    · rw [hji, hname]
      exact hne
    · rw [(hother hji).1]
      exact h.named j hj ((hother hji).2 ▸ hv)
  · by_cases hji : j = i <;> by_cases hki : k = i
    · rw [hji, hki]
    · rw [hji, hname, (hother hki).1] at heq
      exact absurd heq.symm (hnew k hk)
    · rw [hki, hname, (hother hji).1] at heq
      exact absurd heq (hnew j hj)
    · rw [(hother hji).1, (hother hki).1] at heq
      exact h.inj j hj k hk ((hother hji).2 ▸ hv) heq

/-- **Removing** an entry. -/
theorem Entries.remove (h : Entries b) : Entries (setEntry b i [] 0 0 0) := by
  have hname : nameAt (setEntry b i [] 0 0 0) i = [] :=
    nameAt_setEntry (Nat.zero_le _) List.not_mem_nil
  have hvalid : validAt (setEntry b i [] 0 0 0) i = false := validAt_setEntry (by decide)
  have hother : ∀ {j}, j ≠ i → nameAt (setEntry b i [] 0 0 0) j = nameAt b j ∧
      validAt (setEntry b i [] 0 0 0) j = validAt b j := fun hj =>
    ⟨(entry_setEntry_of_ne (Nat.zero_le _) hj).1, (entry_setEntry_of_ne (Nat.zero_le _) hj).2.1⟩
  refine ⟨fun j hj => ?_, fun j hj hv => ?_, fun j hj hv => ?_, fun j hj k hk hv heq => ?_⟩
  · by_cases hji : j = i
    · rw [hji, hname]
      decide
    · rw [(hother hji).1]
      exact h.ended j hj
  · by_cases hji : j = i
    · rw [hji, hname]
    · rw [(hother hji).1]
      exact h.empty j hj ((hother hji).2 ▸ hv)
  · by_cases hji : j = i
    · rw [hji, hvalid] at hv
      cases hv
    · rw [(hother hji).1]
      exact h.named j hj ((hother hji).2 ▸ hv)
  · by_cases hji : j = i
    · rw [hji, hvalid] at hv
      cases hv
    · have hvj : validAt b j = true := (hother hji).2 ▸ hv
      by_cases hki : k = i
      · rw [hki, hname, (hother hji).1] at heq
        exact absurd heq (h.named j hj hvj)
      · rw [(hother hji).1, (hother hki).1] at heq
        exact h.inj j hj k hk hvj heq

theorem TableOk.slice (h : TableOk b) : TableOk (b.slice 0 4096) where
  toEntries := h.toEntries.slice
  parent := by
    rw [(entry_slice (by decide)).1, (entry_slice (by decide)).2.1]
    exact h.parent
  self := by
    rw [(entry_slice (by decide)).1, (entry_slice (by decide)).2.1]
    exact h.self

/-- The first two entries stay when another is stored. -/
theorem TableOk.replace (h : TableOk b) (h2 : 2 ≤ i) (hlen : n.length ≤ 207)
    (hb : Entries (setEntry b i n ino len v)) : TableOk (setEntry b i n ino len v) where
  toEntries := hb
  parent := by
    rw [(entry_setEntry_of_ne hlen (by omega)).1, (entry_setEntry_of_ne hlen (by omega)).2.1]
    exact h.parent
  self := by
    rw [(entry_setEntry_of_ne hlen (by omega)).1, (entry_setEntry_of_ne hlen (by omega)).2.1]
    exact h.self

/-- Free entries are behind the first two. -/
theorem TableOk.two_le_of_free (h : TableOk b) (hfree : validAt b i = false) : 2 ≤ i := by
  by_contra hlt
  obtain rfl | rfl : i = 0 ∨ i = 1 := by omega
  · rw [h.parent.2] at hfree
    cases hfree
  · rw [h.self.2] at hfree
    cases hfree

/-- What is stored into an entry stays when the entries behind it are stored. -/
theorem initDirentTable_of_lt {curr par x : ℕ} (hj : j < k) (hx : x < 214 * j + 214) :
    initDirentTable b curr par k x = initDirentTable b curr par (j + 1) x := by
  induction k with
  | zero => exact absurd hj (Nat.not_lt_zero j)
  | succ k ih =>
    by_cases hjk : j = k
    · rw [hjk]
    · rw [← ih (by omega), initDirentTable]
      split
      · exact setEntry_of_outside (by decide) (by omega)
      · split <;> exact setEntry_of_outside (by decide) (by omega)

/-- The entries that `init_dirent_table` stores. -/
theorem entry_initDirentTable {curr par : ℕ} (hj : j < k) :
    nameAt (initDirentTable b curr par k) j =
        (if j = 0 then dotDot else if j = 1 then dot else []) ∧
      validAt (initDirentTable b curr par k) j = decide (j < 2) := by
  obtain ⟨hname, hvalid, -⟩ := entry_congr (i := j) fun x _ hx =>
    @initDirentTable_of_lt b j k curr par x hj hx
  rw [hname, hvalid, initDirentTable]
  split
  next h0 =>
    subst h0
    exact ⟨nameAt_setEntry (by decide) (by decide), validAt_setEntry (by decide)⟩
  next h0 =>
    split
    next h1 =>
      subst h1
      exact ⟨nameAt_setEntry (by decide) (by decide), validAt_setEntry (by decide)⟩
    next h1 =>
      refine ⟨nameAt_setEntry (by decide) (by decide), ?_⟩
      rw [validAt_setEntry (by decide), decide_eq_false (by omega)]
      rfl

/-- **A new table** is well formed. -/
theorem initDirentTable_ok {curr par : ℕ} : TableOk (initDirentTable b curr par 19) := by
  have hentry : ∀ {j}, j < 19 → nameAt (initDirentTable b curr par 19) j =
      (if j = 0 then dotDot else if j = 1 then dot else []) ∧
      validAt (initDirentTable b curr par 19) j = decide (j < 2) := fun hj =>
    entry_initDirentTable hj
  refine ⟨⟨fun j hj => ?_, fun j hj hv => ?_, fun j hj hv => ?_, fun j hj k hk hv heq => ?_⟩,
    ⟨(hentry (by decide)).1, (hentry (by decide)).2⟩,
    ⟨(hentry (by decide)).1, (hentry (by decide)).2⟩⟩
  · rw [(hentry hj).1]
    split
    · decide
    · split <;> decide
  · rw [(hentry hj).2, decide_eq_false_iff_not] at hv
    rw [(hentry hj).1, if_neg (by omega), if_neg (by omega)]
  · rw [(hentry hj).2, decide_eq_true_eq] at hv
    rw [(hentry hj).1]
    obtain rfl | rfl : j = 0 ∨ j = 1 := by omega
    · decide
    · decide
  · rw [(hentry hj).2, decide_eq_true_eq] at hv
    rw [(hentry hj).1, (hentry hk).1] at heq
    obtain rfl | rfl : j = 0 ∨ j = 1 := by omega
    · by_contra hne
      rw [if_pos rfl, if_neg (by omega)] at heq
      split at heq <;> exact absurd heq (by decide)
    · by_contra hne
      rw [if_neg (by decide), if_pos rfl, if_neg (show ¬k = 1 by omega)] at heq
      split at heq <;> exact absurd heq (by decide)

end UserOS.Rufs
