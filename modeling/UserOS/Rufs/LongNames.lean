import UserOS.Rufs.Bindings

/-!
# Long names

`dir_add` copies a name into the 208 bytes of an entry without looking at its length, which is at
most 255 bytes. It stores the length behind the name afterwards.

* `NamesEnd`: where the names of a table end, which every table of the program keeps.
* `addsSafely_iff`: which names are added as they are and change nothing else, or are refused.
-/

namespace UserOS.Rufs

open Lib

/-- A name that Linux passes: 1 to 255 bytes. -/
structure NamePassed (n : CString) : Prop where
  ended : 0 ∉ n
  ne_nil : n ≠ []
  length_le : n.length ≤ 255

/-- `dir_add` of a name to directory `i`, whose table is in data block `k`, returns a negative value
and leaves the block alone, or returns 0 and stores the name in the first free entry, and nothing
beside this entry or behind the table. -/
def AddsSafely (env : Env) (fs : Fs) (i k c : ℕ) (n : CString) : Prop :=
  let b := bioRead fs.disk (67 + k)
  let (r, fs') := dirAdd env fs (readi fs i) c n
  let b' := bioRead fs'.disk (67 + k)
  r < 0 ∧ b' = b ∨ r = 0 ∧ dirFind fs' i n = some c ∧
    ∃ j, firstFrom (fun j => get b (entValid j) == 0) maxDirEntries 0 = some j ∧
      (∀ x, x < direntSize * j ∨ direntSize * (j + 1) ≤ x → b' x = b x) ∧
      ∀ x, direntSize * maxDirEntries ≤ x → setEntry b j n c n.length 1 x = b x

/-- `dir_add` refuses the name: it is there, or no entry is free. -/
def Refused (fs : Fs) (i k : ℕ) (n : CString) : Prop :=
  dirFind fs i n ≠ none ∨ ∀ j < 19, validAt (bioRead fs.disk (67 + k)) j = true

/-- Where the string of each entry ends: at the latest in its length, whose high byte is 0. -/
def NamesEnd (b : Bytes) : Prop := ∀ j < 19, ∃ x < 210, b (entName j + x) = 0

variable {b : Bytes} {fs fs' : Fs} {env : Env} {n : CString} {i j k c x ino len v : ℕ}

/-! ## Entries -/

/-- The bytes of the name that are not overwritten by its length. -/
theorem setEntry_name (hx : x ≤ n.length) (h : x < 208) :
    setEntry b j n ino len v (entName j + x) = n.getD x 0 := by
  simp only [setEntry]
  rw [set_of_outside, set_of_outside, set_of_outside, Bytes.strcpy_of_inside hx]
  all_goals
    simp only [entName, entValid, entIno, entLen, direntSize]
    omega

/-- The two bytes behind the name. -/
theorem setEntry_len (hx : x < 2) :
    setEntry b j n ino len v (entName j + (208 + x)) = UInt8.ofNat (len / 256 ^ x) := by
  simp only [setEntry]
  rw [set_of_outside]
  · exact (congrArg _ (show entName j + (208 + x) = (entLen j).off + x by
      simp only [entName, entLen, direntSize]
      omega)).trans (Bytes.setNat_of_inside hx)
  · simp only [entName, entValid, direntSize]
    omega

/-- Nothing changes before the entry, nor behind both the entry and the name. -/
theorem setEntry_of_behind (h : x < 214 * j ∨ 214 * j + 214 ≤ x ∧ 214 * j + 4 + n.length < x) :
    setEntry b j n ino len v x = b x := by
  simp only [setEntry]
  rw [set_of_outside, set_of_outside, set_of_outside, Bytes.strcpy_of_outside]
  all_goals
    simp only [entName, entValid, entIno, entLen, direntSize]
    omega

/-- The part of the name that lies behind the entry. -/
theorem setEntry_tail (hx : x ≤ n.length) (h : 210 ≤ x) :
    setEntry b j n ino len v (entName j + x) = n.getD x 0 := by
  simp only [setEntry]
  rw [set_of_outside, set_of_outside, set_of_outside, Bytes.strcpy_of_inside hx]
  all_goals
    simp only [entName, entValid, entIno, entLen, direntSize]
    omega

theorem getD_ne_zero (h0 : 0 ∉ n) (hx : x < n.length) : n.getD x 0 ≠ 0 := by
  rw [List.getD_eq_getElem _ _ hx]
  exact fun h => h0 (h ▸ List.getElem_mem hx)

/-! ## Looking the name up -/

/-- The name is found in the entry only when the length bytes do not cut or prolong it. -/
theorem strEq_setEntry_self {b' : Bytes} (hb : ∀ x < 4066, b' x = setEntry b j n ino n.length v x)
    (hj : j < 19) (h0 : 0 ∉ n) (hlen : n.length ≤ 255) :
    b'.strEq (entName j) n = true ↔ n.length ≤ 207 ∨ n.length = 209 ∧ n.getD 208 0 = 209 := by
  have hb : ∀ x < 210, b' (entName j + x) = setEntry b j n ino n.length v (entName j + x) :=
    fun x hx => hb _ (by simp only [entName, direntSize]; omega)
  have hlow : b' (entName j + 208) = UInt8.ofNat n.length := by
    have h := @setEntry_len b n j 0 ino n.length v (by decide)
    rw [Nat.pow_zero, Nat.div_one] at h
    exact (hb 208 (by decide)).trans h
  have hhigh : b' (entName j + 209) = 0 := by
    have h := @setEntry_len b n j 1 ino n.length v (by decide)
    rw [Nat.pow_one, Nat.div_eq_of_lt (by omega)] at h
    exact (hb 209 (by decide)).trans h
  rw [Bytes.strEq_iff_bytes]
  constructor
  · intro h
    by_cases h207 : n.length ≤ 207
    · exact .inl h207
    have h208 := h 208 (by omega)
    rw [hlow] at h208
    by_cases heq : n.length = 208
    · rw [List.getD_eq_default _ _ (by omega), heq] at h208
      exact absurd h208 (by decide)
    have h209 := h 209 (by omega)
    rw [hhigh] at h209
    by_cases heq' : n.length = 209
    · rw [heq'] at h208
      exact .inr ⟨heq', h208.symm⟩
    · exact absurd h209.symm (getD_ne_zero h0 (by omega))
  · intro h x hx
    by_cases hx208 : x < 208
    · rw [hb x (by omega)]
      exact setEntry_name hx hx208
    · obtain h | ⟨hn, hlast⟩ := h
      · omega
      · obtain rfl | rfl : x = 208 ∨ x = 209 := by omega
        · rw [hlow, hlast, hn]
          rfl
        · rw [hhigh, List.getD_eq_default _ _ (by omega)]

/-- A name that does not reach behind its entry is not found elsewhere. -/
theorem strEq_setEntry_of_ne {b' : Bytes} {m : ℕ}
    (hb : ∀ x < 4066, b' x = setEntry b j n ino len v x) (hn : n.length ≤ 209) (hm : m < 19)
    (hne : m ≠ j) : b'.strEq (entName m) n = b.strEq (entName m) n := by
  apply Bytes.strEq_congr
  intro x hx
  rw [hb _ (by simp only [entName, direntSize]; omega)]
  apply setEntry_of_behind
  simp only [entName, direntSize]
  omega

/-- Nor is a longer one, when the other names end in their entries. -/
theorem strEq_setEntry_long {b' : Bytes} {m : ℕ}
    (hb : ∀ x < 4066, b' x = setEntry b j n ino len v x) (hends : ∃ x < 210, b (entName m + x) = 0)
    (h0 : 0 ∉ n) (hn : 210 ≤ n.length) (hlen : n.length ≤ 255) (hm : m < 19) (hne : m ≠ j) :
    b'.strEq (entName m) n = false := by
  rw [Bool.eq_false_iff, ne_eq, Bytes.strEq_iff_bytes]
  intro h
  by_cases hover : m = j + 1 ∧ 214 ≤ n.length
  · -- What is left of the name is the name of the next entry, and too short.
    obtain ⟨rfl, hn'⟩ := hover
    have htail := @setEntry_tail b n j n.length ino len v le_rfl hn
    rw [List.getD_eq_default _ _ le_rfl,
      show entName j + n.length = entName (j + 1) + (n.length - 214) by
        simp only [entName, direntSize]
        omega, ← hb _ (by simp only [entName, direntSize]; omega), h (n.length - 214) (by omega)]
      at htail
    exact getD_ne_zero h0 (by omega) htail
  · obtain ⟨x, hx, hzero⟩ := hends
    have hbyte := h x (by omega)
    rw [hb _ (by simp only [entName, direntSize]; omega),
      setEntry_of_behind (by simp only [entName, direntSize]; omega), hzero] at hbyte
    exact getD_ne_zero h0 (by omega) hbyte.symm

/-- **Every table made by the program** has names that end in their entries: new ones, -/
theorem Entries.namesEnd (h : Entries b) : NamesEnd b := by
  intro j hj
  by_contra hall
  push Not at hall
  have hlen := h.ended j hj
  unfold nameAt at hlen
  rw [Bytes.readStr_length fun x hx => hall x (by omega)] at hlen
  exact lt_irrefl _ hlen

/-- and those that a name has been added to or removed from. -/
theorem NamesEnd.setEntry (h : NamesEnd b) (hlen : n.length ≤ 255) :
    NamesEnd (setEntry b j n ino n.length v) := by
  intro m hm
  by_cases hmj : m = j
  · refine ⟨209, by decide, ?_⟩
    have hhigh := @setEntry_len b n j 1 ino n.length v (by decide)
    rw [Nat.pow_one, Nat.div_eq_of_lt (by omega)] at hhigh
    rw [hmj]
    exact hhigh
  by_cases hover : m = j + 1 ∧ 214 ≤ n.length
  · obtain ⟨rfl, hn⟩ := hover
    refine ⟨n.length - 214, by omega, ?_⟩
    rw [show entName (j + 1) + (n.length - 214) = entName j + n.length by
      simp only [entName, direntSize]
      omega, setEntry_tail le_rfl (by omega), List.getD_eq_default _ _ le_rfl]
  · obtain ⟨x, hx, hzero⟩ := h m hm
    refine ⟨x, hx, ?_⟩
    rw [setEntry_of_behind (by simp only [entName, direntSize]; omega), hzero]

/-! ## Adding a name -/

/-- **A name that is added** goes into the first free entry. -/
theorem TableAt.dirAdd_eq (h : TableAt i k fs) (hr : ¬Refused fs i k n) :
    ∃ j < 19, ∃ fs', firstFrom (fun j => get (bioRead fs.disk (67 + k)) (entValid j) == 0)
        maxDirEntries 0 = some j ∧
      dirAdd env fs (readi fs i) c n = (0, fs') ∧ TableAt i k fs' ∧
      bioRead fs'.disk (67 + k) =
        (setEntry (bioRead fs.disk (67 + k)) j n c n.length 1).slice 0 4096 := by
  obtain ⟨hnone, hfree⟩ := not_or.1 hr
  cases hfirst : firstFrom (fun j => get (bioRead fs.disk (67 + (k : ℤ))) (entValid j) == 0)
    maxDirEntries 0 with
  | none =>
    refine absurd (fun j hj => ?_) hfree
    have := firstFrom_eq_none.1 hfirst j (Nat.zero_le j) (by rwa [maxDirEntries_eq, Nat.zero_add])
    unfold validAt
    simpa using this
  | some j =>
    have hlt := (firstFrom_eq_some.1 hfirst).2.1
    obtain ⟨hat, hblk⟩ := h.write (b := setEntry (bioRead fs.disk (67 + k)) j n c n.length 1) rfl
    refine ⟨j, by rwa [maxDirEntries_eq, Nat.zero_add] at hlt, _, rfl, ?_, hat, hblk⟩
    unfold dirAdd
    dsimp only
    rw [h.ino, not_not.1 hnone, h.ptr, hfirst, ← h.ptr]
    rfl

/-- A name that is refused changes nothing. -/
theorem TableAt.dirAdd_refused (h : TableAt i k fs) (hr : Refused fs i k n) :
    ∃ r, r < 0 ∧ dirAdd env fs (readi fs i) c n = (r, fs) := by
  unfold dirAdd
  dsimp only
  rw [h.ino, h.ptr]
  by_cases hfind : dirFind fs i n = none
  · rw [hfind, if_neg (by decide)]
    have hall := hr.resolve_left (not_not_intro hfind)
    rw [firstFrom_eq_none.2 fun j _ hj => by
      have hv := hall j (by rwa [maxDirEntries_eq, Nat.zero_add] at hj)
      unfold validAt at hv
      simpa using hv]
    exact ⟨_, by decide, rfl⟩
  · rw [if_pos (Option.isSome_iff_ne_none.2 hfind)]
    exact ⟨_, by decide, rfl⟩

/-- The only entry found is the one that is stored. -/
theorem findName_of_self {b' : Bytes} (hj : j < 19) (hnone : findName b n = none)
    (hself : b'.strEq (entName j) n = true)
    (hother : ∀ m < 19, m ≠ j → b'.strEq (entName m) n = b.strEq (entName m) n) :
    findName b' n = some j := by
  unfold findName at hnone ⊢
  rw [firstFrom_eq_none] at hnone
  rw [firstFrom_eq_some]
  refine ⟨Nat.zero_le _, by rwa [maxDirEntries_eq, Nat.zero_add], hself, fun m _ hm => ?_⟩
  rw [hother m (by omega) (by omega)]
  exact hnone m (Nat.zero_le _) (by rw [maxDirEntries_eq]; omega)

/-- The names that `dir_add` stores as they are: those that end before the length does, and those of
209 bytes whose last byte is that of the length. -/
def StoredWhole (n : CString) : Prop := n.length ≤ 207 ∨ n.length = 209 ∧ n.getD 208 0 = 209

/-- A name that is stored as it is, or refused, is added safely. -/
theorem TableAt.addsSafely (h : TableAt i k fs) (hn : NamePassed n) (hc : c < 65536)
    (hw : StoredWhole n ∨ Refused fs i k n) : AddsSafely env fs i k c n := by
  unfold AddsSafely
  by_cases hr : Refused fs i k n
  · obtain ⟨r, hneg, heq⟩ := @TableAt.dirAdd_refused fs env n i k c h hr
    rw [heq]
    exact .inl ⟨hneg, rfl⟩
  have hw := hw.resolve_right hr
  have hlen : n.length ≤ 209 := by
    unfold StoredWhole at hw
    omega
  obtain ⟨j, hj, fs', hfirst, heq, hat, hblk⟩ := @TableAt.dirAdd_eq fs env n i k c h hr
  rw [heq]
  dsimp only
  have hb : ∀ x < 4096, bioRead fs'.disk (67 + (k : ℤ)) x =
      setEntry (bioRead fs.disk (67 + (k : ℤ))) j n c n.length 1 x := fun x hx => by
    rw [hblk, Bytes.slice_of_lt hx, Nat.zero_add]
  have hb' := fun x (hx : x < 4066) => hb x (by omega)
  refine .inr ⟨rfl, ?_, j, hfirst, fun x hx => ?_, fun x hx => ?_⟩
  · have hnone : findName (bioRead fs.disk (67 + (k : ℤ))) n = none := by
      have hnone := not_not.1 (not_or.1 hr).1
      rw [h.dirFind_eq] at hnone
      exact Option.map_eq_none_iff.1 hnone
    rw [hat.dirFind_eq, findName_of_self hj hnone
      ((strEq_setEntry_self hb' hj hn.ended hn.length_le).2 hw)
      fun m hm hne => strEq_setEntry_of_ne hb' hlen hm hne, Option.map_some, hblk,
      (entry_slice hj).2.2, inoAt_setEntry hc]
  · by_cases hx4096 : x < 4096
    · rw [hb x hx4096]
      apply setEntry_of_behind
      simp only [direntSize] at hx
      omega
    · rw [bioRead_blk h.block rfl, bioRead_blk h.block rfl]
      exact (if_neg hx4096).trans (if_neg hx4096).symm
  · apply setEntry_of_behind
    rw [maxDirEntries_eq, direntSize] at hx
    omega

/-- **Long names.** A name of a table whose names end in their entries is added safely if and only
if it is refused, or fits, or is of 209 bytes and ends with the byte that stands for this length.
That this is enough holds for every table. -/
theorem addsSafely_iff (hm : fs.Mounted) (hi : i < 1024) (hk : k < 16384)
    (hino : get (readi fs i) .ino = i) (hptr : direct (readi fs i) 0 = 67 + k)
    (hn : NamePassed n) (hc : c < 65536) :
    (StoredWhole n ∨ Refused fs i k n → AddsSafely env fs i k c n) ∧
    (NamesEnd (bioRead fs.disk (67 + k)) → AddsSafely env fs i k c n →
      StoredWhole n ∨ Refused fs i k n) := by
  have h : TableAt i k fs := ⟨hm, hi, hk, hino, hptr⟩
  refine ⟨h.addsSafely hn hc, fun hends hsafe => ?_⟩
  by_cases hr : Refused fs i k n
  · exact .inr hr
  refine .inl ?_
  obtain ⟨j, hj, fs', -, heq, hat, hblk⟩ := @TableAt.dirAdd_eq fs env n i k c h hr
  unfold AddsSafely at hsafe
  rw [heq] at hsafe
  dsimp only at hsafe
  have hb : ∀ x < 4066, bioRead fs'.disk (67 + (k : ℤ)) x =
      setEntry (bioRead fs.disk (67 + (k : ℤ))) j n c n.length 1 x := fun x hx => by
    rw [hblk, Bytes.slice_of_lt (by omega), Nat.zero_add]
  obtain ⟨hneg, -⟩ | ⟨-, hfind, -⟩ := hsafe
  · exact absurd hneg (by decide)
  rw [hat.dirFind_eq, Option.map_eq_some_iff] at hfind
  obtain ⟨m, hfound, -⟩ := hfind
  obtain ⟨-, hm19, hstr, -⟩ := firstFrom_eq_some.1 hfound
  rw [maxDirEntries_eq, Nat.zero_add] at hm19
  by_cases hmj : m = j
  · rw [hmj] at hstr
    exact (strEq_setEntry_self hb hj hn.ended hn.length_le).1 hstr
  · by_cases hlen : n.length ≤ 209
    · rw [strEq_setEntry_of_ne hb hlen hm19 hmj] at hstr
      have hnone := not_not.1 (not_or.1 hr).1
      rw [h.dirFind_eq, Option.map_eq_none_iff] at hnone
      have hmiss := firstFrom_eq_none.1 hnone m (Nat.zero_le _)
        (by rwa [maxDirEntries_eq, Nat.zero_add])
      rw [hstr] at hmiss
      cases hmiss
    · rw [strEq_setEntry_long hb (hends m hm19) hn.ended (by omega) hn.length_le hm19 hmj] at hstr
      cases hstr

/-- A name of one byte is stored. -/
theorem addsSafely_iff_short : AddsSafely (.mk (fun _ => 0) 0 0) oneDirectory 0 0 5 [97] :=
  (addsSafely_iff (show oneDirectory.Mounted from rfl) (by decide) (by decide) (by decide +kernel)
    (by decide +kernel)
    ⟨by decide, by decide, by decide⟩ (by decide)).1 (.inl (.inl (by decide)))

/-- A name of 208 bytes is added, and is not found. -/
theorem addsSafely_long : ¬∀ (env : Env) (fs : Fs) (i k c : ℕ) (n : CString), fs.Mounted →
    i < 1024 → k < 16384 → get (readi fs i) .ino = i → direct (readi fs i) 0 = 67 + k →
    NamePassed n → c < 65536 → AddsSafely env fs i k c n := by
  intro h
  have hn : NamePassed (List.replicate 208 97) :=
    ⟨fun h0 => absurd (List.eq_of_mem_replicate h0) (by decide), List.cons_ne_nil _ _,
      by rw [List.length_replicate]; decide⟩
  have hr : (dirAdd (.mk (fun _ => 0) 0 0) oneDirectory (readi oneDirectory 0) 5
      (List.replicate 208 97)).1 = 0 := by decide +kernel
  have hfind : dirFind (dirAdd (.mk (fun _ => 0) 0 0) oneDirectory (readi oneDirectory 0) 5
      (List.replicate 208 97)).2 0 (List.replicate 208 97) = none := by decide +kernel
  generalize List.replicate 208 (97 : UInt8) = n at hn hr hfind
  have hsafe := h (.mk (fun _ => 0) 0 0) oneDirectory 0 0 5 n rfl (by decide) (by decide)
    (by decide +kernel) (by decide +kernel) hn (by decide)
  unfold AddsSafely at hsafe
  generalize dirAdd _ _ _ _ _ = res at hsafe hr hfind
  obtain ⟨r, fs'⟩ := res
  obtain ⟨hneg, -⟩ | ⟨-, hfound, -⟩ := hsafe
  · exact absurd hneg (by rw [show r = 0 from hr]; decide)
  · rw [show dirFind fs' 0 n = none from hfind] at hfound
    cases hfound

end UserOS.Rufs
