import UserOS.Rufs.Remove

/-!
# Taking blocks for a file

`rufs_write` allocates blocks one by one and keeps the new direct and indirect pointers in its copy
of the inode, which it stores at the end only; words of indirect blocks are stored at once.
`Writing` is what holds in between, of the disk with the inode in memory in its slot.

* `Writing`: the file between two allocations.
* `writePtr_spec`: the block found or allocated for one block of the file, and what stays.
-/

namespace UserOS.Rufs

open Lib

variable {v v' : View} {fs fs' : Fs} {env : Env} {T : Finset ℕ} {x y : Inode} {b buffer : Bytes}
  {i j k m n sb size offset sizeCopy fuel : ℕ} {p : ℤ} {r : Ref} {path : CString}

/-! ## The blocks of a file -/

/-- Where a file keeps its block `sb`. -/
def dataRef (sb : ℕ) : Ref :=
  if sb ≤ 15 then .direct sb else .entry ((sb - 16) / 1024) ((sb - 16) % 1024)

theorem dataRef_ne_indirect : dataRef sb ≠ .indirect k := by
  unfold dataRef
  split <;> exact Ref.noConfusion

theorem dataRef_inj (h : dataRef j = dataRef k) : j = k := by
  unfold dataRef at h
  split_ifs at h
  · injection h
  · rw [Ref.entry.injEq] at h
    omega

/-- A data block is neither a table nor an indirect block. -/
theorem Inv.not_meta_of_data (h : Inv v T) (hi : i ∈ T) (hfile : get (v.slot i) .type = 0)
    (hp : v.names (v.slot i) r = some p) (hr : ∀ k, r ≠ .indirect k) : ¬v.Meta T p := by
  intro ⟨j, hj, hmeta⟩
  obtain ⟨hd, hptr⟩ | ⟨k, hk, hne, hptr⟩ := hmeta
  · obtain ⟨n, -, heq, -, -, hname⟩ := h.table hj hd
    rw [← heq, hptr] at hname
    obtain ⟨rfl, -⟩ := h.owner hi hj hp hname
    rw [IsDir, hfile] at hd
    cases hd
  · have hname : v.names (v.slot j) (.indirect k) = some p :=
      (names_indirect hk).trans (nonNull_eq_some.2 ⟨hne, hptr⟩)
    exact hr k (h.owner hi hj hp hname).2

/-! ## Between two allocations -/

/-- From `v` on, blocks of file `i` have been allocated and written; `x` is its inode in memory. -/
structure Writing (v : View) (T : Finset ℕ) (i : ℕ) (fs : Fs) (x : Inode) : Prop where
  mounted : fs.Mounted
  inv : Inv (fs.view.setSlot i x) T
  mem : i ∈ T
  file : get (v.slot i) .type = 0
  type : get x .type = 0
  size : get x .size = get (v.slot i) .size
  steps : View.Steps v fs.view
  slot : fs.view.slot = v.slot
  ibit : fs.view.ibit = v.ibit
  dbit : ∀ k, v.dbit k = true → fs.view.dbit k = true
  direct : ∀ k < 16, Rufs.direct (v.slot i) k ≠ -1 → Rufs.direct x k = Rufs.direct (v.slot i) k
  indirect : ∀ k < 8,
    Rufs.indirect (v.slot i) k ≠ -1 → Rufs.indirect x k = Rufs.indirect (v.slot i) k
  others : ∀ j ∈ T, j ≠ i → ∀ r p, v.names (v.slot j) r = some p → fs.view.block p = v.block p

namespace Writing

theorem slot_self : (fs.view.setSlot i x).slot i = x := Function.update_self ..

theorem ino (h : Writing v T i fs x) : get x .ino = i :=
  (congrArg (fun y => get y .ino) slot_self).symm.trans (h.inv.tracked i h.mem).ino

theorem past (h : Writing v T i fs x) : Rufs.indirect x 8 = -1 :=
  (congrArg (fun y => Rufs.indirect y 8) slot_self).symm.trans (h.inv.tracked i h.mem).past

theorem names_self :
    (fs.view.setSlot i x).names ((fs.view.setSlot i x).slot i) = fs.view.names x :=
  congrArg fs.view.names slot_self

/-- The blocks of the file are in use. -/
theorem used (h : Writing v T i fs x) (hr : fs.view.names x r = some p) : fs.view.Used p := by
  have hused : (fs.view.setSlot i x).Used p := h.inv.used h.mem ((congrFun names_self r).trans hr)
  exact hused

/-- Other inodes keep the same blocks as before. -/
theorem names_other (h : Writing v T i fs x) (hj : j ∈ T) (hji : j ≠ i) :
    fs.view.names ((fs.view.setSlot i x).slot j) = v.names (v.slot j) := by
  rw [View.setSlot_slot, Function.update_of_ne hji, h.slot]
  refine names_congr (.refl _) fun k hk hne => h.others j hj hji (.indirect k) _ ?_
  exact (names_indirect hk).trans (nonNull_eq_some.2 ⟨hne, rfl⟩)

/-- No block has two places in the file. -/
theorem names_inj {s : Ref} (h : Writing v T i fs x) (hr : fs.view.names x r = some p)
    (hs : fs.view.names x s = some p) : r = s :=
  (h.inv.owner h.mem h.mem ((congrFun names_self r).trans hr) ((congrFun names_self s).trans hs)).2

/-- A block of the file is no block of another inode. -/
theorem ne_other (h : Writing v T i fs x) (hr : fs.view.names x r = some p) (hj : j ∈ T)
    (hji : j ≠ i) {s : Ref} : v.names (v.slot j) s ≠ some p := by
  rw [← h.names_other hj hji]
  exact fun hs => hji (h.inv.owner hj h.mem hs ((congrFun names_self r).trans hr)).1

/-- **The start.** -/
theorem start (h : Inv fs.view T) (hm : fs.Mounted) (hi : i ∈ T)
    (hfile : get (fs.view.slot i) .type = 0) : Writing fs.view T i fs (fs.view.slot i) := by
  refine ⟨hm, ?_, hi, hfile, hfile, rfl, .refl, rfl, rfl, fun _ hk => hk, fun _ _ _ => rfl,
    fun _ _ _ => rfl, fun _ _ _ _ _ _ => rfl⟩
  have hself : fs.view.setSlot i (fs.view.slot i) = fs.view := by
    unfold View.setSlot
    rw [Function.update_eq_self]
  rw [hself]
  exact h

/-- **A block is written** that no other inode keeps. -/
theorem setBlk (h : Writing v T i fs x) (hm : fs'.Mounted) (hk : k < 16384)
    (hdbit : fs.view.dbit k = true) (hview : fs'.view = fs.view.setBlk k b)
    (hinv : Inv ((fs.view.setSlot i x).setBlk k b) T)
    (hother : ∀ j ∈ T, j ≠ i → ∀ r, v.names (v.slot j) r ≠ some (67 + (k : ℤ))) :
    Writing v T i fs' x := by
  refine ⟨hm, ?_, h.mem, h.file, h.type, h.size, ?_, ?_, ?_, ?_, h.direct, h.indirect,
    fun j hj hji r p hr => ?_⟩ <;> rw [hview]
  · exact hinv
  · exact h.steps.tail (.setBlk hk hdbit)
  · exact h.slot
  · exact h.ibit
  · exact h.dbit
  · rw [← h.others j hj hji r p hr]
    rw [← h.names_other hj hji] at hr
    obtain ⟨n, -, rfl, -⟩ := h.inv.used hj hr
    have hne : n ≠ k := fun heq => hother j hj hji r (by
      rw [← h.names_other hj hji]
      exact heq ▸ hr)
    exact Inv.block_setBlk_of_ne (by omega) (by omega)

/-- **The inode in memory** gets a pointer. -/
theorem setNode (h : Writing v T i fs x) (hinv : Inv (fs.view.setSlot i y) T)
    (htype : get y .type = 0) (hsize : get y .size = get x .size)
    (hdirect : ∀ k < 16, Rufs.direct x k ≠ -1 → Rufs.direct y k = Rufs.direct x k)
    (hindirect : ∀ k < 8, Rufs.indirect x k ≠ -1 → Rufs.indirect y k = Rufs.indirect x k) :
    Writing v T i fs y := by
  refine ⟨h.mounted, hinv, h.mem, h.file, htype, hsize.trans h.size, h.steps, h.slot, h.ibit,
    h.dbit,
    fun k hk hne => ?_, fun k hk hne => ?_, h.others⟩
  · rw [hdirect k hk (h.direct k hk hne ▸ hne), h.direct k hk hne]
  · rw [hindirect k hk (h.indirect k hk hne ▸ hne), h.indirect k hk hne]

/-- A block that nobody keeps yet is marked. -/
structure Spare (fs : Fs) (T : Finset ℕ) (i : ℕ) (x : Inode) (k : ℕ) : Prop where
  lt : k < 16384
  dbit : fs.view.dbit k = true
  unowned : (fs.view.setSlot i x).Unowned T (67 + k)

/-- **A block is taken.** -/
theorem take (h : Writing v T i fs x) (hm : fs'.Mounted) (hk : k < 16384)
    (hfree : fs.view.dbit k = false) (hview : fs'.view = fs.view.takeBlock k) :
    Writing v T i fs' x ∧ Spare fs' T i x k := by
  have hinv : Inv (fs'.view.setSlot i x) T := by
    rw [hview]
    exact h.inv.takeBlock k
  refine ⟨⟨hm, hinv, h.mem, h.file, h.type, h.size, ?_, ?_, ?_, fun j hj => ?_, h.direct,
    h.indirect, ?_⟩,
    hk, ?_, ?_⟩ <;> rw [hview]
  · exact h.steps.tail (.takeBlock hk hfree)
  · exact h.slot
  · exact h.ibit
  · rw [View.takeBlock_dbit]
    by_cases hjk : j = k
    · rw [hjk, Function.update_self]
    · rw [Function.update_of_ne hjk]
      exact h.dbit j hj
  · exact h.others
  · exact Function.update_self ..
  · have hun := h.inv.unowned_of_free hfree
    exact hun

/-- **A direct pointer** is set. -/
theorem growDirect (h : Writing v T i fs x) (hj : j < 16) (hnull : Rufs.direct x j = -1)
    (hs : Spare fs T i x k) : Writing v T i fs (setDirect x j (67 + k)) := by
  have hsize : get (setDirect x j (67 + k)) .size = get x .size := get_setDirect (by decide) hj
  have htype : get (setDirect x j (67 + k)) .type = 0 :=
    (get_setDirect (by decide) hj).trans h.type
  have hk := hs.lt
  refine h.setNode ?_ htype hsize (fun l _ hne => ?_) fun l _ _ => indirect_setDirect hj
  · rw [← View.setSlot_setSlot]
    refine h.inv.growFile h.mem (slot_self ▸ h.type) ?_ htype ?_ ?_ hs.unowned
      ⟨k, hk, rfl, hs.dbit⟩ (r := .direct j)
    · exact (get_setDirect (by decide) hj).trans h.ino
    · exact (indirect_setDirect hj).trans h.past
    · rw [names_self]
      exact names_setDirect hj (by omega) (by omega)
  · exact direct_setDirect_of_ne fun heq => hne (heq ▸ hnull)

/-- **An indirect pointer** is set. -/
theorem growIndirect (h : Writing v T i fs x) (hj : j < 8) (hnull : Rufs.indirect x j = -1)
    (hs : Spare fs T i x k) (hempty : ∀ e < 1024, (fs.view.blk k).getInt (4 * e) = -1) :
    Writing v T i fs (setIndirect x j (67 + k)) := by
  have hsize : get (setIndirect x j (67 + k)) .size = get x .size := get_setIndirect (by decide) hj
  have htype : get (setIndirect x j (67 + k)) .type = 0 :=
    (get_setIndirect (by decide) hj).trans h.type
  have hk := hs.lt
  refine h.setNode ?_ htype hsize (fun l hl _ => direct_setIndirect hl) fun l _ hne => ?_
  · rw [← View.setSlot_setSlot]
    refine h.inv.growFile h.mem (slot_self ▸ h.type) ?_ htype ?_ ?_ hs.unowned
      ⟨k, hk, rfl, hs.dbit⟩ (r := .indirect j)
    · exact (get_setIndirect (by decide) hj).trans h.ino
    · exact (indirect_setIndirect_of_ne (by omega)).trans h.past
    · rw [names_self]
      refine names_setIndirect hj (by omega) (by omega) hnull fun e he => ?_
      rw [View.block_add]
      exact hempty e he
  · exact indirect_setIndirect_of_ne fun heq => hne (heq ▸ hnull)

/-- **A block that nobody keeps** is written. -/
theorem writeSpare (h : Writing v T i fs x) (hs : Spare fs T i x k) (hm : fs'.Mounted)
    (hview : fs'.view = fs.view.setBlk k b) : Writing v T i fs' x ∧ Spare fs' T i x k ∧
      fs'.view.names x = fs.view.names x := by
  have hmeta := h.inv.not_meta hs.unowned
  refine ⟨h.setBlk hm hs.lt hs.dbit hview (h.inv.setBlk hmeta) fun j hj hji r hr => ?_,
    ⟨hs.lt, ?_, ?_⟩, ?_⟩
  · rw [← h.names_other hj hji] at hr
    exact hs.unowned j hj r hr
  · rw [hview]
    exact hs.dbit
  · rw [hview]
    exact h.inv.unowned_setBlk hmeta hs.unowned
  · refine names_congr (.refl x) fun j hj hne => ?_
    have hm : (fs.view.setSlot i x).Meta T (Rufs.indirect x j) :=
      ⟨i, h.mem, .inr ⟨j, hj, slot_self.symm ▸ hne, congrArg (Rufs.indirect · j) slot_self⟩⟩
    rw [hview]
    exact h.inv.block_setBlk_of_meta hmeta hm

/-- **A word of an indirect block** is set. -/
theorem growEntry {e : ℕ} (h : Writing v T i fs x) (hj : j < 8)
    (hptr : Rufs.indirect x j = 67 + m) (he : e < 1024) (hs : Spare fs T i x k) (hm : fs'.Mounted)
    (hview : fs'.view = fs.view.setBlk m b) (hself : b.getInt (4 * e) = 67 + k)
    (hother : ∀ n < 1024, n ≠ e → b.getInt (4 * n) = (fs.view.blk m).getInt (4 * n)) :
    Writing v T i fs' x ∧ fs'.view.names x =
      Function.update (fs.view.names x) (.entry j e) (some (67 + (k : ℤ))) := by
  have hname : fs.view.names x (.indirect j) = some (67 + (m : ℤ)) := by
    rw [names_indirect hj, hptr]
    exact nonNull_eq_some.2 ⟨by omega, rfl⟩
  obtain ⟨m', hm', heq, hbit⟩ := h.used hname
  obtain rfl : m = m' := by omega
  have hptr' : Rufs.indirect ((fs.view.setSlot i x).slot i) j = 67 + m := by
    rw [slot_self]
    exact hptr
  have hne : (67 + (k : ℤ)) ≠ -1 := by omega
  refine ⟨h.setBlk hm hm' hbit hview ?_ fun c hc hci r => h.ne_other hname hc hci, ?_⟩
  · exact h.inv.growEntry h.mem hj hptr' he hself hne hother hs.unowned ⟨k, hs.lt, rfl, hs.dbit⟩
  · funext r
    have hown := congrFun (h.inv.own_setEntry h.mem hj hptr' he hself hne hother) (i, r)
    have hnames : (fs'.view.setSlot i x).own T (i, r) = fs'.view.names x r :=
      (if_pos h.mem).trans (congrFun names_self r)
    have hold : (fs.view.setSlot i x).own T (i, r) = fs.view.names x r :=
      (if_pos h.mem).trans (congrFun names_self r)
    rw [hview] at hnames ⊢
    rw [← hnames]
    refine hown.trans ?_
    by_cases hr : r = .entry j e
    · rw [hr, Function.update_self, Function.update_self]
    · rw [Function.update_of_ne hr, Function.update_of_ne (by simpa using hr), hold]

end Writing

/-! ## One block -/

/-- What the file has already stays: its pointers, and the contents of its data blocks. -/
structure Keeps (fs : Fs) (x : Inode) (fs' : Fs) (x' : Inode) : Prop where
  name : ∀ r p, fs.view.names x r = some p → fs'.view.names x' r = some p
  data : ∀ r p, fs.view.names x r = some p → (∀ k, r ≠ .indirect k) →
    fs'.view.block p = fs.view.block p
  marked : ∀ k, fs.view.dbit k = true → fs'.view.dbit k = true
  named : ∀ k, fs'.view.dbit k = true →
    fs.view.dbit k = true ∨ ∃ r, fs'.view.names x' r = some (67 + (k : ℤ))

theorem Keeps.refl : Keeps fs x fs x :=
  ⟨fun _ _ h => h, fun _ _ _ _ => rfl, fun _ h => h, fun _ h => .inl h⟩

theorem Keeps.trans {fs₁ fs₂ : Fs} {x₁ x₂ : Inode} (h : Keeps fs x fs₁ x₁)
    (h' : Keeps fs₁ x₁ fs₂ x₂) : Keeps fs x fs₂ x₂ where
  name r p hr := h'.name r p (h.name r p hr)
  data r p hr hne := (h'.data r p (h.name r p hr) hne).trans (h.data r p hr hne)
  marked k hk := h'.marked k (h.marked k hk)
  named k hk := by
    obtain hk | hr := h'.named k hk
    · obtain hk | ⟨r, hr⟩ := h.named k hk
      · exact .inl hk
      · exact .inr ⟨r, h'.name r _ hr⟩
    · exact .inr hr

/-- A block is taken for a place that was empty, and the other blocks stay. -/
theorem Keeps.of_update {x' : Inode} (hr : fs.view.names x r = none)
    (hnames : fs'.view.names x' = Function.update (fs.view.names x) r (some (67 + (k : ℤ))))
    (hdbit : fs'.view.dbit = Function.update fs.view.dbit k true)
    (hdata : ∀ s q, fs.view.names x s = some q → (∀ k, s ≠ .indirect k) →
      fs'.view.block q = fs.view.block q) : Keeps fs x fs' x' := by
  refine ⟨fun s q hs => ?_, hdata, fun j hj => ?_, fun j hj => ?_⟩
  · rw [hnames, Function.update_of_ne fun heq => ?_]
    · exact hs
    · rw [heq, hr] at hs
      cases hs
  · rw [hdbit]
    by_cases hjk : j = k
    · rw [hjk, Function.update_self]
    · rw [Function.update_of_ne hjk, hj]
  · by_cases hjk : j = k
    · exact .inr ⟨r, by rw [hjk, hnames, Function.update_self]⟩
    · rw [hdbit, Function.update_of_ne hjk] at hj
      exact .inl hj

/-- A data block is free, and another one when there is no indirect block for the file block `sb`.
-/
def View.Enough (v : View) (x : Inode) (sb : ℕ) : Prop :=
  ∃ k < 16384, v.dbit k = false ∧
    (15 < sb → indirect x ((sb - 16) / 1024) = -1 → ∃ k' < 16384, k' ≠ k ∧ v.dbit k' = false)

/-- A block is marked that was not. -/
def Marks (fs fs' : Fs) : Prop := ∃ k < 16384, fs.view.dbit k = false ∧ fs'.view.dbit k = true

/-- What `writePtr` does for the block `sb` of a file. -/
inductive PtrCase (v : View) (T : Finset ℕ) (i : ℕ) (fs : Fs) (x : Inode) (sb : ℕ) :
    Option ℤ × Fs × Inode → Prop
  /-- No block is left. -/
  | full : fs.view.names x (dataRef sb) = none → (∀ k < 16384, fs.view.dbit k = true) →
      PtrCase v T i fs x sb (none, fs, x)
  /-- The last block is taken for an indirect block. -/
  | stuck {fs' : Fs} {x' : Inode} : fs.view.names x (dataRef sb) = none → 15 < sb →
      ¬fs.view.Enough x sb → Writing v T i fs' x' → Marks fs fs' → Keeps fs x fs' x' →
      PtrCase v T i fs x sb (none, fs', x')
  /-- The file has the block. -/
  | old {k : ℕ} : fs.view.names x (dataRef sb) = some (67 + (k : ℤ)) →
      PtrCase v T i fs x sb (some (67 + (k : ℤ)), fs, x)
  /-- The block is taken. -/
  | new {k : ℕ} {fs' : Fs} {x' : Inode} : fs.view.names x (dataRef sb) = none →
      fs.view.Enough x sb → fs.view.dbit k = false → Writing v T i fs' x' →
      fs'.view.names x' (dataRef sb) = some (67 + (k : ℤ)) → Keeps fs x fs' x' →
      PtrCase v T i fs x sb (some (67 + (k : ℤ)), fs', x')

/-- What `writePtr` leaves alone: the other data blocks of the file, and what is in the block taken.
-/
structure PtrQuiet (fs : Fs) (x : Inode) (sb : ℕ) (res : Option ℤ × Fs × Inode) : Prop where
  others : ∀ sb', sb' ≠ sb →
    res.2.1.view.names res.2.2 (dataRef sb') = fs.view.names x (dataRef sb')
  taken : ∀ k : ℕ, fs.view.dbit k = false → res.1 = some (67 + (k : ℤ)) →
    res.2.1.view.blk k = fs.view.blk k

theorem PtrQuiet.refl {ptr : Option ℤ} : PtrQuiet fs x sb (ptr, fs, x) :=
  ⟨fun _ _ => rfl, fun _ _ _ => rfl⟩

/-- The first sixteen blocks. -/
theorem writePtr_direct (h : Writing v T i fs x) (hsb : sb ≤ 15) :
    PtrCase v T i fs x sb (writePtr fs x sb) ∧ PtrQuiet fs x sb (writePtr fs x sb) := by
  have href : dataRef sb = .direct sb := if_pos hsb
  have hlt : sb < 16 := by omega
  unfold writePtr
  rw [if_pos hsb]
  split
  next hnull =>
    have hempty : fs.view.names x (.direct sb) = none :=
      (names_direct hlt).trans (nonNull_eq_none.2 hnull)
    obtain ⟨k, hk, fs₁, hfree, hget, hm₁, hview⟩ | ⟨hget, hall⟩ := getAvailBlkno_cases h.mounted <;>
      rw [hget] <;> dsimp only
    · rw [if_neg (by omega)]
      obtain ⟨h₁, hs⟩ := h.take hm₁ hk hfree hview
      have hold : fs₁.view.names x = fs.view.names x := by
        rw [hview]
        rfl
      have hdbit : fs₁.view.dbit = Function.update fs.view.dbit k true := by
        rw [hview]
        rfl
      have hnames : fs₁.view.names (setDirect x sb (67 + k)) =
          Function.update (fs.view.names x) (.direct sb) (some (67 + (k : ℤ))) := by
        rw [names_setDirect hlt (by omega) (by omega), hold]
      refine ⟨.new (href ▸ hempty) ⟨k, hk, hfree, fun h15 => absurd h15 (by omega)⟩ hfree
        (h₁.growDirect hlt hnull hs) ?_ (.of_update hempty hnames hdbit ?_),
        fun sb' hne => ?_, fun _ _ _ => by rw [hview]; rfl⟩
      · rw [href, hnames, Function.update_self]
      · intro s q _ _
        rw [hview]
        rfl
      · dsimp only
        rw [hnames, Function.update_of_ne fun heq => hne (dataRef_inj (heq.trans href.symm))]
    · exact ⟨.full (href ▸ hempty) hall, .refl⟩
  next hne =>
    have hname : fs.view.names x (.direct sb) = some (direct x sb) :=
      (names_direct hlt).trans (nonNull_eq_some.2 ⟨hne, rfl⟩)
    obtain ⟨k, hk, heq, -⟩ := h.used hname
    rw [heq] at hname ⊢
    exact ⟨.old (href ▸ hname), .refl⟩

/-- A word stored into an indirect block. -/
theorem entry_set {e : ℕ} (he : e < 1024) (hk : k < 16384) :
    Bytes.getInt ((b.setInt (4 * e) (67 + k)).slice 0 4096) (4 * e) = 67 + k ∧
      ∀ n < 1024, n ≠ e →
        Bytes.getInt ((b.setInt (4 * e) (67 + k)).slice 0 4096) (4 * n) = b.getInt (4 * n) := by
  refine ⟨?_, fun n hn hne => ?_⟩
  · rw [Bytes.getInt_slice (by omega), Nat.zero_add,
      Bytes.getInt_setInt_self (by omega) (by omega)]
  · rw [Bytes.getInt_slice (by omega), Nat.zero_add, Bytes.getInt_setInt_of_disjoint (by omega)]

/-- A block behind an indirect block that is there. -/
theorem writePtr_entry (h : Writing v T i fs x) (hsb : 15 < sb) (hlt : sb < 8208)
    (hne : indirect x ((sb - 16) / 1024) ≠ -1) :
    PtrCase v T i fs x sb (writePtr fs x sb) ∧ PtrQuiet fs x sb (writePtr fs x sb) := by
  have henough : ∀ k < 16384, fs.view.dbit k = false → fs.view.Enough x sb :=
    fun k hk hfree => ⟨k, hk, hfree, fun _ hnull => absurd hnull hne⟩
  have href : dataRef sb = .entry ((sb - 16) / 1024) ((sb - 16) % 1024) := if_neg (by omega)
  have hj : (sb - 16) / 1024 < 8 := by omega
  have he : (sb - 16) % 1024 < 1024 := Nat.mod_lt _ (by decide)
  unfold writePtr
  rw [if_neg (by omega), show blockSize / 4 = 1024 from rfl]
  generalize (sb - 16) / 1024 = j at hne href hj ⊢
  generalize (sb - 16) % 1024 = e at href he ⊢
  have hname : fs.view.names x (.indirect j) = some (indirect x j) :=
    (names_indirect hj).trans (nonNull_eq_some.2 ⟨hne, rfl⟩)
  obtain ⟨m, hm, heq, hbit⟩ := h.used hname
  have hread : bioRead fs.disk (indirect x j) = fs.view.blk m := bioRead_blk hm heq
  simp only [if_neg hne, if_neg (show ¬(0 : ℤ) < 0 by decide), hread]
  split
  next hnull =>
    have hempty : fs.view.names x (.entry j e) = none := by
      rw [names_entry hj he hne, heq, View.block_add]
      exact nonNull_eq_none.2 hnull
    obtain ⟨k, hk, fs₁, hfree, hget, hm₁, hview⟩ | ⟨hget, hall⟩ := getAvailBlkno_cases h.mounted <;>
      rw [hget] <;> dsimp only
    · rw [if_neg (by omega)]
      obtain ⟨h₁, hs⟩ := h.take hm₁ hk hfree hview
      have hblk : fs₁.view.blk = fs.view.blk := by
        rw [hview]
        rfl
      have hold : fs₁.view.names x = fs.view.names x := by
        rw [hview]
        rfl
      obtain ⟨hself, hother⟩ := @entry_set (fs.view.blk m) k e he hk
      generalize (fs.view.blk m).setInt (4 * e) (67 + k) = b at hself hother ⊢
      have hm₂ := hm₁.setDisk (bioWrite fs₁.disk (indirect x j) b)
      have hview₂ := @bioWrite_view fs₁ m b _ hm heq
      generalize Fs.mk (bioWrite fs₁.disk (indirect x j) b) _ _ _ _ _ = fs₂ at hm₂ hview₂ ⊢
      obtain ⟨h₂, hnames⟩ := h₁.growEntry hj heq he hs hm₂ hview₂ hself (hblk ▸ hother)
      rw [hold] at hnames
      have hdbit : fs₂.view.dbit = Function.update fs.view.dbit k true := by
        rw [hview₂, hview]
        rfl
      refine ⟨.new (href ▸ hempty) (henough k hk hfree) hfree h₂ ?_
        (.of_update hempty hnames hdbit fun s q hq hs => ?_), fun sb' hne => ?_,
        fun k' hfree' hk' => ?_⟩
      · rw [href, hnames, Function.update_self]
      · rw [hview₂, hview]
        obtain ⟨n, -, rfl, -⟩ := h.used hq
        refine Inv.block_setBlk_of_ne (by omega) fun hnm => hs j ?_
        exact (h.names_inj hq (hname.trans (congrArg some (heq.trans hnm.symm))))
      · dsimp only
        rw [hnames, Function.update_of_ne fun heq => hne (dataRef_inj (heq.trans href.symm))]
      · have hkm : k' ≠ m := fun hkm => by
          rw [hkm, hbit] at hfree'
          cases hfree'
        dsimp only
        rw [hview₂, View.setBlk_blk, Function.update_of_ne hkm, hblk]
    · exact ⟨.full (href ▸ hempty) hall, .refl⟩
  next hentry =>
    have hname : fs.view.names x (.entry j e) = some ((fs.view.blk m).getInt (4 * e)) := by
      rw [names_entry hj he hne, heq, View.block_add]
      exact nonNull_eq_some.2 ⟨hentry, rfl⟩
    obtain ⟨k, hk, hkeq, -⟩ := h.used hname
    rw [hkeq] at hname ⊢
    exact ⟨.old (href ▸ hname), .refl⟩

theorem initIndirectBlk_entry {e : ℕ} (he : e < 1024) :
    Bytes.getInt ((initIndirectBlk b).slice 0 4096) (4 * e) = -1 := by
  rw [Bytes.getInt_slice (by omega)]
  exact resetPtrs_getInt he

/-- A new indirect block is stored before the block behind it is looked for. -/
theorem writePtr_null (hsb : 15 < sb) (hlt : sb < 8208)
    (hnull : indirect x ((sb - 16) / 1024) = -1) (hm : m < 16384) {fs₁ : Fs}
    (hget : getAvailBlkno fs = (67 + (m : ℤ), fs₁)) :
    writePtr fs x sb = writePtr
      { fs₁ with disk := bioWrite fs₁.disk (67 + m) (initIndirectBlk (bioRead fs₁.disk (67 + m))) }
      (setIndirect x ((sb - 16) / 1024) (67 + m)) sb := by
  have hself : indirect (setIndirect x ((sb - 16) / 1024) (67 + m)) ((sb - 16) / 1024) = 67 + m :=
    indirect_setIndirect_self (by omega) (by omega)
  have hne : ¬(67 + (m : ℤ)) = -1 := by omega
  have hneg : ¬(67 + (m : ℤ)) < 0 := by omega
  have hsb' : ¬sb ≤ 15 := by omega
  unfold writePtr
  simp only [if_neg hsb', show blockSize / 4 = 1024 from rfl, hget, hself, if_pos hnull, if_neg hne,
    if_neg hneg, if_neg (show ¬(0 : ℤ) < 0 by decide)]

/-- **One block.** For every block within the capacity of a file `writePtr` finds or takes one, or
no block is left. -/
theorem writePtr_spec (h : Writing v T i fs x) (hlt : sb < 8208) :
    PtrCase v T i fs x sb (writePtr fs x sb) ∧ PtrQuiet fs x sb (writePtr fs x sb) := by
  by_cases hsb : sb ≤ 15
  · exact writePtr_direct h hsb
  have hsb : 15 < sb := by omega
  by_cases hnull : indirect x ((sb - 16) / 1024) = -1
  swap
  · exact writePtr_entry h hsb hlt hnull
  have href : dataRef sb = .entry ((sb - 16) / 1024) ((sb - 16) % 1024) := if_neg (by omega)
  have hj : (sb - 16) / 1024 < 8 := by omega
  have he : (sb - 16) % 1024 < 1024 := Nat.mod_lt _ (by decide)
  have hempty₀ : fs.view.names x (dataRef sb) = none := by
    rw [href]
    exact if_neg fun hh => hh.2.2 hnull
  obtain ⟨m, hm, fs₁, hfree, hget, hm₁, hview⟩ | ⟨hget, hall⟩ := getAvailBlkno_cases h.mounted
  · rw [writePtr_null hsb hlt hnull hm hget]
    obtain ⟨h₁, hs₁⟩ := h.take hm₁ hm hfree hview
    have hentries : ∀ e < 1024, _ := fun e he =>
      @initIndirectBlk_entry (bioRead fs₁.disk (67 + (m : ℤ))) e he
    generalize initIndirectBlk (bioRead fs₁.disk (67 + (m : ℤ))) = b at hentries ⊢
    have hm₂ := hm₁.setDisk (bioWrite fs₁.disk (67 + (m : ℤ)) b)
    have hview₂ := @bioWrite_view fs₁ m b _ hm rfl
    generalize Fs.mk (bioWrite fs₁.disk (67 + (m : ℤ)) b) _ _ _ _ _ = fs₂ at hm₂ hview₂ ⊢
    obtain ⟨h₂, hs₂, hnames₂⟩ := h₁.writeSpare hs₁ hm₂ hview₂
    have hblk : fs₂.view.blk m = b.slice 0 4096 := by
      rw [hview₂]
      exact Function.update_self ..
    have hempty : ∀ e < 1024, (fs₂.view.blk m).getInt (4 * e) = -1 := by
      rw [hblk]
      exact hentries
    have h₃ := h₂.growIndirect hj hnull hs₂ hempty
    have hdbit : fs₂.view.dbit = Function.update fs.view.dbit m true := by
      rw [hview₂, hview]
      rfl
    have hnames : fs₂.view.names (setIndirect x ((sb - 16) / 1024) (67 + m)) =
        Function.update (fs.view.names x) (.indirect ((sb - 16) / 1024)) (some (67 + (m : ℤ))) := by
      rw [names_setIndirect hj (by omega) (by omega) hnull (by rwa [View.block_add]), hnames₂,
        hview]
      rfl
    have hkeeps : Keeps fs x fs₂ (setIndirect x ((sb - 16) / 1024) (67 + m)) := by
      refine .of_update ((names_indirect hj).trans (nonNull_eq_none.2 hnull)) hnames hdbit
        fun s q hq hs => ?_
      have hne : q ≠ 67 + m := fun heq => by
        refine hs₁.unowned i h.mem s ((congrFun Writing.names_self s).trans ?_)
        rw [hview]
        exact heq ▸ hq
      rw [hview₂, hview]
      obtain ⟨n, -, rfl, -⟩ := h.used hq
      exact Inv.block_setBlk_of_ne (by omega) hne
    have hne : indirect (setIndirect x ((sb - 16) / 1024) (67 + m)) ((sb - 16) / 1024) ≠ -1 := by
      rw [indirect_setIndirect_self (by omega) (by omega)]
      omega
    have hmarks : Marks fs fs₂ := ⟨m, hm, hfree, by rw [hdbit, Function.update_self]⟩
    have hempty₂ : fs₂.view.names (setIndirect x ((sb - 16) / 1024) (67 + m))
        (dataRef sb) = none := by
      rw [hnames, href, Function.update_of_ne Ref.noConfusion, ← href]
      exact hempty₀
    -- The indirect block is there now: what is left to find is its word.
    obtain ⟨hcase, hquiet⟩ := writePtr_entry h₃ hsb hlt hne
    generalize writePtr fs₂ (setIndirect x ((sb - 16) / 1024) (67 + m)) sb = res at hcase hquiet ⊢
    refine ⟨?_, fun sb' hsb' => ?_, fun k hk hres => ?_⟩
    swap
    · rw [hquiet.others sb' hsb', hnames, Function.update_of_ne dataRef_ne_indirect]
    swap
    · -- The block taken is not the indirect block.
      have hkm : k ≠ m := fun hkm => by
        cases hcase with
        | full _ _ => cases hres
        | stuck _ _ _ _ _ _ => cases hres
        | old hname =>
          rw [hempty₂] at hname
          cases hname
        | new _ _ hkfree _ _ _ =>
          rw [Option.some.injEq, add_right_inj, Nat.cast_inj] at hres
          rw [hres, hkm, hdbit, Function.update_self] at hkfree
          cases hkfree
      rw [hquiet.taken k (by rw [hdbit, Function.update_of_ne hkm, hk]) hres, hview₂,
        View.setBlk_blk, Function.update_of_ne hkm, hview]
      rfl
    cases hcase with
    | full _ hall =>
      refine .stuck hempty₀ hsb (fun ⟨k, hk, hkfree, hmore⟩ => ?_) h₃ hmarks hkeeps
      obtain ⟨k', hk', hkk, hkfree'⟩ := hmore hsb hnull
      have hm' : ∀ k < 16384, fs.view.dbit k = false → k = m := fun k hk hkfree => by
        by_contra hkm
        have hbit := hall k hk
        rw [hdbit, Function.update_of_ne hkm, hkfree] at hbit
        cases hbit
      exact hkk ((hm' k' hk' hkfree').trans (hm' k hk hkfree).symm)
    | stuck _ _ hnot _ hmarks₃ _ =>
      obtain ⟨k, hk, hkfree, -⟩ := hmarks₃
      exact absurd ⟨k, hk, hkfree, fun _ hnull => absurd hnull hne⟩ hnot
    | old hname =>
      rw [hempty₂] at hname
      cases hname
    | @new k _ _ _ henough hkfree h' hname hkeeps₃ =>
      have hold : ∀ k, fs₂.view.dbit k = false → k ≠ m ∧ fs.view.dbit k = false := fun k hk => by
        rw [hdbit] at hk
        have hkm : k ≠ m := fun hkm => by
          rw [hkm, Function.update_self] at hk
          cases hk
        rw [Function.update_of_ne hkm] at hk
        exact ⟨hkm, hk⟩
      obtain ⟨l, hl, hlfree, -⟩ := henough
      exact .new hempty₀ ⟨l, hl, (hold l hlfree).2,
        fun _ _ => ⟨m, hm, (hold l hlfree).1.symm, hfree⟩⟩
        (hold k hkfree).2 h' hname (hkeeps.trans hkeeps₃)
  · have hnone : writePtr fs x sb = (none, fs, x) := by
      unfold writePtr
      simp only [if_neg (show ¬sb ≤ 15 by omega), show blockSize / 4 = 1024 from rfl, if_pos hnull,
        hget, if_pos (show (-1 : ℤ) < 0 by decide)]
    rw [hnone]
    exact ⟨.full hempty₀ hall, .refl⟩

theorem writePtr_cases (h : Writing v T i fs x) (hlt : sb < 8208) :
    PtrCase v T i fs x sb (writePtr fs x sb) := (writePtr_spec h hlt).1

end UserOS.Rufs
