import UserOS.Lib.Ownership
import UserOS.MyVm.State

/-!
# The two-level page table

The page directory and the page tables are words in simulated physical memory, in frames taken
from the same pool as the data. `Vm.owns` lists which frame each part uses: the page directory,
the table installed in a directory slot, and the page of a non-zero table entry.

* `TablesOk`: the directory and the tables have distinct frames, marked in `phy_bitmap`.
* `FramesOk`: the same for directory, tables and pages together.
* `newTable_owns`, `Vm.storePte_owns`: what the two kinds of stores do to `owns`.
* `pageMap_spec`: `page_map` sets one entry, when it was empty, and no other.
* `setPhysicalMem_spec`: the memory starts with a page directory and no tables.
-/

namespace UserOS.MyVm

open Lib

/-! ## Entries -/

/-- `page_dir[d]`. -/
def Vm.pde (vm : Vm) (d : ℕ) : ℕ := vm.mem.getNat (vm.pageDir + pteSize * d) pteSize

/-- The entry `t` of the table in directory slot `d`, or 0 when there is no table. -/
def Vm.pte (vm : Vm) (d t : ℕ) : ℕ :=
  if vm.pde d = 0 then 0 else vm.mem.getNat (vm.pde d + pteSize * t) pteSize

/-- `page_table[t] = v` for the table in directory slot `d`. -/
def Vm.storePte (vm : Vm) (d t v : ℕ) : Vm :=
  { vm with mem := vm.mem.setNat (vm.pde d + pteSize * t) pteSize v }

/-- The part of `page_map` that installs a page table in an empty directory slot: the first free
frame, marked and zeroed. -/
def installTable (vm : Vm) (d : ℕ) : Option Vm := do
  let frame ← firstFreePage vm
  let vm := { vm with
    mem := vm.mem.setNat (vm.pageDir + pteSize * d) pteSize frame
    phyBitmap := setBitAtIndex vm.phyBitmap ((frame - vm.memoryStart) / pgSize) }
  some { vm with mem := vm.mem.fill (vm.pde d) (pteSize * layout.pageTableEntries) 0 }

/-- The first `if` of `page_map`. -/
def ensureTable (vm : Vm) (d : ℕ) : Option Vm :=
  if vm.pde d = 0 then installTable vm d else some vm

/-- `page_map`. The status is -1 when the entry is not empty. -/
def pageMap (vm : Vm) (va pa : ℕ) : Option (Vm × ℤ) :=
  let d := dirIndex va
  let t := tableIndex va
  if vm.pageDir = 0 then none
  else do
    let vm ← ensureTable vm d
    if vm.mem.getNat (vm.pde d + pteSize * t) pteSize ≠ 0 then some (vm, -1)
    else some (vm.storePte d t pa, 0)

/-! ## Frames and their owners -/

/-- What a frame can be used for. -/
inductive Owner
  | dir
  | table (d : ℕ)
  | page (d t : ℕ)
  deriving DecidableEq, Repr

/-- The frame in use as the page directory, as a page table, or by a page. -/
def Vm.owns (vm : Vm) : Owner → Option ℕ
  | .dir => some vm.pageDir
  | .table d => if d < layout.pageDirEntries ∧ vm.pde d ≠ 0 then some (vm.pde d) else none
  | .page d t =>
    if d < layout.pageDirEntries ∧ t < layout.pageTableEntries ∧ vm.pte d t ≠ 0
    then some (vm.pte d t) else none

/-- `a` is the address of a frame. -/
def Vm.IsFrame (vm : Vm) (a : ℕ) : Prop := ∃ f < numFrames, a = frameAddr vm.memoryStart f

/-- `a` is the address of a frame whose bit is set in `phy_bitmap`. -/
def Vm.Used (vm : Vm) (a : ℕ) : Prop :=
  ∃ f < numFrames, a = frameAddr vm.memoryStart f ∧ isSet vm.phyBitmap f = true

/-- Owners that hold table words. -/
def Owner.isTable : Owner → Bool
  | .dir | .table _ => true
  | .page .. => false

/-- The frames of the page directory and the page tables. -/
def Vm.tableOwns (vm : Vm) (o : Owner) : Option ℕ := if o.isTable then vm.owns o else none

/-- The simulated memory lies in the 32-bit address space. -/
structure Placed (vm : Vm) : Prop where
  start : 0 < vm.memoryStart
  fits : vm.memoryStart + memSize ≤ 2 ^ 32

/-- The page directory and the page tables have frames of their own. -/
structure TablesApart (vm : Vm) : Prop extends Placed vm where
  tables : Exclusive vm.tableOwns vm.IsFrame

/-- The page directory, the page tables and the mapped pages have frames of their own. -/
structure FramesApart (vm : Vm) : Prop extends Placed vm where
  frames : Exclusive vm.owns vm.IsFrame

/-- The page directory and the page tables have frames of their own, marked in use. -/
structure TablesOk (vm : Vm) : Prop extends Placed vm where
  tables : Exclusive vm.tableOwns vm.Used

/-- The page directory, the page tables and the mapped pages have frames of their own, marked in
use. -/
structure FramesOk (vm : Vm) : Prop extends Placed vm where
  frames : Exclusive vm.owns vm.Used

variable {vm vm' : Vm} {d t d' t' v a b : ℕ} {o : Owner}

@[simp] theorem layout_pageDirEntries : layout.pageDirEntries = 4 := by rw [layout_eq]

@[simp] theorem layout_pageTableEntries : layout.pageTableEntries = 16384 := by rw [layout_eq]

theorem numFrames_eq : numFrames = 16384 := by decide

theorem Vm.Used.isFrame (h : vm.Used a) : vm.IsFrame a := by
  obtain ⟨f, hf, rfl, -⟩ := h
  exact ⟨f, hf, rfl⟩

theorem Vm.owns_of_tableOwns (h : vm.tableOwns o = some a) : vm.owns o = some a := by
  unfold Vm.tableOwns at h
  split_ifs at h
  exact h

theorem TablesOk.apart (h : TablesOk vm) : TablesApart vm :=
  ⟨h.toPlaced, h.tables.mono fun _ => Vm.Used.isFrame⟩

theorem FramesOk.apart (h : FramesOk vm) : FramesApart vm :=
  ⟨h.toPlaced, h.frames.mono fun _ => Vm.Used.isFrame⟩

theorem FramesOk.tablesOk (h : FramesOk vm) : TablesOk vm :=
  ⟨h.toPlaced, h.frames.shrink (fun _ _ => Vm.owns_of_tableOwns)
    fun _ _ ho => h.frames.used (Vm.owns_of_tableOwns ho)⟩

theorem FramesApart.tablesApart (h : FramesApart vm) : TablesApart vm :=
  ⟨h.toPlaced, h.frames.shrink (fun _ _ => Vm.owns_of_tableOwns)
    fun _ _ ho => h.frames.used (Vm.owns_of_tableOwns ho)⟩

/-- Distinct frames do not overlap. -/
theorem Vm.IsFrame.disjoint (ha : vm.IsFrame a) (hb : vm.IsFrame b) (hne : a ≠ b) :
    a + 65536 ≤ b ∨ b + 65536 ≤ a := by
  obtain ⟨f, -, rfl⟩ := ha
  obtain ⟨g, -, rfl⟩ := hb
  unfold frameAddr pgSize at *
  have : f ≠ g := fun h => hne (by rw [h])
  omega

theorem Vm.IsFrame.bounds (ha : vm.IsFrame a) :
    vm.memoryStart ≤ a ∧ a + 65536 ≤ vm.memoryStart + memSize := by
  obtain ⟨f, hf, rfl⟩ := ha
  rw [numFrames_eq] at hf
  unfold frameAddr pgSize memSize
  omega

theorem frameAddr_inj {ms f g : ℕ} : frameAddr ms f = frameAddr ms g ↔ f = g := by
  unfold frameAddr pgSize
  omega

namespace TablesApart

theorem dir_frame (h : TablesApart vm) : vm.IsFrame vm.pageDir :=
  h.tables.used (i := .dir) rfl

theorem tableOwns_table (hd : d < 4) (hpde : vm.pde d ≠ 0) :
    vm.tableOwns (.table d) = some (vm.pde d) := by
  simp [Vm.tableOwns, Vm.owns, Owner.isTable, hd, hpde]

theorem table_frame (h : TablesApart vm) (hd : d < 4) (hpde : vm.pde d ≠ 0) :
    vm.IsFrame (vm.pde d) :=
  h.tables.used (tableOwns_table hd hpde)

theorem pageDir_pos (h : TablesApart vm) : 0 < vm.pageDir :=
  h.start.trans_le h.dir_frame.bounds.1

/-- A table does not overlap the page directory. -/
theorem dir_disjoint (h : TablesApart vm) (hd : d < 4) (hpde : vm.pde d ≠ 0) :
    vm.pageDir + 65536 ≤ vm.pde d ∨ vm.pde d + 65536 ≤ vm.pageDir :=
  h.dir_frame.disjoint (h.table_frame hd hpde)
    (h.tables.ne (i := .dir) rfl (tableOwns_table hd hpde) (by simp))

/-- The tables of two directory slots do not overlap. -/
theorem table_disjoint (h : TablesApart vm) (hd : d < 4) (hd' : d' < 4) (hpde : vm.pde d ≠ 0)
    (hpde' : vm.pde d' ≠ 0) (hne : d ≠ d') :
    vm.pde d + 65536 ≤ vm.pde d' ∨ vm.pde d' + 65536 ≤ vm.pde d :=
  (h.table_frame hd hpde).disjoint (h.table_frame hd' hpde')
    (h.tables.ne (tableOwns_table hd hpde) (tableOwns_table hd' hpde') (by simpa using hne))

end TablesApart

/-! ## Stores and what they leave alone -/

/-- The directory is read from its own words only. -/
theorem Vm.pde_congr (hdir : vm'.pageDir = vm.pageDir) (hd : d < 4)
    (hmem : ∀ k < 16, vm'.mem (vm.pageDir + k) = vm.mem (vm.pageDir + k)) :
    vm'.pde d = vm.pde d := by
  unfold Vm.pde pteSize
  rw [hdir]
  exact Bytes.getNat_congr fun k hk => by
    have := hmem (4 * d + k) (by omega)
    rwa [← Nat.add_assoc] at this

/-- A table entry is read from its own word only. -/
theorem Vm.pte_congr (hpde : vm'.pde d = vm.pde d)
    (hmem : vm.pde d ≠ 0 →
      ∀ k < 4, vm'.mem (vm.pde d + 4 * t + k) = vm.mem (vm.pde d + 4 * t + k)) :
    vm'.pte d t = vm.pte d t := by
  unfold Vm.pte pteSize
  rw [hpde]
  split_ifs with h0
  · rfl
  · exact Bytes.getNat_congr (hmem h0)

/-- The owners depend on the entries only. -/
theorem Vm.owns_congr (hdir : vm'.pageDir = vm.pageDir) (hpde : ∀ d < 4, vm'.pde d = vm.pde d)
    (hpte : ∀ d < 4, ∀ t < 16384, vm'.pte d t = vm.pte d t) : vm'.owns = vm.owns := by
  funext o
  cases o with
  | dir => simp only [Vm.owns, hdir]
  | table d =>
    simp only [Vm.owns, layout_pageDirEntries]
    by_cases hd : d < 4
    · rw [hpde d hd]
    · simp [hd]
  | page d t =>
    simp only [Vm.owns, layout_pageDirEntries, layout_pageTableEntries]
    by_cases hb : d < 4 ∧ t < 16384
    · rw [hpte d hb.1 t hb.2]
    · rw [if_neg (fun hh => hb ⟨hh.1, hh.2.1⟩), if_neg (fun hh => hb ⟨hh.1, hh.2.1⟩)]

section Store

variable (h : TablesApart vm) (hd : d < 4) (ht : t < 16384) (hpde : vm.pde d ≠ 0)

include h hd ht hpde

theorem Vm.pde_storePte (hd' : d' < 4) : (vm.storePte d t v).pde d' = vm.pde d' :=
  Vm.pde_congr rfl hd' fun k hk => Bytes.setNat_of_outside (by
    have := h.dir_disjoint hd hpde
    unfold pteSize
    omega)

theorem Vm.pte_storePte (hv : v < 2 ^ 32) (hd' : d' < 4) (ht' : t' < 16384) :
    (vm.storePte d t v).pte d' t' = if d' = d ∧ t' = t then v else vm.pte d' t' := by
  have hpde' : (vm.storePte d t v).pde d' = vm.pde d' := Vm.pde_storePte h hd ht hpde hd'
  split_ifs with heq
  · obtain ⟨rfl, rfl⟩ := heq
    unfold Vm.pte
    rw [hpde', if_neg hpde]
    exact (Bytes.getNat_setNat_self ..).trans (Nat.mod_eq_of_lt hv)
  · refine Vm.pte_congr hpde' fun h0 k hk => Bytes.setNat_of_outside ?_
    unfold pteSize
    by_cases hdd : d' = d
    · subst hdd
      have : t' ≠ t := fun htt => heq ⟨rfl, htt⟩
      omega
    · have := h.table_disjoint hd hd' hpde h0 (Ne.symm hdd)
      omega

/-- Storing an entry changes the owner of its page only. -/
theorem Vm.storePte_owns (hv : v < 2 ^ 32) : (vm.storePte d t v).owns =
    Function.update vm.owns (.page d t) (if v = 0 then none else some v) := by
  funext o
  cases o with
  | dir => rfl
  | table d' =>
    rw [Function.update_of_ne (by simp)]
    simp only [Vm.owns, layout_pageDirEntries]
    by_cases hd' : d' < 4
    · rw [Vm.pde_storePte h hd ht hpde hd']
    · rw [if_neg (fun hh => hd' hh.1), if_neg (fun hh => hd' hh.1)]
  | page d' t' =>
    simp only [Vm.owns, layout_pageDirEntries, layout_pageTableEntries, Function.update_apply,
      Owner.page.injEq]
    by_cases hb : d' < 4 ∧ t' < 16384
    · rw [Vm.pte_storePte h hd ht hpde hv hb.1 hb.2]
      by_cases heq : d' = d ∧ t' = t
      · by_cases hv0 : v = 0 <;> simp [heq, hd, ht, hv0]
      · simp [heq]
    · have heq : ¬ (d' = d ∧ t' = t) := by rintro ⟨rfl, rfl⟩; exact hb ⟨hd, ht⟩
      rw [if_neg heq, if_neg (fun hh => hb ⟨hh.1, hh.2.1⟩), if_neg (fun hh => hb ⟨hh.1, hh.2.1⟩)]

end Store

/-- Restricting to the tables commutes with a change at one owner. -/
theorem tableOwns_of_update {x : Option ℕ} (h : vm'.owns = Function.update vm.owns o x) :
    vm'.tableOwns = if o.isTable then Function.update vm.tableOwns o x else vm.tableOwns := by
  funext p
  unfold Vm.tableOwns
  rw [h]
  by_cases hpo : p = o
  · subst hpo
    by_cases hp : p.isTable <;> simp [hp]
  · by_cases ho : o.isTable <;> simp [ho, Function.update_of_ne hpo]

theorem Vm.storePte_tablesOk (h : TablesOk vm) (hd : d < 4) (ht : t < 16384) (hpde : vm.pde d ≠ 0)
    (hv : v < 2 ^ 32) : TablesOk (vm.storePte d t v) where
  toPlaced := ⟨h.start, h.fits⟩
  tables := by
    rw [tableOwns_of_update (Vm.storePte_owns h.apart hd ht hpde hv)]
    exact h.tables

section NewTable

/-! A table at frame `a` in the empty directory slot `d`: its words are 0, the directory has its
address, and nothing else changed. -/

variable (h : TablesApart vm) (hd : d < 4) (hpde : vm.pde d = 0) (haF : vm.IsFrame a)
  (haU : ∀ o, vm.tableOwns o ≠ some a) (hdir : vm'.pageDir = vm.pageDir) (hword : vm'.pde d = a)
  (hzero : ∀ k < 65536, vm'.mem (a + k) = 0)
  (hrest : ∀ x, x < vm.pageDir + 4 * d ∨ vm.pageDir + 4 * d + 4 ≤ x → x < a ∨ a + 65536 ≤ x →
    vm'.mem x = vm.mem x)

include h haF haU hdir hrest in
theorem newTable_pde (hd' : d' < 4) (hne : d' ≠ d) : vm'.pde d' = vm.pde d' := by
  have hdisj := h.dir_frame.disjoint haF fun heq => haU .dir (congrArg some heq)
  unfold Vm.pde pteSize
  rw [hdir]
  exact Bytes.getNat_congr fun k hk => hrest _ (by omega) (by omega)

include h haF hword hzero in
theorem newTable_pte_self (ht : t < 16384) : vm'.pte d t = 0 := by
  have hpos : a ≠ 0 := by
    have := haF.bounds
    have := h.start
    omega
  unfold Vm.pte
  rw [hword, if_neg hpos]
  exact Bytes.getNat_of_zero fun k hk => by
    rw [Nat.add_assoc]
    exact hzero _ (by unfold pteSize at *; omega)

include h hd haF haU hdir hrest in
theorem newTable_pte (hd' : d' < 4) (hne : d' ≠ d) (ht : t < 16384) :
    vm'.pte d' t = vm.pte d' t :=
  Vm.pte_congr (newTable_pde h haF haU hdir hrest hd' hne) fun h0 k hk => by
    have h1 := (h.table_frame hd' h0).disjoint haF fun heq =>
      haU _ (heq ▸ TablesApart.tableOwns_table hd' h0)
    have h2 := h.dir_disjoint hd' h0
    exact hrest _ (by omega) (by omega)

include h hd hpde haF haU hdir hword hzero hrest in
theorem newTable_owns : vm'.owns = Function.update vm.owns (.table d) (some a) := by
  have hpos : a ≠ 0 := by
    have := haF.bounds
    have := h.start
    omega
  funext o
  cases o with
  | dir =>
    rw [Function.update_of_ne (by simp)]
    simp only [Vm.owns, hdir]
  | table d' =>
    simp only [Vm.owns, layout_pageDirEntries, Function.update_apply, Owner.table.injEq]
    by_cases hd' : d' < 4
    · by_cases hne : d' = d
      · subst hne
        simp [hd, hword, hpos]
      · rw [newTable_pde h haF haU hdir hrest hd' hne, if_neg hne]
    · have : d' ≠ d := by omega
      simp [hd', this]
  | page d' t' =>
    rw [Function.update_of_ne (by simp)]
    simp only [Vm.owns, layout_pageDirEntries, layout_pageTableEntries]
    by_cases hb : d' < 4 ∧ t' < 16384
    · by_cases hne : d' = d
      · subst hne
        rw [newTable_pte_self h haF hword hzero hb.2, Vm.pte, if_pos hpde]
      · rw [newTable_pte h hd haF haU hdir hrest hb.1 hne hb.2]
    · rw [if_neg (fun hh => hb ⟨hh.1, hh.2.1⟩), if_neg (fun hh => hb ⟨hh.1, hh.2.1⟩)]

end NewTable

/-- What `installTable` does: a free frame `f` becomes the table of slot `d`. -/
structure Installed (vm vm' : Vm) (d f : ℕ) : Prop where
  lt : f < numFrames
  free : isSet vm.phyBitmap f = false
  eq : vm' = { vm with mem := vm'.mem, phyBitmap := setBitAtIndex vm.phyBitmap f }
  owns : vm'.owns = Function.update vm.owns (.table d) (some (frameAddr vm.memoryStart f))
  pde : vm'.pde d = frameAddr vm.memoryStart f
  pte : ∀ t < 16384, vm'.pte d t = 0
  other : ∀ d' < 4, d' ≠ d → vm'.pde d' = vm.pde d' ∧ ∀ t < 16384, vm'.pte d' t = vm.pte d' t
  mem : ∀ x, x < vm.pageDir + 4 * d ∨ vm.pageDir + 4 * d + 4 ≤ x →
    x < frameAddr vm.memoryStart f ∨ frameAddr vm.memoryStart f + 65536 ≤ x → vm'.mem x = vm.mem x

theorem Vm.not_used_of_free {f : ℕ} (hfree : isSet vm.phyBitmap f = false) :
    ¬ vm.Used (frameAddr vm.memoryStart f) := by
  rintro ⟨g, -, hg, hset⟩
  have : f = g := by unfold frameAddr pgSize at hg; omega
  rw [← this, hfree] at hset
  cases hset

theorem installTable_spec (h : TablesOk vm) (hd : d < 4) (hpde : vm.pde d = 0)
    (hi : installTable vm d = some vm') : ∃ f, Installed vm vm' d f := by
  obtain ⟨frame, hframe, hi⟩ := Option.bind_eq_some_iff.1 hi
  obtain ⟨f, hf, rfl, hfree⟩ := firstFreePage_eq_some hframe
  have haF : vm.IsFrame (frameAddr vm.memoryStart f) := ⟨f, hf, rfl⟩
  have haU := h.tables.not_owned (Vm.not_used_of_free hfree)
  have hindex : (frameAddr vm.memoryStart f - vm.memoryStart) / pgSize = f := by
    unfold frameAddr pgSize; omega
  have hbounds := haF.bounds
  have hfits := h.fits
  have hdisj := h.apart.dir_frame.disjoint haF fun heq => haU .dir (congrArg some heq)
  rw [hindex] at hi
  -- The directory word is stored first and read back by the loop that clears the table.
  have hpde₁ : Vm.pde { vm with
      mem := vm.mem.setNat (vm.pageDir + pteSize * d) pteSize (frameAddr vm.memoryStart f)
      phyBitmap := setBitAtIndex vm.phyBitmap f } d = frameAddr vm.memoryStart f :=
    (Bytes.getNat_setNat_self ..).trans (Nat.mod_eq_of_lt (by unfold pteSize; omega))
  simp only [hpde₁, layout_pageTableEntries, Option.some.injEq] at hi
  have hdir : vm'.pageDir = vm.pageDir := by rw [← hi]
  have hmem : vm'.mem = (vm.mem.setNat (vm.pageDir + pteSize * d) pteSize
      (frameAddr vm.memoryStart f)).fill (frameAddr vm.memoryStart f) (pteSize * 16384) 0 := by
    rw [← hi]
  have hzero : ∀ k < 65536, vm'.mem (frameAddr vm.memoryStart f + k) = 0 := fun k hk => by
    rw [hmem]
    exact Bytes.fill_of_inside (by omega) (by unfold pteSize; omega)
  have hword : vm'.pde d = frameAddr vm.memoryStart f := by
    rw [← hpde₁]
    refine Vm.pde_congr hdir hd fun k hk => ?_
    rw [hmem]
    exact Bytes.fill_of_outside (by unfold pteSize; simp only; omega)
  have hrest : ∀ x, x < vm.pageDir + 4 * d ∨ vm.pageDir + 4 * d + 4 ≤ x →
      x < frameAddr vm.memoryStart f ∨ frameAddr vm.memoryStart f + 65536 ≤ x →
      vm'.mem x = vm.mem x := fun x h1 h2 => by
    rw [hmem, Bytes.fill_of_outside (by unfold pteSize; omega)]
    exact Bytes.setNat_of_outside (by unfold pteSize; omega)
  exact ⟨f, hf, hfree, by rw [← hi],
    newTable_owns h.apart hd hpde haF haU hdir hword hzero hrest, hword,
    fun t ht => newTable_pte_self h.apart haF hword hzero ht,
    fun d' hd' hne => ⟨newTable_pde h.apart haF haU hdir hrest hd' hne,
      fun t ht => newTable_pte h.apart hd haF haU hdir hrest hd' hne ht⟩, hrest⟩

namespace Installed

variable {f : ℕ} (hi : Installed vm vm' d f)

include hi

theorem placed (hp : Placed vm) : Placed vm' := by
  rw [hi.eq]
  exact ⟨hp.start, hp.fits⟩

theorem used (hu : vm.Used a) : vm'.Used a := by
  obtain ⟨g, hg, rfl, hset⟩ := hu
  rw [hi.eq]
  exact ⟨g, hg, rfl, by simp [hset]⟩

theorem used_self : vm'.Used (frameAddr vm.memoryStart f) := by
  rw [hi.eq]
  exact ⟨f, hi.lt, rfl, by simp⟩

theorem tablesOk (h : TablesOk vm) : TablesOk vm' where
  toPlaced := hi.placed h.toPlaced
  tables := by
    rw [tableOwns_of_update hi.owns]
    exact h.tables.acquire (h.tables.not_owned (Vm.not_used_of_free hi.free)) (fun _ => hi.used)
      hi.used_self

theorem framesOk (h : FramesOk vm) : FramesOk vm' where
  toPlaced := hi.placed h.toPlaced
  frames := by
    rw [hi.owns]
    exact h.frames.acquire (h.frames.not_owned (Vm.not_used_of_free hi.free)) (fun _ => hi.used)
      hi.used_self

/-- The new table has no entries, so that the entries are the old ones. -/
theorem pte_eq (hpde : vm.pde d = 0) (hd' : d' < 4) (ht' : t' < 16384) :
    vm'.pte d' t' = vm.pte d' t' := by
  by_cases hne : d' = d
  · subst hne
    rw [hi.pte t' ht', Vm.pte, if_pos hpde]
  · exact (hi.other d' hd' hne).2 t' ht'

end Installed

/-! ## `page_map` -/

/-- The steps of `page_map`: a table is installed when there is none, then the entry is stored when
it is empty. -/
theorem pageMap_cases {va pa : ℕ} {status : ℤ} (h : TablesOk vm)
    (hm : pageMap vm va pa = some (vm', status)) :
    ∃ mid, (mid = vm ∨ vm.pde (dirIndex va) = 0 ∧ ∃ f, Installed vm mid (dirIndex va) f) ∧
      TablesOk mid ∧ mid.pde (dirIndex va) ≠ 0 ∧
      (mid.pte (dirIndex va) (tableIndex va) ≠ 0 ∧ vm' = mid ∧ status = -1 ∨
        mid.pte (dirIndex va) (tableIndex va) = 0 ∧
          vm' = mid.storePte (dirIndex va) (tableIndex va) pa ∧ status = 0) := by
  unfold pageMap at hm
  simp only [if_neg h.apart.pageDir_pos.ne'] at hm
  obtain ⟨mid, hmid, hm⟩ := Option.bind_eq_some_iff.1 hm
  have hinst : mid = vm ∧ vm.pde (dirIndex va) ≠ 0 ∨
      vm.pde (dirIndex va) = 0 ∧ ∃ f, Installed vm mid (dirIndex va) f := by
    unfold ensureTable at hmid
    split_ifs at hmid with h0
    · exact .inr ⟨h0, installTable_spec h (dirIndex_lt va) h0 hmid⟩
    · exact .inl ⟨(Option.some.inj hmid).symm, h0⟩
  have hmidOk : TablesOk mid ∧ mid.pde (dirIndex va) ≠ 0 := by
    obtain ⟨rfl, h0⟩ | ⟨-, f, hi⟩ := hinst
    · exact ⟨h, h0⟩
    · refine ⟨hi.tablesOk h, ?_⟩
      rw [hi.pde]
      have := h.start
      unfold frameAddr
      omega
  refine ⟨mid, hinst.imp And.left id, hmidOk.1, hmidOk.2, ?_⟩
  have hpte : mid.pte (dirIndex va) (tableIndex va) =
      mid.mem.getNat (mid.pde (dirIndex va) + pteSize * tableIndex va) pteSize :=
    if_neg hmidOk.2
  rw [hpte]
  split_ifs at hm with h0
  · simp only [Option.some.injEq, Prod.mk.injEq] at hm
    exact .inl ⟨h0, hm.1.symm, hm.2.symm⟩
  · simp only [Option.some.injEq, Prod.mk.injEq] at hm
    exact .inr ⟨not_not.1 h0, hm.1.symm, hm.2.symm⟩

/-- **`page_map` sets an empty entry.** A mapped entry keeps its value, as does every other entry.
-/
theorem pageMap_spec {va pa : ℕ} {status : ℤ} (h : TablesOk vm) (hpa : pa < 2 ^ 32)
    (hm : pageMap vm va pa = some (vm', status)) :
    TablesOk vm' ∧ vm'.tlb = vm.tlb ∧ ∀ d' < 4, ∀ t' < 16384, vm'.pte d' t' =
      if (d' = dirIndex va ∧ t' = tableIndex va) ∧ vm.pte d' t' = 0 then pa else vm.pte d' t' := by
  obtain ⟨mid, hmid, hok, hpde, hcases⟩ := pageMap_cases h hm
  have htlb : mid.tlb = vm.tlb := by
    obtain rfl | ⟨-, f, hi⟩ := hmid
    · rfl
    · rw [hi.eq]
  have hpte : ∀ d' < 4, ∀ t' < 16384, mid.pte d' t' = vm.pte d' t' := by
    obtain rfl | ⟨h0, f, hi⟩ := hmid
    · exact fun _ _ _ _ => rfl
    · exact fun d' hd' t' ht' => hi.pte_eq h0 hd' ht'
  have hd := dirIndex_lt va
  have ht := tableIndex_lt va
  obtain ⟨hne, rfl, -⟩ | ⟨hz, rfl, -⟩ := hcases
  · refine ⟨hok, htlb, fun d' hd' t' ht' => ?_⟩
    rw [hpte d' hd' t' ht', if_neg]
    rintro ⟨⟨rfl, rfl⟩, h0⟩
    exact hne ((hpte _ hd _ ht).trans h0)
  · refine ⟨Vm.storePte_tablesOk hok hd ht hpde hpa, htlb, fun d' hd' t' ht' => ?_⟩
    rw [Vm.pte_storePte hok.apart hd ht hpde hpa hd' ht', hpte d' hd' t' ht']
    refine if_congr (iff_self_and.2 ?_) rfl rfl
    rintro ⟨rfl, rfl⟩
    rwa [hpte _ hd _ ht] at hz

/-! ## The start -/

/-- The globals before `set_physical_mem`. A null `tlb_store` is an empty TLB. -/
def Vm.start : Vm := ⟨Bytes.zero, 0, Bytes.zero, Bytes.zero, 0, Tlb.empty, false⟩

/-- `set_physical_mem`, where `malloc` has returned `base`. -/
def setPhysicalMem (base : ℕ) (vm : Vm) : Option Vm :=
  if base = 0 then none
  else do
    let vm := { vm with
      memoryStart := base
      mem := vm.mem.fill base memSize 0
      phyBitmap := vm.phyBitmap.fill 0 (memSize / (8 * pgSize)) 0
      virtBitmap := vm.virtBitmap.fill 0 (layout.pageDirEntries * layout.pageTableEntries / 8) 0 }
    let pageDir ← firstFreePage vm
    some { vm with
      pageDir := pageDir
      phyBitmap := setBitAtIndex vm.phyBitmap ((pageDir - vm.memoryStart) / pgSize)
      mem := vm.mem.fill pageDir (pteSize * layout.pageDirEntries) 0 }

/-- A state as `set_physical_mem` leaves it: the page directory is the only frame in use, and no
virtual page is. -/
structure Fresh (base : ℕ) (vm vm' : Vm) : Prop where
  frames : FramesOk vm'
  start : vm'.memoryStart = base
  pde : ∀ d < 4, vm'.pde d = 0
  virt : ∀ i < 65536, isSet vm'.virtBitmap i = false
  tlb : vm'.tlb = vm.tlb
  mutex : vm'.mutex = vm.mutex

theorem setPhysicalMem_spec {base : ℕ} (hbase : base + memSize ≤ 2 ^ 32)
    (hs : setPhysicalMem base vm = some vm') : Fresh base vm vm' := by
  unfold setPhysicalMem at hs
  split_ifs at hs with h0
  obtain ⟨pd, hpd, hs⟩ := Option.bind_eq_some_iff.1 hs
  obtain ⟨f, hf, rfl, -⟩ := firstFreePage_eq_some hpd
  simp only [Option.some.injEq] at hs
  have hindex : (frameAddr base f - base) / pgSize = f := by unfold frameAddr pgSize; omega
  have hstart : vm'.memoryStart = base := by rw [← hs]
  have hdir : vm'.pageDir = frameAddr base f := by rw [← hs]
  have hphy : isSet vm'.phyBitmap f = true := by
    rw [← hs, hindex, setBitAtIndex_bit]
    simp
  have hpde : ∀ d < 4, vm'.pde d = 0 := fun d hd => by
    unfold Vm.pde pteSize
    refine Bytes.getNat_of_zero fun k hk => ?_
    rw [hdir, ← hs]
    exact Bytes.fill_of_inside (by omega) (by rw [layout_pageDirEntries]; unfold pteSize; omega)
  have hpte : ∀ d < 4, ∀ t, vm'.pte d t = 0 := fun d hd t => if_pos (hpde d hd)
  -- The page directory is the only owner.
  have howns : ∀ o r, vm'.owns o = some r → o = .dir ∧ r = frameAddr base f := fun o r ho => by
    cases o with
    | dir =>
      rw [← hdir]
      exact ⟨rfl, (Option.some.inj ho).symm⟩
    | table d =>
      simp only [Vm.owns, layout_pageDirEntries] at ho
      split_ifs at ho with hd
      exact absurd (hpde d hd.1) hd.2
    | page d t =>
      simp only [Vm.owns, layout_pageDirEntries] at ho
      split_ifs at ho with hd
      exact absurd (hpte d hd.1 t) hd.2.2
  refine ⟨⟨⟨by omega, by rwa [hstart]⟩, ?_, ?_⟩, hstart, hpde, fun i hi => ?_, by rw [← hs],
    by rw [← hs]⟩
  · intro i j r hi hj
    rw [(howns i r hi).1, (howns j r hj).1]
  · intro i r hi
    rw [(howns i r hi).2, ← hstart]
    exact ⟨f, hf, rfl, hphy⟩
  · rw [← hs]
    refine isSet_fill ?_
    rw [layout_pageDirEntries, layout_pageTableEntries]
    omega

end UserOS.MyVm
