import UserOS.Fragment.State
import UserOS.Lib.Ownership

/-!
# The pages that are mapped

The page directory and the page tables lie in frames of the simulated memory. As long as these are
distinct, `t_malloc` changes one entry for each page that it maps.

* `installTable_spec`, `storePte_spec`: what the two stores of `page_map` do to the entries.
* `mapPage_spec`: a page that was free is mapped, and no other.
-/

namespace UserOS.Fragment

open Lib
open MyVm (pteSize memSize setBitAtIndex setBitAtIndex_bit isSet isSet_fill)

/-! ## Entries -/

/-- The entry `t` of the table in directory slot `d`, or 0 when there is no table. -/
def Vm.pte (vm : Vm) (d t : ℕ) : ℕ :=
  if vm.pde d = 0 then 0 else vm.mem.getNat (vm.pde d + pteSize * t) pteSize

/-- Page `p` is mapped. -/
def Vm.Mapped (vm : Vm) (p : ℕ) : Prop := p < 2 ^ 20 ∧ vm.pte (p / 1024) (p % 1024) ≠ 0

/-- The frame of the page directory, and of the table in each directory slot. -/
def Vm.own (vm : Vm) : Option ℕ → Option ℕ
  | none => some vm.pageDir
  | some d => if d < 1024 ∧ vm.pde d ≠ 0 then some (vm.pde d) else none

/-- `a` is the address of a frame whose bit is set in `phy_bitmap`. -/
def Vm.Used (vm : Vm) (a : ℕ) : Prop :=
  ∃ f < numFrames, a = vm.memoryStart + f * 4096 ∧ isSet vm.phyBitmap f = true

/-- The page directory and the page tables have frames of their own, marked in use. -/
structure TablesOk (vm : Vm) : Prop where
  start : 0 < vm.memoryStart
  fits : vm.memoryStart + memSize ≤ 2 ^ 32
  tables : Exclusive vm.own vm.Used

/-- The pages that are mapped are marked in use as well. -/
structure MemOk (vm : Vm) : Prop extends TablesOk vm where
  virt : ∀ p, vm.Mapped p → isSet vm.virtBitmap p = true

variable {vm vm' : Vm} {d d' t t' v a b f p q va phy n base : ℕ}

theorem numFrames_eq : numFrames = 262144 := by decide

theorem memSize_eq : memSize = 262144 * 4096 := rfl

theorem Vm.Used.disjoint (ha : vm.Used a) (hb : vm.Used b) (hne : a ≠ b) :
    a + 4096 ≤ b ∨ b + 4096 ≤ a := by
  obtain ⟨f, -, rfl, -⟩ := ha
  obtain ⟨g, -, rfl, -⟩ := hb
  have : f ≠ g := fun hfg => hne (by rw [hfg])
  omega

theorem Vm.not_used (hfree : isSet vm.phyBitmap f = false) :
    ¬vm.Used (vm.memoryStart + f * 4096) := by
  intro ⟨g, _, hg, hset⟩
  obtain rfl : f = g := by omega
  rw [hfree] at hset
  cases hset

namespace TablesOk

theorem own_dir : vm.own none = some vm.pageDir := rfl

theorem own_table (hd : d < 1024) (hpde : vm.pde d ≠ 0) : vm.own (some d) = some (vm.pde d) :=
  if_pos ⟨hd, hpde⟩

theorem dir_disjoint (h : TablesOk vm) (hd : d < 1024) (hpde : vm.pde d ≠ 0) :
    vm.pageDir + 4096 ≤ vm.pde d ∨ vm.pde d + 4096 ≤ vm.pageDir := by
  have hown := own_table hd hpde
  exact (h.tables.used own_dir).disjoint (h.tables.used hown)
    (h.tables.ne own_dir hown (Option.some_ne_none d).symm)

theorem table_disjoint (h : TablesOk vm) (hd : d < 1024) (hpde : vm.pde d ≠ 0) (hd' : d' < 1024)
    (hpde' : vm.pde d' ≠ 0) (hne : d ≠ d') :
    vm.pde d + 4096 ≤ vm.pde d' ∨ vm.pde d' + 4096 ≤ vm.pde d := by
  have hown := own_table hd hpde
  have hown' := own_table hd' hpde'
  exact (h.tables.used hown).disjoint (h.tables.used hown')
    (h.tables.ne hown hown' fun heq => hne (Option.some.inj heq))

/-- Nothing changes but entries of tables, and more frames are marked. -/
theorem congr (h : TablesOk vm) (hstart : vm'.memoryStart = vm.memoryStart)
    (hdir : vm'.pageDir = vm.pageDir) (hpde : ∀ d < 1024, vm'.pde d = vm.pde d)
    (hset : ∀ f, isSet vm.phyBitmap f = true → isSet vm'.phyBitmap f = true) : TablesOk vm' := by
  have hown : vm'.own = vm.own := by
    funext o
    cases o with
    | none => exact congrArg some hdir
    | some d =>
      by_cases hd : d < 1024
      · simp only [Vm.own, hpde d hd]
      · simp [Vm.own, hd]
  refine ⟨hstart ▸ h.start, hstart ▸ h.fits, ?_⟩
  rw [hown]
  apply h.tables.mono
  intro a ⟨f, hf, ha, hbit⟩
  exact ⟨f, hf, by rw [hstart, ha], hset f hbit⟩

end TablesOk

/-! ## The stores -/

/-- **An entry is stored.** -/
theorem storePte_spec (h : TablesOk vm) (hd : d < 1024) (ht : t < 1024) (hpde : vm.pde d ≠ 0)
    (hv : v < 2 ^ 32)
    (heq : vm' = { vm with mem := vm.mem.setNat (vm.pde d + pteSize * t) pteSize v }) :
    (∀ d' < 1024, vm'.pde d' = vm.pde d') ∧
      ∀ d' < 1024, ∀ t' < 1024, vm'.pte d' t' = if d' = d ∧ t' = t then v else vm.pte d' t' := by
  have hdir := h.dir_disjoint hd hpde
  have hpageDir : vm'.pageDir = vm.pageDir := by rw [heq]
  have hmem : vm'.mem = vm.mem.setNat (vm.pde d + 4 * t) 4 v := by
    rw [heq]
    rfl
  have hpdes : ∀ d' < 1024, vm'.pde d' = vm.pde d' := by
    intro d' hd'
    unfold Vm.pde pteSize
    rw [hmem, hpageDir]
    exact Bytes.getNat_setNat_of_disjoint (by omega)
  refine ⟨hpdes, fun d' hd' t' ht' => ?_⟩
  unfold Vm.pte pteSize
  rw [hpdes d' hd', hmem]
  by_cases hzero : vm.pde d' = 0
  · rw [if_pos hzero, if_pos hzero, if_neg]
    intro hh
    exact hpde (hh.1 ▸ hzero)
  rw [if_neg hzero, if_neg hzero]
  by_cases hdd : d' = d
  · subst hdd
    by_cases htt : t' = t
    · rw [if_pos ⟨rfl, htt⟩, htt, Bytes.getNat_setNat_self]
      exact Nat.mod_eq_of_lt hv
    · rw [if_neg fun hh => htt hh.2]
      exact Bytes.getNat_setNat_of_disjoint (by omega)
  · have htable := h.table_disjoint hd hpde hd' hzero (Ne.symm hdd)
    rw [if_neg fun hh => hdd hh.1]
    exact Bytes.getNat_setNat_of_disjoint (by omega)

/-- **A table is installed** in an empty directory slot, with no entries. -/
theorem installTable_spec (h : TablesOk vm) (hd : d < 1024) (hpde : vm.pde d = 0)
    (hi : installTable vm d = some vm') :
    TablesOk vm' ∧ vm'.pde d ≠ 0 ∧ (∀ d' < 1024, ∀ t < 1024, vm'.pte d' t = vm.pte d' t) ∧
      vm'.virtBitmap = vm.virtBitmap ∧ vm'.partialPages = vm.partialPages := by
  obtain ⟨frame, hframe, hi⟩ := Option.bind_eq_some_iff.1 hi
  obtain ⟨f, hf, rfl, hfree⟩ := firstFreePage_spec hframe
  have hfits := h.fits
  have hstart := h.start
  rw [numFrames_eq] at hf
  rw [memSize_eq] at hfits
  have hindex : (vm.memoryStart + f * 4096 - vm.memoryStart) / pgSize = f := by
    unfold pgSize
    omega
  generalize ha : vm.memoryStart + f * 4096 = frame at hi hindex
  have hnot : ¬vm.Used frame := ha ▸ Vm.not_used hfree
  have hapart : ∀ {a}, vm.Used a → a + 4096 ≤ frame ∨ frame + 4096 ≤ a := by
    intro a hused
    obtain ⟨g, -, rfl, hset⟩ := hused
    have hne : g ≠ f := fun hgf => by
      rw [hgf, hfree] at hset
      cases hset
    omega
  have hdir := hapart (h.tables.used TablesOk.own_dir)
  -- The directory word is stored first, and read back by the loop that clears the table.
  have hword : Vm.pde { vm with
      mem := vm.mem.setNat (vm.pageDir + pteSize * d) pteSize frame
      phyBitmap := setBitAtIndex vm.phyBitmap f } d = frame :=
    (Bytes.getNat_setNat_self ..).trans (Nat.mod_eq_of_lt (by unfold pteSize; omega))
  rw [hindex] at hi
  simp only [hword, layout_pageTableEntries, Option.some.injEq] at hi
  have hmem : vm'.mem = (vm.mem.setNat (vm.pageDir + 4 * d) 4 frame).fill frame 4096 0 := by
    rw [← hi]
    rfl
  have hpageDir : vm'.pageDir = vm.pageDir := by rw [← hi]
  have hself : vm'.pde d = frame := by
    rw [← hword]
    unfold Vm.pde pteSize
    rw [hmem, hpageDir]
    exact Bytes.getNat_congr fun k hk => Bytes.fill_of_outside (by omega)
  have hother : ∀ d' < 1024, d' ≠ d → vm'.pde d' = vm.pde d' := by
    intro d' hd' hne
    unfold Vm.pde pteSize
    rw [hmem, hpageDir]
    refine Bytes.getNat_congr fun k hk => ?_
    rw [Bytes.fill_of_outside (by omega), Bytes.setNat_of_outside (by omega)]
  have hpos : frame ≠ 0 := by omega
  refine ⟨⟨?_, ?_, ?_⟩, hself ▸ hpos, fun d' hd' t ht => ?_, by rw [← hi], by rw [← hi]⟩
  · rw [← hi]
    exact h.start
  · rw [← hi]
    exact h.fits
  · have hown : vm'.own = Function.update vm.own (some d) (some frame) := by
      funext o
      cases o with
      | none =>
        rw [Function.update_of_ne (Option.some_ne_none d).symm]
        exact congrArg some hpageDir
      | some d' =>
        by_cases hdd : d' = d
        · rw [hdd, Function.update_self, Vm.own, hself, if_pos ⟨hd, hpos⟩]
        · rw [Function.update_of_ne fun heq => hdd (Option.some.inj heq)]
          by_cases hd' : d' < 1024
          · simp only [Vm.own, hother d' hd' hdd]
          · simp [Vm.own, hd']
    rw [hown]
    apply h.tables.acquire (h.tables.not_owned hnot)
    · intro a ⟨g, hg, ha, hset⟩
      rw [← hi]
      exact ⟨g, hg, ha, by simp [hset]⟩
    · rw [← hi]
      exact ⟨f, by rw [numFrames_eq]; exact hf, ha.symm, by simp⟩
  · unfold Vm.pte
    by_cases hdd : d' = d
    · rw [hdd, hself, if_neg hpos, if_pos hpde, hmem]
      unfold pteSize
      exact Bytes.getNat_of_zero fun k hk => Bytes.fill_of_inside (by omega) (by omega)
    · rw [hother d' hd' hdd]
      by_cases hzero : vm.pde d' = 0
      · rw [if_pos hzero, if_pos hzero]
      · rw [if_neg hzero, if_neg hzero, hmem]
        have hframe := hapart (h.tables.used (TablesOk.own_table hd' hzero))
        have hdir' := h.dir_disjoint hd' hzero
        unfold pteSize
        refine Bytes.getNat_congr fun k hk => ?_
        rw [Bytes.fill_of_outside (by omega), Bytes.setNat_of_outside (by omega)]

/-! ## Mapping one page -/

/-- **`page_map`** sets the entry of a page that is not mapped. -/
theorem pageMap_spec {status : ℤ} (h : TablesOk vm) (hp : p < 2 ^ 20) (hfree : ¬vm.Mapped p)
    (hphy : phy < 2 ^ 32) (hm : pageMap vm (p * 4096) phy = some (vm', status)) :
    TablesOk vm' ∧ (∀ d < 1024, ∀ t < 1024,
      vm'.pte d t = if d = p / 1024 ∧ t = p % 1024 then phy else vm.pte d t) ∧
      vm'.virtBitmap = vm.virtBitmap ∧ vm'.partialPages = vm.partialPages := by
  have hd : p / 1024 < 1024 := by omega
  have ht : p % 1024 < 1024 := by omega
  have hdir : dirIndex (p * 4096) = p / 1024 := by
    rw [dirIndex_eq]
    omega
  have htable : tableIndex (p * 4096) = p % 1024 := by
    rw [tableIndex_eq]
    omega
  unfold pageMap at hm
  rw [hdir, htable] at hm
  obtain ⟨mid, hmid, hm⟩ := Option.bind_eq_some_iff.1 hm
  obtain ⟨hok, hpde, hpte, hvirt, hlist⟩ : TablesOk mid ∧ mid.pde (p / 1024) ≠ 0 ∧
      (∀ d < 1024, ∀ t < 1024, mid.pte d t = vm.pte d t) ∧ mid.virtBitmap = vm.virtBitmap ∧
      mid.partialPages = vm.partialPages := by
    unfold ensureTable at hmid
    split at hmid
    next hzero => exact installTable_spec h hd hzero hmid
    next hne =>
      cases hmid
      exact ⟨h, hne, fun _ _ _ _ => rfl, rfl, rfl⟩
  have hempty : mid.pte (p / 1024) (p % 1024) = 0 := by
    rw [hpte _ hd _ ht]
    by_contra hne
    exact hfree ⟨hp, hne⟩
  have hword : mid.mem.getNat (mid.pde (p / 1024) + pteSize * (p % 1024)) pteSize = 0 := by
    unfold Vm.pte at hempty
    rwa [if_neg hpde] at hempty
  rw [if_neg (not_not.2 hword), Option.some.injEq, Prod.mk.injEq] at hm
  obtain ⟨hm, -⟩ := hm
  obtain ⟨hpdes, hptes⟩ := storePte_spec hok hd ht hpde hphy hm.symm
  refine ⟨?_, fun d hd' t ht' => ?_, ?_, ?_⟩
  · apply hok.congr _ _ hpdes
    · intro f hset
      rw [← hm]
      exact hset
    · rw [← hm]
    · rw [← hm]
  · rw [hptes d hd' t ht', hpte d hd' t ht']
  · rw [← hm, ← hvirt]
  · rw [← hm, ← hlist]

/-- **A page is mapped** that was free, and joins the pages with room. -/
theorem mapPage_spec (h : MemOk vm) (hp : p < 2 ^ 20) (hfree : isSet vm.virtBitmap p = false)
    (hphy : firstFreePage vm = some phy) (hn : n < 4096)
    (hm : mapPages 1 vm (p * 4096) phy n = some vm') :
    MemOk vm' ∧ (∀ q, vm'.Mapped q ↔ vm.Mapped q ∨ q = p) ∧
      vm'.partialPages = vm.partialPages ++ [⟨n, p * 4096⟩] := by
  obtain ⟨f, hf, rfl, -⟩ := firstFreePage_spec hphy
  have hfits := h.fits
  rw [numFrames_eq] at hf
  rw [memSize_eq] at hfits
  have hindex : dirIndex (p * 4096) * 1024 + tableIndex (p * 4096) = p := by
    rw [dirIndex_eq, tableIndex_eq]
    omega
  unfold mapPages at hm
  rw [layout_pageTableEntries, hindex] at hm
  obtain ⟨⟨mid, status⟩, hmap, hm⟩ := Option.bind_eq_some_iff.1 hm
  dsimp only at hm
  rw [if_pos (show n < pgSize from hn)] at hm
  obtain ⟨next, -, hm⟩ := Option.bind_eq_some_iff.1 hm
  cases hm
  -- Marking the page and its frame changes no entry.
  have hunmapped : ¬vm.Mapped p := fun hmapped => by
    rw [h.virt p hmapped] at hfree
    cases hfree
  generalize hmarked : Vm.mk vm.mem _ _ _ _ _ _ = marked at hmap
  have hpte : ∀ d t, marked.pte d t = vm.pte d t := by
    intro d t
    rw [← hmarked]
    rfl
  have hok : TablesOk marked := by
    apply h.toTablesOk.congr
    · rw [← hmarked]
    · rw [← hmarked]
    · intro d _
      rw [← hmarked]
      rfl
    · intro f hset
      rw [← hmarked]
      simp [hset]
  obtain ⟨hok', hptes, hvirt, hlist⟩ := pageMap_spec hok hp
    (fun hmapped => hunmapped ⟨hp, hpte _ _ ▸ hmapped.2⟩) (by omega) hmap
  have hmapped : ∀ q, mid.Mapped q ↔ vm.Mapped q ∨ q = p := by
    intro q
    unfold Vm.Mapped
    by_cases hq : q < 2 ^ 20
    · rw [hptes _ (by omega) _ (by omega), hpte]
      split
      next heq =>
        have hstart := h.start
        simp only [hq, true_and]
        exact ⟨fun _ => .inr (by omega), fun _ => by omega⟩
      next hne =>
        simp only [hq, true_and, show q ≠ p from fun hqp => hne (by rw [hqp]; simp), or_false]
    · simp only [hq, false_and, false_or, false_iff]
      exact fun hqp => hq (hqp ▸ hp)
  refine ⟨⟨?_, fun q hq => ?_⟩, hmapped, ?_⟩
  · exact hok'.congr rfl rfl (fun _ _ => rfl) fun _ hset => hset
  · have hbits : isSet mid.virtBitmap q = (decide (q = p) || isSet vm.virtBitmap q) := by
      rw [hvirt, ← hmarked, setBitAtIndex_bit]
    refine hbits.trans ?_
    rcases (hmapped q).1 hq with hold | hqp
    · simp [h.virt q hold]
    · simp [hqp]
  · change mid.partialPages ++ _ = _
    rw [hlist, ← hmarked]

/-! ## The start -/

/-- **`set_physical_mem`** leaves no page mapped, and no page with room. -/
theorem setPhysicalMem_spec (hbase : base + memSize ≤ 2 ^ 32)
    (hs : setPhysicalMem base vm = some vm') :
    MemOk vm' ∧ (∀ q, ¬vm'.Mapped q) ∧ vm'.partialPages = [] := by
  unfold setPhysicalMem at hs
  split at hs
  next => cases hs
  next hne =>
    obtain ⟨pageDir, hpd, hs⟩ := Option.bind_eq_some_iff.1 hs
    obtain ⟨f, hf, rfl, -⟩ := firstFreePage_spec hpd
    dsimp only at hs
    have hindex : (base + f * 4096 - base) / pgSize = f := by
      unfold pgSize
      omega
    rw [hindex, Option.some.injEq] at hs
    have hpde : ∀ d < 1024, vm'.pde d = 0 := by
      intro d hd
      unfold Vm.pde pteSize
      rw [← hs]
      refine Bytes.getNat_of_zero fun k hk => ?_
      rw [layout_pageDirEntries]
      unfold pteSize
      exact Bytes.fill_of_inside (by dsimp only; omega) (by dsimp only; omega)
    have hunmapped : ∀ q, ¬vm'.Mapped q := by
      intro q ⟨hq, hpte⟩
      exact hpte (if_pos (hpde _ (by omega)))
    have hown : ∀ o r, vm'.own o = some r → o = none ∧ r = base + f * 4096 := by
      intro o r ho
      cases o with
      | none =>
        rw [← hs] at ho
        exact ⟨rfl, (Option.some.inj ho).symm⟩
      | some d =>
        simp only [Vm.own, Option.ite_none_right_eq_some] at ho
        exact absurd (hpde d ho.1.1) ho.1.2
    refine ⟨⟨⟨?_, ?_, ?_, ?_⟩, fun q hq => absurd hq (hunmapped q)⟩, hunmapped, ?_⟩
    · rw [← hs]
      exact Nat.pos_of_ne_zero hne
    · rw [← hs]
      exact hbase
    · intro i j r hi hj
      rw [(hown i r hi).1, (hown j r hj).1]
    · intro i r hi
      rw [(hown i r hi).2, ← hs]
      exact ⟨f, hf, rfl, by simp⟩
    · rw [← hs]

end UserOS.Fragment
