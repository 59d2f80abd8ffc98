import UserOS.MyVm.Translate

/-!
# Virtual pages

A virtual address has a page, whose table entry is the address of a frame, and an offset in it.

* `PagesOk`: mapped pages have frames of their own, apart from the page directory and the tables.
* `PagesOk.store_pte`: stores into a page leave the page tables alone.
-/

namespace UserOS.MyVm

open Lib

/-- The table entry of the page of `a`. -/
def Vm.entry (vm : Vm) (a : ℕ) : ℕ := vm.pte (dirIndex a) (tableIndex a)

/-- The page of `a` is mapped. -/
def Vm.Mapped (vm : Vm) (a : ℕ) : Prop := vm.entry a ≠ 0

/-- The physical address of `a`. -/
def Vm.phys (vm : Vm) (a : ℕ) : ℕ := vm.entry a + a % pgSize

/-- Mapped pages have frames of their own. -/
structure PagesOk (vm : Vm) : Prop extends Placed vm where
  frame : ∀ {o a}, vm.owns o = some a → vm.IsFrame a
  page : ∀ {d t o a}, vm.owns (.page d t) = some a → vm.owns o = some a → o = .page d t

variable {vm vm' : Vm} {a b : ℕ}

theorem FramesApart.pagesOk (h : FramesApart vm) : PagesOk vm where
  toPlaced := h.toPlaced
  frame := h.frames.used
  page hp ho := h.frames.inj ho hp

theorem PagesOk.withTlb (h : PagesOk vm) (T : Tlb) : PagesOk { vm with tlb := T } :=
  ⟨⟨h.start, h.fits⟩, h.frame, h.page⟩

theorem PagesOk.dir_pos (h : PagesOk vm) : vm.pageDir ≠ 0 := by
  have := (h.frame (o := .dir) rfl).bounds
  have := h.start
  omega

theorem fields_eq_of_page (h : pageNumber a = pageNumber b) :
    dirIndex a = dirIndex b ∧ tableIndex a = tableIndex b := by
  unfold pageNumber pgSize at h
  rw [dirIndex_eq, dirIndex_eq, tableIndex_eq, tableIndex_eq]
  omega

theorem page_eq_of_fields (ha : a < 2 ^ 32) (hb : b < 2 ^ 32) (hd : dirIndex a = dirIndex b)
    (ht : tableIndex a = tableIndex b) : pageNumber a = pageNumber b := by
  rw [pageNumber_eq ha, pageNumber_eq hb, hd, ht]

theorem Vm.entry_of_page (h : pageNumber a = pageNumber b) : vm.entry a = vm.entry b := by
  unfold Vm.entry
  rw [(fields_eq_of_page h).1, (fields_eq_of_page h).2]

theorem Vm.pageWalk_of_mapped (h : vm.Mapped a) : pageWalk vm a = some (vm.entry a) :=
  pageWalk_eq_some.2 ⟨h, rfl⟩

theorem Vm.owns_page {d t : ℕ} (hd : d < 4) (ht : t < 16384) (h : vm.pte d t ≠ 0) :
    vm.owns (.page d t) = some (vm.pte d t) := by
  simp only [Vm.owns, layout_pageDirEntries, layout_pageTableEntries]
  exact if_pos ⟨hd, ht, h⟩

theorem Vm.owns_of_mapped (h : vm.Mapped a) :
    vm.owns (.page (dirIndex a) (tableIndex a)) = some (vm.entry a) :=
  Vm.owns_page (dirIndex_lt a) (tableIndex_lt a) h

/-- Pages that differ have frames that do not overlap. -/
theorem PagesOk.entry_disjoint (h : PagesOk vm) (ha : vm.Mapped a) (hb : vm.Mapped b)
    (ha' : a < 2 ^ 32) (hb' : b < 2 ^ 32) (hne : pageNumber a ≠ pageNumber b) :
    vm.entry a + 65536 ≤ vm.entry b ∨ vm.entry b + 65536 ≤ vm.entry a := by
  refine (h.frame (Vm.owns_of_mapped ha)).disjoint (h.frame (Vm.owns_of_mapped hb)) fun heq => ?_
  have := h.page (Vm.owns_of_mapped ha) (heq ▸ Vm.owns_of_mapped hb)
  rw [Owner.page.injEq] at this
  exact hne (page_eq_of_fields ha' hb' this.1.symm this.2.symm)

/-- The frame of a page does not overlap the page directory or a page table. -/
theorem PagesOk.table_disjoint (h : PagesOk vm) {d t : ℕ} {o : Owner} {r s : ℕ}
    (hp : vm.owns (.page d t) = some s) (ho : vm.owns o = some r) (htable : o.isTable) :
    s + 65536 ≤ r ∨ r + 65536 ≤ s := by
  refine (h.frame hp).disjoint (h.frame ho) fun heq => ?_
  have := h.page hp (heq ▸ ho)
  rw [this] at htable
  cases htable

theorem PagesOk.congr (h : PagesOk vm) (hstart : vm'.memoryStart = vm.memoryStart)
    (howns : vm'.owns = vm.owns) : PagesOk vm' where
  start := hstart ▸ h.start
  fits := hstart ▸ h.fits
  frame ho := by
    rw [howns] at ho
    obtain ⟨f, hf, rfl⟩ := h.frame ho
    exact ⟨f, hf, by rw [hstart]⟩
  page hp ho := by
    rw [howns] at hp ho
    exact h.page hp ho

/-- Stores into the frame of a page leave the page tables alone. -/
theorem PagesOk.store_pte (h : PagesOk vm) (vm' : Vm) {d t : ℕ} (hd : d < 4) (ht : t < 16384)
    (hne : vm.pte d t ≠ 0) (hdir : vm'.pageDir = vm.pageDir)
    (hm : ∀ x, x < vm.pte d t ∨ vm.pte d t + 65536 ≤ x → vm'.mem x = vm.mem x) :
    (∀ d' < 4, vm'.pde d' = vm.pde d') ∧
      ∀ d' < 4, ∀ t' < 16384, vm'.pte d' t' = vm.pte d' t' := by
  have howns := Vm.owns_page hd ht hne
  have hpde : ∀ d' < 4, vm'.pde d' = vm.pde d' := fun d' hd' =>
    Vm.pde_congr hdir hd' fun k hk => hm _ (by
      have := h.table_disjoint howns (o := .dir) rfl rfl
      omega)
  refine ⟨hpde, fun d' hd' t' ht' => Vm.pte_congr (hpde d' hd') fun h0 k hk => hm _ ?_⟩
  have := h.table_disjoint howns (o := .table d') (r := vm.pde d') (by simp [Vm.owns, hd', h0]) rfl
  omega

/-! ## Pages by number -/

/-- The table entry of the virtual page with number `p`. -/
def Vm.pteAt (vm : Vm) (p : ℕ) : ℕ := vm.pte (p / 16384) (p % 16384)

/-- Every mapped page is marked in `virt_bitmap`. -/
def VirtOk (vm : Vm) : Prop := ∀ p < 65536, vm.pteAt p ≠ 0 → isSet vm.virtBitmap p = true

theorem VirtOk.pteAt_eq_zero {p : ℕ} (h : VirtOk vm) (hp : p < 65536)
    (hbit : isSet vm.virtBitmap p = false) : vm.pteAt p = 0 := by
  by_contra hne
  rw [h p hp hne] at hbit
  cases hbit

theorem Vm.pteAt_fields {d t : ℕ} (ht : t < 16384) : vm.pteAt (d * 16384 + t) = vm.pte d t := by
  unfold Vm.pteAt
  rw [show (d * 16384 + t) / 16384 = d by omega, show (d * 16384 + t) % 16384 = t by omega]

theorem Vm.pteAt_pageNumber (ha : a < 2 ^ 32) : vm.pteAt (pageNumber a) = vm.entry a := by
  rw [pageNumber_eq ha, Vm.pteAt_fields (tableIndex_lt a), Vm.entry]

theorem Vm.owns_pteAt {p : ℕ} (hp : p < 65536) (h : vm.pteAt p ≠ 0) :
    vm.owns (.page (p / 16384) (p % 16384)) = some (vm.pteAt p) :=
  Vm.owns_page (by omega) (by omega) h

/-- Pages that are mapped to one frame are one page. -/
theorem FramesApart.page_unique (h : FramesApart vm) {i j : ℕ} (hi : i < 65536) (hj : j < 65536)
    (hne : vm.pteAt i ≠ 0) (heq : vm.pteAt i = vm.pteAt j) : i = j := by
  have howns := h.frames.inj (Vm.owns_pteAt hi hne) (heq ▸ Vm.owns_pteAt hj (heq ▸ hne))
  rw [Owner.page.injEq] at howns
  omega

end UserOS.MyVm
