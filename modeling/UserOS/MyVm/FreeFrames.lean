import UserOS.Lib.FreeFrames
import UserOS.MyVm.Exhaustion

/-!
# What free frames hold

`set_physical_mem` clears the memory and `t_free` clears the pages that it takes back. `t_malloc`
clears nothing: that new pages are zero rests on free frames being zero.

* `Clean`: every frame without an owner is zero.
* `tMalloc_clean`, `tFree_clean`, `putValue_inUse`: the calls keep this.
-/

namespace UserOS.MyVm

open Lib

/-- Every frame without an owner is zero. -/
def Clean (vm : Vm) : Prop := Cleared pgSize 0 vm.IsFrame vm.owns vm.mem

variable {vm mid vm' : Vm} {μ : Malloc TlbNode} {val : Bytes}
  {a d f t n va phy pos offset base numBytes : ℕ}

/-! ## `t_malloc` -/

/-- `vm'` is `vm` but for the page directory and the page tables. What has a frame keeps it. -/
structure Tabled (vm vm' : Vm) : Prop where
  start : vm'.memoryStart = vm.memoryStart
  frames : GrownFrames pgSize vm.IsFrame (fun o => o.isTable = true) vm.owns vm'.owns vm.mem vm'.mem

theorem Vm.isFrame_congr (h : vm'.memoryStart = vm.memoryStart) : vm'.IsFrame = vm.IsFrame := by
  unfold Vm.IsFrame
  rw [h]

theorem Tabled.refl (vm : Vm) : Tabled vm vm := ⟨rfl, .refl⟩

theorem Tabled.trans (h : Tabled vm mid) (h' : Tabled mid vm') : Tabled vm vm' :=
  ⟨h'.start.trans h.start, h.frames.trans (Vm.isFrame_congr h.start ▸ h'.frames)⟩

theorem Clean.tabled (h : Clean vm) (hs : Tabled vm vm') : Clean vm' := by
  unfold Clean
  rw [Vm.isFrame_congr hs.start]
  exact hs.frames.cleared h

/-- The frame of a page that is new was clean. -/
theorem Clean.newPage (h : Clean vm) (hs : Tabled vm vm') (hok : FramesOk vm') {p : ℕ}
    (hp : p < 65536) (hold : vm.pteAt p = 0) (hnew : vm'.pteAt p ≠ 0) {k : ℕ} (hk : k < pgSize) :
    vm'.mem (vm'.pteAt p + k) = 0 := by
  have howns := Vm.owns_pteAt hp hnew
  have hframe : vm'.IsFrame (vm'.pteAt p) := hok.apart.frames.used howns
  rw [Vm.isFrame_congr hs.start] at hframe
  have hnone : vm.owns (.page (p / 16384) (p % 16384)) = none := if_neg fun hh => hh.2.2 hold
  have htable : ¬(Owner.page (p / 16384) (p % 16384)).isTable = true := nofun
  exact hs.frames.new h (fun _ _ _ => hok.frames.inj) hframe htable hnone howns hk

/-- A page table in a free frame. -/
theorem Installed.tabled (hi : Installed vm vm' d f) (h : FramesOk vm) (hd : d < 4)
    (hpde : vm.pde d = 0) : Tabled vm vm' := by
  refine ⟨by rw [hi.eq], ⟨fun o a ho => ?_, fun a ha hun k hk => ?_⟩⟩
  · rw [hi.owns, Function.update_of_ne, ho]
    rintro rfl
    simp [Vm.owns, hpde] at ho
  · have hdir := h.apart.tablesApart.dir_frame.disjoint ha fun heq => hun .dir rfl (by
      rw [hi.owns, Function.update_of_ne (by simp)]
      exact congrArg some heq)
    have hnew := Vm.IsFrame.disjoint ⟨f, hi.lt, rfl⟩ ha fun heq => hun (.table d) rfl (by
      rw [hi.owns, Function.update_self, heq])
    unfold pgSize at hk
    exact hi.mem _ (by omega) (by omega)

/-- An entry in a page table, where there was none. -/
theorem storePte_tabled (h : FramesOk vm) (hd : d < 4) (ht : t < 16384) (hpde : vm.pde d ≠ 0)
    (hzero : vm.pte d t = 0) {v : ℕ} (hv : v < 2 ^ 32) : Tabled vm (vm.storePte d t v) := by
  refine ⟨rfl, ⟨fun o a ho => ?_, fun a ha hun k hk => ?_⟩⟩
  · rw [Vm.storePte_owns h.apart.tablesApart hd ht hpde hv, Function.update_of_ne, ho]
    rintro rfl
    simp [Vm.owns, hzero] at ho
  · have htable := (h.apart.tablesApart.table_frame hd hpde).disjoint ha fun heq =>
      hun (.table d) rfl (by
        rw [Vm.storePte_owns h.apart.tablesApart hd ht hpde hv, Function.update_of_ne (by simp),
          ← heq]
        exact Vm.owns_of_tableOwns (TablesApart.tableOwns_table hd hpde))
    unfold pgSize at hk
    exact Bytes.setNat_of_outside (by unfold pteSize; omega)

theorem pageMap_tabled {status : ℤ} (h : FramesOk vm) (hv : phy < 2 ^ 32)
    (hm : pageMap vm va phy = some (vm', status)) : Tabled vm vm' := by
  obtain ⟨mid, hmid, -, hpde, hcases⟩ := pageMap_cases h.tablesOk hm
  have hd := dirIndex_lt va
  obtain ⟨hfirst, hok⟩ : Tabled vm mid ∧ FramesOk mid := by
    obtain rfl | ⟨h0, f, hi⟩ := hmid
    · exact ⟨.refl _, h⟩
    · exact ⟨hi.tabled h hd h0, hi.framesOk h⟩
  obtain ⟨-, rfl, -⟩ | ⟨hzero, rfl, -⟩ := hcases
  · exact hfirst
  · exact hfirst.trans (storePte_tabled hok hd (tableIndex_lt va) hpde hzero hv)

/-- The loop of `t_malloc`. -/
theorem mapPages_tabled (n : ℕ) : ∀ {vm : Vm} {va phy : ℕ}, FramesOk vm → va < 2 ^ 32 →
    firstFreePage vm = some phy → mapPages n vm va phy = some vm' → Tabled vm vm' := by
  induction n with
  | zero =>
    intro vm va phy _ _ _ hm
    rw [mapPages, Option.some.injEq] at hm
    exact hm ▸ .refl vm
  | succ n ih =>
    intro vm va phy h hva hphy hm
    obtain ⟨⟨mid, status⟩, hmap, hm⟩ := Option.bind_eq_some_iff.1 hm
    obtain ⟨phy', hphy', hrest⟩ := Option.bind_eq_some_iff.1 hm
    obtain ⟨f, tables, hs⟩ := mapPage_step h hva hphy hmap
    obtain ⟨g, hg, rfl, -⟩ := firstFreePage_eq_some hphy
    have hmarked : FramesOk (vm.marked va (frameAddr vm.memoryStart g)) := by
      rw [Vm.marked_eq hva]
      exact h.mark
    have hphyLt : frameAddr vm.memoryStart g < 2 ^ 32 := by
      have hbounds := (show vm.IsFrame (frameAddr vm.memoryStart g) from ⟨g, hg, rfl⟩).bounds
      have hfits := h.fits
      omega
    have hfirst : Tabled (vm.marked va (frameAddr vm.memoryStart g)) mid :=
      pageMap_tabled hmarked hphyLt hmap
    have hstart : Tabled vm mid := ⟨hfirst.start, hfirst.frames⟩
    refine hstart.trans (ih hs.frames ?_ hphy' hrest)
    split_ifs
    · exact hva
    · exact getNextPage_lt hva

theorem setPhysicalMem_clean (hs : setPhysicalMem base vm = some vm') : Clean vm' := by
  unfold setPhysicalMem at hs
  split_ifs at hs
  obtain ⟨pageDir, -, hs⟩ := Option.bind_eq_some_iff.1 hs
  obtain rfl := Option.some.inj hs
  intro a ha _ k hk
  have hbounds := ha.bounds
  dsimp only at hbounds ⊢
  unfold pgSize at hk
  by_cases hin : pageDir ≤ a + k ∧ a + k < pageDir + pteSize * layout.pageDirEntries
  · exact Bytes.fill_of_inside hin.1 hin.2
  · rw [Bytes.fill_of_outside (by omega)]
    exact Bytes.fill_of_inside (by omega) (by omega)

theorem setUp_clean (hclean : vm.memoryStart ≠ 0 → Clean vm)
    (he : (vm.lock >>= ensureMemory base) = some mid) : Clean mid := by
  obtain ⟨vm₀, hlock, hens⟩ := Option.bind_eq_some_iff.1 he
  unfold Vm.lock at hlock
  split_ifs at hlock
  obtain rfl := Option.some.inj hlock
  unfold ensureMemory at hens
  split_ifs at hens with h0
  · exact setPhysicalMem_clean hens
  · obtain rfl := Option.some.inj hens
    exact hclean h0

/-- **A new region is zero**, and the frames left are clean. -/
theorem tMalloc_clean (h : Usable vm) (hclean : vm.memoryStart ≠ 0 → Clean vm)
    (hbase : vm.memoryStart = 0 → base + memSize ≤ 2 ^ 32) (hn : 1 ≤ numBytes)
    (hs : served base vm numBytes) (hm : tMalloc base vm numBytes = some (vm', va)) :
    Clean vm' ∧ ∀ p, pageNumber va ≤ p → p < pageNumber va + pagesRequired numBytes →
      ∀ k < pgSize, vm'.mem (vm'.pteAt p + k) = 0 := by
  obtain ⟨vm₁, he, hs⟩ := (Option.any_eq_true _ _).1 hs
  obtain ⟨hva, hpages⟩ := (Bool.and_eq_true _ _).mp hs
  obtain ⟨va', hva⟩ := Option.isSome_iff_exists.1 hva
  have hok := setUp_memOk h hbase he
  obtain ⟨p, rfl, hp, hfree⟩ := getNextAvail_spec (pagesRequired_pos hn) hva
  rw [tMalloc_eq he, if_pos hpages, hva, Option.getD_some] at hm
  obtain ⟨phy, hphy, hm⟩ := Option.bind_eq_some_iff.1 hm
  obtain ⟨vm₂, hmaps, hm⟩ := Option.map_eq_some_iff.1 hm
  cases hm
  have hpn : pageNumber (p * pgSize) = p := Nat.mul_div_cancel p (by decide)
  have hlt : p * pgSize < 2 ^ 32 := by
    have hpos := pagesRequired_pos hn
    unfold pgSize
    omega
  have hgrown := mapPages_spec hok hlt (by rwa [hpn]) (by rwa [hpn]) hphy hmaps
  have htabled := mapPages_tabled _ hok.frames hlt hphy hmaps
  have hbefore := setUp_clean hclean he
  have hafter := hbefore.tabled htabled
  refine ⟨hafter, fun i h1 h2 k hk => ?_⟩
  rw [hpn] at h1 h2 hgrown
  exact hbefore.newPage htabled hgrown.ok.frames (by omega)
    (hok.virt.pteAt_eq_zero (by omega) (hfree i h1 h2)) (hgrown.new i h1 h2) hk

/-! ## `t_free` -/

/-- The owners of frames other than the pages freed. -/
theorem Freed.owns_of_ne {phy : ℕ} {o : Owner} (hf : Freed vm vm' d t n phy)
    (ho : vm.owns o = some a) (hne : ∀ t', t ≤ t' → t' < t + n → o ≠ .page d t') :
    vm'.owns o = some a := by
  cases o with
  | dir =>
    rw [← ho]
    exact (hf.owns .dir vm'.pageDir rfl).symm
  | table d' =>
    simp only [Vm.owns, layout_pageDirEntries] at ho ⊢
    split_ifs at ho with hb
    rw [hf.pde d' hb.1, if_pos hb, ho]
  | page d' t' =>
    simp only [Vm.owns, layout_pageDirEntries, layout_pageTableEntries] at ho ⊢
    split_ifs at ho with hb
    have hpte : vm'.pte d' t' = vm.pte d' t' := by
      rw [hf.pte d' hb.1 t' hb.2.1, if_neg]
      rintro ⟨rfl, h1, h2⟩
      exact hne t' h1 h2 rfl
    rw [hpte, if_pos hb, ho]

/-- A page freed leaves a clean frame. -/
theorem freePage_clean {phy : ℕ} (h : FramesApart vm) (htlb : TlbAgrees vm) (hd : d < 4)
    (ht : t < 16384) (hpde : vm.pde d ≠ 0) (hne : vm.pte d t ≠ 0) (hclean : Clean vm)
    (hf : freePage vm (vm.pde d) d t phy = some vm') : Clean vm' := by
  obtain ⟨vm'', hcall, hfreed⟩ := freePage_spec (f := phy) h htlb hd ht hpde hne
  obtain rfl := Option.some.inj (hf.symm.trans hcall)
  have howns := Vm.owns_page hd ht hne
  have htable := Vm.owns_of_tableOwns (TablesApart.tableOwns_table hd hpde)
  have hapart := (h.frames.used howns).disjoint (h.frames.used htable)
    (h.frames.ne howns htable (by simp))
  have hmem : vm'.mem = (vm.mem.fill (vm.pte d t) pgSize 0).setNat
      (vm.pde d + pteSize * t) pteSize 0 := by
    unfold freePage at hf
    rw [Vm.word_eq_pte hpde] at hf
    obtain ⟨T, -, hf⟩ := Option.bind_eq_some_iff.1 hf
    rw [← Option.some.inj hf]
  unfold Clean
  rw [Vm.isFrame_congr hfreed.start, hmem]
  refine Cleared.step hclean fun a hframe hun => ?_
  unfold pgSize
  by_cases heq : a = vm.pte d t
  · subst heq
    refine .inl fun k hk => ?_
    rw [Bytes.setNat_of_outside (by unfold pteSize; omega)]
    exact Bytes.fill_of_inside (by omega) (by omega)
  · have hunowned : ∀ o, vm.owns o ≠ some a := fun o ho => by
      refine hun o (hfreed.owns_of_ne ho fun t' h1 h2 hpage => ?_)
      obtain rfl : t' = t := by omega
      rw [hpage, howns, Option.some.injEq] at ho
      exact heq ho.symm
    have hpage := hframe.disjoint (h.frames.used howns) heq
    have htab := hframe.disjoint (h.frames.used htable) fun hh => hunowned _ (hh ▸ htable)
    refine .inr ⟨hunowned, fun k hk => ?_⟩
    rw [Bytes.setNat_of_outside (by unfold pteSize; omega), Bytes.fill_of_outside (by omega)]

theorem freePages_clean {pageTable : ℕ} (n : ℕ) : ∀ {vm : Vm} {t phy : ℕ}, FramesApart vm →
    TlbAgrees vm → d < 4 → t + n ≤ 16384 → pageTable = vm.pde d → vm.pde d ≠ 0 →
    (∀ i < n, vm.pte d (t + i) ≠ 0) → Clean vm →
    freePages pageTable d n vm t phy = some vm' → Clean vm' := by
  induction n with
  | zero =>
    intro vm t phy _ _ _ _ _ _ _ hclean hf
    rw [freePages, Option.some.injEq] at hf
    exact hf ▸ hclean
  | succ n ih =>
    intro vm t phy h htlb hd ht htable hpde hne hclean hf
    subst htable
    obtain ⟨mid, hmid, hrest⟩ := Option.bind_eq_some_iff.1 hf
    have hne0 : vm.pte d t ≠ 0 := hne 0 (by omega)
    have hfirst := freePage_clean h htlb hd (by omega) hpde hne0 hclean hmid
    obtain ⟨mid', hcall, hfreed⟩ := freePage_spec (f := phy) h htlb hd (by omega) hpde hne0
    obtain rfl := Option.some.inj (hmid.symm.trans hcall)
    refine ih hfreed.apart hfreed.tlb hd (by omega) (hfreed.pde d hd).symm
      (by rwa [hfreed.pde d hd]) (fun i hi => ?_) hfirst hrest
    rw [hfreed.pte d hd _ (by omega), if_neg (by omega), show t + 1 + i = t + (i + 1) by omega]
    exact hne (i + 1) (by omega)

/-- **What `t_free` takes back is clean.** -/
theorem tFree_clean {size : ℤ} (h : FramesApart vm) (htlb : TlbAgrees vm)
    (hok : FreeOk vm va size) (hclean : Clean vm) (hf : tFree vm va size = some vm') :
    Clean vm' := by
  obtain ⟨vm₀, hlock, hf⟩ := Option.bind_eq_some_iff.1 hf
  unfold Vm.lock at hlock
  split_ifs at hlock
  obtain rfl := Option.some.inj hlock
  dsimp only at hf
  split_ifs at hf with h0 hrefused
  · exact Option.some.inj hf ▸ hclean
  · exact Option.some.inj hf ▸ hclean
  · push Not at h0 hrefused
    obtain ⟨vm₂, hfree, hf⟩ := Option.bind_eq_some_iff.1 hf
    have hfits : tableIndex va + pagesRequired size ≤ 16384 := by
      unfold FreeOk at hok
      by_contra hcross
      rw [layout_pageTableEntries, if_neg hcross] at hok
      obtain ⟨i, hi, hz⟩ := hok
      exact hrefused i hi hz
    have hlocked : FramesApart { vm with mutex := true } := ⟨⟨h.start, h.fits⟩, h.frames⟩
    have hafter := freePages_clean (pagesRequired size) hlocked htlb (dirIndex_lt va) hfits rfl h0.2
      (fun i hi => by
        have hword := hrefused i hi
        rwa [Vm.word_eq_pte h0.2] at hword) hclean hfree
    exact Option.some.inj hf ▸ hafter

/-! ## `put_value` -/

/-- `vm'` is `vm` but for bytes of frames in use, the TLB and the lock. -/
structure InUse (vm vm' : Vm) : Prop where
  start : vm'.memoryStart = vm.memoryStart
  owns : vm'.owns = vm.owns
  phy : vm'.phyBitmap = vm.phyBitmap
  virt : vm'.virtBitmap = vm.virtBitmap
  mem : ∀ x, (∀ o a, vm.owns o = some a → x < a ∨ a + pgSize ≤ x) → vm'.mem x = vm.mem x

theorem InUse.refl (vm : Vm) : InUse vm vm := ⟨rfl, rfl, rfl, rfl, fun _ _ => rfl⟩

theorem InUse.trans (h : InUse vm mid) (h' : InUse mid vm') : InUse vm vm' where
  start := h'.start.trans h.start
  owns := h'.owns.trans h.owns
  phy := h'.phy.trans h.phy
  virt := h'.virt.trans h.virt
  mem x hx := by rw [h'.mem x (by rwa [h.owns]), h.mem x hx]

theorem Clean.inUse (h : Clean vm) (hok : FramesApart vm) (hs : InUse vm vm') : Clean vm' := by
  unfold Clean
  rw [Vm.isFrame_congr hs.start, hs.owns]
  refine Cleared.step h fun a hframe hun => .inr ⟨hun, fun k hk => hs.mem _ fun o b ho => ?_⟩
  have hdisj := hframe.disjoint (hok.frames.used ho) fun heq => hun o (heq ▸ ho)
  unfold pgSize at *
  omega

theorem pageWalk_of_not_mapped (h : ¬vm.Mapped va) : pageWalk vm va = none :=
  if_pos (not_not.1 h)

/-- A copy to a page. -/
theorem memcpy_inUse (val : Bytes) (pos : ℕ) (h : PagesOk vm) (hmap : vm.Mapped a)
    (hn : a % pgSize + n ≤ pgSize) :
    InUse vm { vm with mem := vm.mem.copy (vm.phys a) val pos n } := by
  have hout : ∀ x, x < vm.entry a ∨ vm.entry a + pgSize ≤ x →
      vm.mem.copy (vm.phys a) val pos n x = vm.mem x := fun x hx =>
    Bytes.copy_of_outside (by unfold Vm.phys; omega)
  obtain ⟨hpde, hpte⟩ := h.store_pte { vm with mem := vm.mem.copy (vm.phys a) val pos n }
    (dirIndex_lt a) (tableIndex_lt a) hmap rfl hout
  exact ⟨rfl, Vm.owns_congr rfl hpde hpte, rfl, rfl,
    fun x hx => hout x (hx _ _ (Vm.owns_of_mapped hmap))⟩

/-- The copying loop of `put_value`, for any range. -/
theorem putLoop_inUse (μ : Malloc TlbNode) (val : Bytes) (fuel : ℕ) :
    ∀ {vm : Vm} {va pos offset n : ℕ}, PagesOk vm → TlbAgrees vm → va < 2 ^ 32 →
    offset < pgSize → putLoop μ fuel vm va val pos offset n = some vm' → InUse vm vm' := by
  induction fuel with
  | zero =>
    intro vm va pos offset n _ _ _ _ hput
    rw [putLoop] at hput
    split_ifs at hput
    exact Option.some.inj hput ▸ .refl vm
  | succ fuel ih =>
    intro vm va pos offset n h htlb hva hoff hput
    by_cases hn : n = 0
    · rw [putLoop_done (by omega), Option.some.injEq] at hput
      exact hput ▸ .refl vm
    obtain ⟨T, htr, hagrees⟩ := translate_spec μ htlb h.dir_pos va
    have hT : InUse vm { vm with tlb := T } := ⟨rfl, rfl, rfl, rfl, fun _ _ => rfl⟩
    by_cases hmap : vm.Mapped va
    · rw [Vm.pageWalk_of_mapped hmap] at htr
      rw [putLoop_succ (by omega) htr] at hput
      have hcursor : cursor va offset < 2 ^ 32 := by
        unfold cursor pageNumber
        unfold pgSize at *
        omega
      have hentry : vm.entry (cursor va offset) = vm.entry va :=
        Vm.entry_of_page (cursor_page hoff)
      have hphys : vm.entry va + offset = vm.phys (cursor va offset) := by
        rw [Vm.phys, cursor_mod hoff, hentry]
      have hmapped : Vm.Mapped { vm with tlb := T } (cursor va offset) := by
        show vm.entry (cursor va offset) ≠ 0
        rwa [hentry]
      have hin : cursor va offset % pgSize + min n (pgSize - offset) ≤ pgSize := by
        rw [cursor_mod hoff]
        omega
      rw [hphys] at hput
      have hcopy := memcpy_inUse val pos (h.withTlb T) hmapped hin
      have hstored := stored_memcpy val pos (h.withTlb T) hagrees hcursor hmapped hin
      exact (hT.trans hcopy).trans (ih hstored.pages hstored.tlb (getNextPage_lt hva)
        (by decide) hput)
    · rw [pageWalk_of_not_mapped hmap] at htr
      rw [putLoop, if_neg (by omega)] at hput
      simp only [htr, Option.bind_eq_bind, Option.bind_some, Option.some.injEq] at hput
      exact hput ▸ hT

/-- **What `put_value` leaves alone**, for any range. -/
theorem putValue_inUse (h : PagesOk vm) (htlb : TlbAgrees vm) (hva : va < 2 ^ 32)
    (hput : putValue μ vm va val n = some vm') : InUse vm vm' := by
  have hoff : pageOffset va < pgSize := by rw [pageOffset_eq]; exact Nat.mod_lt _ (by decide)
  obtain ⟨vm₀, hlock, hput⟩ := Option.bind_eq_some_iff.1 hput
  unfold Vm.lock at hlock
  split_ifs at hlock
  obtain rfl := Option.some.inj hlock
  have hlocked : InUse vm { vm with mutex := true } := ⟨rfl, rfl, rfl, rfl, fun _ _ => rfl⟩
  have hpages : PagesOk { vm with mutex := true } := ⟨⟨h.start, h.fits⟩, h.frame, h.page⟩
  dsimp only at hput
  split_ifs at hput with h0 hshort
  · exact absurd h0 h.start.ne'
  · obtain ⟨T, htr, hagrees⟩ := translate_spec μ
      (show TlbAgrees { vm with mutex := true } from htlb) hpages.dir_pos va
    simp only [htr, Option.bind_eq_bind, Option.bind_some] at hput
    by_cases hmap : vm.Mapped va
    · have hwalk : pageWalk { vm with mutex := true } va = some (vm.entry va) :=
        Vm.pageWalk_of_mapped hmap
      have hphys : vm.entry va + pageOffset va = vm.phys va := by rw [pageOffset_eq]; rfl
      have hin : va % pgSize + n ≤ pgSize := by
        rw [pageOffset_eq] at hshort
        unfold pgSize at *
        omega
      simp only [hwalk, Vm.memcpy, if_neg (show ¬(n : ℤ) < 0 by omega), Option.bind_some,
        Int.toNat_natCast, hphys] at hput
      obtain rfl := Option.some.inj hput
      have hcopy := memcpy_inUse val 0 h hmap hin
      exact ⟨rfl, hcopy.owns, rfl, rfl, hcopy.mem⟩
    · have hnone : pageWalk { vm with mutex := true } va = none := pageWalk_of_not_mapped hmap
      rw [hnone] at hput
      obtain rfl := Option.some.inj hput
      exact ⟨rfl, rfl, rfl, rfl, fun _ _ => rfl⟩
  · obtain ⟨T, b, hcheck, hagrees, -⟩ := checkLoop_eq μ hpages.dir_pos
      (show TlbAgrees { vm with mutex := true } from htlb) hva hoff (le_refl n)
    rw [Int.toNat_natCast] at hput
    simp only [hcheck, Option.bind_eq_bind, Option.bind_some] at hput
    cases b with
    | false =>
      obtain rfl := Option.some.inj hput
      exact ⟨rfl, rfl, rfl, rfl, fun _ _ => rfl⟩
    | true =>
      rw [if_pos rfl] at hput
      obtain ⟨vm₂, hloop, hput⟩ := Option.bind_eq_some_iff.1 hput
      obtain rfl := Option.some.inj hput
      have hrest := putLoop_inUse μ val n (hpages.withTlb T) hagrees hva hoff hloop
      exact ⟨hrest.start, hrest.owns, hrest.phy, hrest.virt, hrest.mem⟩

end UserOS.MyVm
