import UserOS.Fragment.Release
import UserOS.Lib.FreeFrames

/-!
# What free frames and the room in shared pages hold

`t_malloc` clears neither a new page nor the room that it hands out in a shared page. Both are zero
because free frames are, and because nobody writes behind the allocations of a page.

* `Clean`: every frame without an owner is zero.
* `Bare`: so is the room behind the allocations of the pages with room.
* `mapPages_tabled`, `tFree_clean`, `putValue_clean`: the calls leave free frames clean.
-/

namespace UserOS.Fragment

open Lib
open MyVm (TlbNode memSize pteSize isSet deleteFromTlb)

/-! ## Frames -/

/-- `a` is the address of a frame. -/
def Vm.IsFrame (vm : Vm) (a : ℕ) : Prop := ∃ f < numFrames, a = vm.memoryStart + f * 4096

/-- Owners that hold table words. -/
def Owner.IsTable : Owner → Prop
  | .dir | .table _ => True
  | .page _ => False

/-- Every frame without an owner is zero. -/
def Clean (vm : Vm) : Prop := Cleared 4096 0 vm.IsFrame vm.owns vm.mem

/-- `vm'` is `vm` but for the page directory and the page tables. What has a frame keeps it. -/
structure Tabled (vm vm' : Vm) : Prop where
  start : vm'.memoryStart = vm.memoryStart
  frames : GrownFrames 4096 vm.IsFrame Owner.IsTable vm.owns vm'.owns vm.mem vm'.mem

variable {μ : Malloc TlbNode} {val : Bytes} {vm vm' mid : Vm} {m m' : Machine}
  {live : List Allocation} {a : Allocation} {b d f p n v va phy base numBytes x : ℕ}

theorem Vm.isFrame_congr (h : vm'.memoryStart = vm.memoryStart) : vm'.IsFrame = vm.IsFrame := by
  unfold Vm.IsFrame
  rw [h]

theorem Vm.Used.isFrame (h : vm.Used x) : vm.IsFrame x := by
  obtain ⟨f, hf, hx, -⟩ := h
  exact ⟨f, hf, hx⟩

theorem Vm.IsFrame.disjoint {y : ℕ} (hx : vm.IsFrame x) (hy : vm.IsFrame y) (hne : x ≠ y) :
    x + 4096 ≤ y ∨ y + 4096 ≤ x := by
  obtain ⟨f, -, rfl⟩ := hx
  obtain ⟨g, -, rfl⟩ := hy
  have : f ≠ g := fun hfg => hne (by rw [hfg])
  omega

namespace Tabled

theorem refl (vm : Vm) : Tabled vm vm := ⟨rfl, .refl⟩

theorem trans (h : Tabled vm mid) (h' : Tabled mid vm') : Tabled vm vm' :=
  ⟨h'.start.trans h.start, h.frames.trans (Vm.isFrame_congr h.start ▸ h'.frames)⟩

theorem clean (hs : Tabled vm vm') (h : Clean vm) : Clean vm' := by
  unfold Clean
  rw [Vm.isFrame_congr hs.start]
  exact hs.frames.cleared h

/-- The frame of a page that is new was clean. -/
theorem newPage (hs : Tabled vm vm') (h : Clean vm) (hok : FramesOk vm') (hp : p < 2 ^ 20)
    (hold : vm.entry p = 0) (hnew : vm'.entry p ≠ 0) {k : ℕ} (hk : k < 4096) :
    vm'.mem (vm'.entry p + k) = 0 := by
  have howns := Vm.owns_page hp hnew
  have hframe := (hok.frames.used howns).isFrame
  rw [Vm.isFrame_congr hs.start] at hframe
  have hnone : vm.owns (.page p) = none := if_neg fun hh => hh.2 hold
  have htable : ¬(Owner.page p).IsTable := not_false
  exact hs.frames.new h (fun _ _ _ => hok.frames.inj) hframe htable hnone howns hk

end Tabled

/-! ## `t_malloc` -/

/-- **A page table** in a free frame. -/
theorem installTable_tabled (h : FramesOk vm) (hd : d < 1024) (hpde : vm.pde d = 0)
    (hi : installTable vm d = some mid) : Tabled vm mid := by
  have hready := installTable_ready h hd hpde hi
  obtain ⟨f, hf, hfree, hmid⟩ := installTable_eq h.fits hi
  have hpageDir : mid.pageDir = vm.pageDir := by rw [hmid]
  have hstart : mid.memoryStart = vm.memoryStart := by rw [hmid]
  have hframe : vm.IsFrame (vm.memoryStart + f * 4096) := ⟨f, hf, rfl⟩
  have hnot : ¬vm.Used (vm.memoryStart + f * 4096) := Vm.not_used hfree
  have hlt : vm.memoryStart + f * 4096 < 2 ^ 32 := by
    have hfits := h.fits
    rw [numFrames_eq] at hf
    rw [memSize_eq] at hfits
    omega
  generalize vm.memoryStart + f * 4096 = frame at hmid hframe hnot hlt
  have hdirUsed : vm.Used vm.pageDir := h.frames.used (i := .dir) rfl
  have hapart := hframe.disjoint hdirUsed.isFrame fun heq => hnot (heq ▸ hdirUsed)
  have hmem : ∀ y, y < frame ∨ frame + 4096 ≤ y →
      y < vm.pageDir + 4 * d ∨ vm.pageDir + 4 * d + 4 ≤ y → mid.mem y = vm.mem y := by
    intro y h1 h2
    rw [hmid]
    exact (Bytes.fill_of_outside h1).trans (Bytes.setNat_of_outside (by unfold pteSize; omega))
  have hself : mid.pde d = frame := by
    have hword := Bytes.getNat_setNat_self vm.mem (vm.pageDir + 4 * d) 4 frame
    rw [Nat.mod_eq_of_lt (by omega)] at hword
    rw [← hword]
    unfold Vm.pde pteSize
    rw [hmid]
    exact Bytes.getNat_congr fun k hk => Bytes.fill_of_outside (by dsimp only; omega)
  refine ⟨hstart, ⟨fun o r ho => ?_, fun r hr hun k hk => ?_⟩⟩
  · cases o with
    | dir => exact (congrArg some hpageDir).trans ho
    | table e =>
      simp only [Vm.owns, Option.ite_none_right_eq_some] at ho
      have hed : e ≠ d := fun hed => ho.1.2 (hed ▸ hpde)
      have hkept : mid.pde e = vm.pde e := by
        unfold Vm.pde pteSize
        rw [hpageDir]
        exact Bytes.getNat_congr fun k hk => hmem _ (by omega) (by omega)
      rw [Vm.owns_table ho.1.1 (hkept ▸ ho.1.2), hkept]
      exact ho.2
    | page q =>
      obtain ⟨hq, hne, rfl⟩ := Vm.owns_page_eq ho
      have hkept := hready.entry q hq
      rw [Vm.owns_page hq (hkept ▸ hne), hkept]
  · have hframe' := hr.disjoint hframe fun heq => hun (.table d) trivial <| by
      rw [Vm.owns_table hd hready.pde, hself, heq]
    have hdir := hr.disjoint hdirUsed.isFrame fun heq => hun .dir trivial <|
      (congrArg some hpageDir).trans (congrArg some heq.symm)
    exact hmem _ (by omega) (by omega)

/-- **An entry** in a page table, where there was none. -/
theorem storeEntry_tabled (h : FramesOk vm) (hp : p < 2 ^ 20) (hpde : vm.pde (p / 1024) ≠ 0)
    (hv : v < 2 ^ 32) (hzero : vm.entry p = 0) : Tabled vm (vm.storeEntry p v) := by
  have hd : p / 1024 < 1024 := by omega
  have howns := storeEntry_owns h hp hpde hv
  refine ⟨rfl, ⟨fun o r ho => ?_, fun r hr hun k hk => ?_⟩⟩
  · rw [howns, Function.update_of_ne, ho]
    rintro rfl
    exact (Vm.owns_page_eq ho).2.1 hzero
  · have htable := Vm.owns_table hd hpde
    have hapart := hr.disjoint (h.frames.used htable).isFrame fun heq =>
      hun (.table (p / 1024)) trivial <| by
        rw [howns, Function.update_of_ne (by simp), htable, heq]
    exact Bytes.setNat_of_outside (by unfold pteSize; omega)

theorem pageMap_tabled {status : ℤ} (h : FramesOk vm) (hp : p < 2 ^ 20) (hv : phy < 2 ^ 32)
    (hm : pageMap vm (p * 4096) phy = some (vm', status)) : Tabled vm vm' := by
  unfold pageMap at hm
  rw [dirIndex_page hp, tableIndex_page] at hm
  obtain ⟨mid, hmid, hm⟩ := Option.bind_eq_some_iff.1 hm
  have hready := ensureTable_ready h (by omega) hmid
  have hfirst : Tabled vm mid := by
    unfold ensureTable at hmid
    split at hmid
    next hzero => exact installTable_tabled h (by omega) hzero hmid
    next => exact Option.some.inj hmid ▸ .refl vm
  split at hm
  next => exact (Prod.mk.inj (Option.some.inj hm)).1 ▸ hfirst
  next hzero =>
    obtain ⟨rfl, -⟩ := Prod.mk.inj (Option.some.inj hm)
    refine hfirst.trans (storeEntry_tabled hready.frames hp hready.pde hv ?_)
    exact (if_neg hready.pde).trans (not_not.1 hzero)

/-- **The loop of `t_malloc`** changes the page directory and the page tables only. -/
theorem mapPages_tabled (h : FramesOk vm) (hn : 1 ≤ n) (hpn : p + n ≤ 2 ^ 20)
    (hsize : (numBytes + 4095) / 4096 = n) (hfree : ∀ q, p ≤ q → q < p + n → vm.entry q = 0)
    (hphy : firstFreePage vm = some phy)
    (hm : mapPages n vm (p * 4096) phy numBytes = some vm') : Tabled vm vm' := by
  induction n generalizing vm p phy numBytes with
  | zero => omega
  | succ n ih =>
    obtain ⟨f, hf, rfl, hbit⟩ := firstFreePage_spec hphy
    have hindex : (vm.memoryStart + f * 4096 - vm.memoryStart) / pgSize = f := by
      unfold pgSize
      omega
    have hlt : vm.memoryStart + f * 4096 < 2 ^ 32 := by
      have hfits := h.fits
      rw [numFrames_eq] at hf
      rw [memSize_eq] at hfits
      omega
    have hpageIndex := pageIndex_eq (show p * 4096 < 2 ^ 32 by omega)
    rw [Nat.mul_div_cancel p (by decide)] at hpageIndex
    rw [mapPages, hpageIndex, hindex] at hm
    obtain ⟨⟨mid, status⟩, hmap, hm⟩ := Option.bind_eq_some_iff.1 hm
    have hpage : PageMapped vm mid p f := pageMapped h (by omega) (hfree p le_rfl (by omega)) hf
      hbit hmap
    have hmarked : FramesOk (vm.marked p f) :=
      h.congr rfl rfl fun g hg => by simp [Vm.marked, hg]
    have hfirst : Tabled (vm.marked p f) mid := pageMap_tabled hmarked (by omega) hlt hmap
    have hfirst : Tabled vm mid := ⟨hfirst.start, hfirst.frames⟩
    dsimp only at hm
    obtain ⟨next, hnext, hm⟩ := Option.bind_eq_some_iff.1 hm
    by_cases hlast : n = 0
    · -- The lists of the last page are no part of the memory.
      subst hlast
      obtain rfl := Option.some.inj hm
      split_ifs
      · exact ⟨hfirst.start, hfirst.frames⟩
      · exact hfirst
    · have hfull : ¬numBytes < pgSize := by unfold pgSize; omega
      rw [if_neg hfull] at hm hnext
      have hmod : (numBytes + 2 ^ 32 - pgSize) % 2 ^ 32 = numBytes - 4096 := by
        unfold pgSize
        omega
      rw [getNextPage_mul (by omega), hmod] at hm
      refine hfirst.trans (ih hpage.frames (by omega) (by omega) (by omega) (fun q h1 h2 => ?_)
        hnext hm)
      rw [hpage.entry q (by omega), if_neg (by omega)]
      exact hfree q (by omega) (by omega)

theorem setPhysicalMem_clean (hs : setPhysicalMem base vm = some vm') : Clean vm' := by
  unfold setPhysicalMem at hs
  split_ifs at hs
  obtain ⟨pageDir, -, hs⟩ := Option.bind_eq_some_iff.1 hs
  obtain rfl := Option.some.inj hs
  intro r hr _ k hk
  obtain ⟨f, hf, rfl⟩ := hr
  rw [numFrames_eq] at hf
  dsimp only
  by_cases hin : pageDir ≤ base + f * 4096 + k ∧
      base + f * 4096 + k < pageDir + pteSize * layout.pageDirEntries
  · exact Bytes.fill_of_inside hin.1 hin.2
  · rw [Bytes.fill_of_outside (by omega)]
    exact Bytes.fill_of_inside (by omega) (by rw [memSize_eq]; omega)

/-! ## `t_free` -/

/-- **A page that is unmapped** leaves a clean frame. -/
theorem freePage_clean (h : FramesOk m.toVm) (hp : p < 2 ^ 20) (hne : m.entry p ≠ 0)
    (hclean : Clean m.toVm) (hf : freePage m (m.pde (p / 1024)) (p / 1024) (p % 1024) 0
      (m.frame p) = some m') : Clean m'.toVm := by
  have hpde := Vm.pde_of_entry hne
  have howner := Vm.owns_page hp hne
  have htable := Vm.owns_table (show p / 1024 < 1024 by omega) hpde
  have hapart := h.disjoint howner htable (by simp)
  obtain ⟨howns, hmem, -, -⟩ := clearPage_spec h hp hne
  unfold freePage at hf
  simp only [Nat.add_zero, word_eq_entry hpde, if_neg hne, ← hmem] at hf
  obtain ⟨T, -, hf⟩ := Option.bind_eq_some_iff.1 hf
  obtain rfl := Option.some.inj hf
  refine Cleared.step hclean fun r hr hun => ?_
  change ∀ o, (m.clearPage p).owns o ≠ some r at hun
  rw [howns] at hun
  dsimp only
  rw [hmem]
  by_cases heq : r = m.entry p
  · subst heq
    refine .inl fun k hk => ?_
    rw [Bytes.setNat_of_outside (by unfold pteSize; omega)]
    exact Bytes.fill_of_inside (by omega) (by unfold pgSize; omega)
  · have hunowned : ∀ o, m.owns o ≠ some r := fun o ho => by
      refine hun o ?_
      rw [Function.update_of_ne, ho]
      rintro rfl
      exact heq (Option.some.inj (ho.symm.trans howner))
    have hpage := hr.disjoint (h.frames.used howner).isFrame heq
    have htab := hr.disjoint (h.frames.used htable).isFrame fun hh => hunowned _ (hh ▸ htable)
    refine .inr ⟨hunowned, fun k hk => ?_⟩
    rw [Bytes.setNat_of_outside (by unfold pteSize; omega),
      Bytes.fill_of_outside (by unfold pgSize; omega)]

/-- **`t_free`** of an allocation of less than a page. -/
theorem tFree_clean (h : Inv m.toVm live) (hs : Small live a p) (hclean : Clean m.toVm)
    (hf : tFree m a.va a.numBytes = some m') : Clean m'.toVm := by
  rw [tFree_eq h hs] at hf
  by_cases hother : ∃ b ∈ live.erase a, b.Meets p
  · rw [freePartPage_shared h hs hother] at hf
    obtain rfl := Option.some.inj hf
    exact hclean
  · rw [freePartPage_last h hs hother] at hf
    obtain ⟨hp, hne⟩ := hs.entry_ne h
    have hframes : FramesOk (m.dropList p) := h.frames.congr rfl rfl fun _ hset => hset
    exact freePage_clean (m := { m with toVm := m.dropList p }) hframes hp hne hclean hf

/-! ## `put_value` -/

/-- Only bytes of mapped pages differ. -/
def InPages (m m' : Machine) : Prop :=
  ∀ x, (∀ p < 2 ^ 20, m.entry p ≠ 0 → x < m.entry p ∨ m.entry p + 4096 ≤ x) → m'.mem x = m.mem x

theorem inPages_copy {pos offset : ℕ} (T : MyVm.Tlb) (hp : p < 2 ^ 20) (hne : m.entry p ≠ 0)
    (hoff : offset + n ≤ 4096) :
    InPages m { m with tlb := T, mem := m.mem.copy (m.entry p + offset) val pos n } := by
  intro x hx
  have hout := hx p hp hne
  exact Bytes.copy_of_outside (by omega)

/-- The copy to mapped pages. -/
theorem putLoop_inPages {fuel pos offset : ℕ} (h : Ready m) (hva : va < 2 ^ 32)
    (hoff : offset < 4096) (hn : 0 < n) (hmap : m.MappedFrom (va / 4096) offset n)
    (hput : putLoop μ fuel m va val pos offset n = some m') : InPages m m' := by
  induction fuel generalizing m va offset n pos with
  | zero =>
    rw [putLoop, if_neg (by omega)] at hput
    cases hput
  | succ fuel ih =>
    obtain ⟨T, hagrees, htr⟩ := translate_spec μ h.tlb h.dir_ne hva
    obtain ⟨hp, hne⟩ := hmap.first hn
    rw [Vm.pageWalk, if_neg hne] at htr
    rw [putLoop, if_neg (by omega)] at hput
    simp only [htr, Option.bind_eq_bind, Option.bind_some] at hput
    have hready := h.withTlb hagrees
    by_cases hlast : offset + n ≤ 4096
    · rw [if_neg (by unfold pgSize; omega), Int.toNat_natCast, putLoop_done (left_le_zero hlast)]
        at hput
      exact Option.some.inj hput ▸ inPages_copy T hp hne hlast
    · have hstored : Stored { m with tlb := T } _ (va / 4096 * 4096 + offset) (4096 - offset) _ :=
        stored_copy val pos hready hp hne (by omega)
      obtain ⟨hnext, hpage⟩ := h.nextPage hva hne
      rw [if_pos (by unfold pgSize; omega), Int.toNat_natCast, left_eq hoff hlast] at hput
      have hmap' := (hmap.rest (by omega)).congr hstored.entry
      rw [← hpage] at hmap'
      have hrest := ih (hstored.ready hready) hnext (by decide) (by omega) hmap' hput
      intro x hx
      rw [hrest x fun q hq => hstored.entry q hq ▸ hx q hq]
      exact inPages_copy T hp hne (by omega) x hx

/-- **A put that is allowed** writes to mapped pages. -/
theorem putValue_inPages (h : Ready m) (hva : va < 2 ^ 32) (hn : 0 < n)
    (hall : PutAllows m.toVm va n) (hput : putValue μ m va val n = some m') : InPages m m' := by
  have hoff : va % 4096 < 4096 := Nat.mod_lt _ (by decide)
  have hmap := hall.mapped
  obtain ⟨hp, hne⟩ := hmap.first hn
  rw [putValue_eq μ val h hva] at hput
  split_ifs at hput with hshort
  · obtain ⟨T, -, htr⟩ := translate_spec μ h.tlb h.dir_ne hva
    obtain ⟨b, hvalid, hb⟩ := isPartPageValid_eq m.toVm (va % 4096) (unsignedLong n)
      (h.listed _ hp hne)
    obtain rfl : b = true := hb.2 (hall 0 (by omega)).2
    rw [htr, Vm.pageWalk, if_neg hne] at hput
    simp only [Option.bind_eq_bind, Option.bind_some, hvalid, if_true] at hput
    exact Option.some.inj hput ▸ inPages_copy T hp hne hshort.le
  · obtain ⟨T, b, hagrees, hcheck, hb⟩ := checkLoop_spec putArgs μ h hva hoff hn le_rfl
    obtain rfl : b = true := hb.2 hall
    rw [hcheck] at hput
    have hloop : InPages { m with tlb := T } m' :=
      putLoop_inPages (h.withTlb hagrees) hva hoff hn hmap hput
    exact hloop

/-- Bytes of pages are in frames with owners. -/
theorem Clean.inPages (hclean : Clean m.toVm) (h : FramesOk m.toVm)
    (hstart : m'.memoryStart = m.memoryStart) (hdir : m'.pageDir = m.pageDir)
    (hs : InPages m m') : Clean m'.toVm := by
  obtain ⟨hpde, hentry⟩ := h.store hdir hs
  unfold Clean
  rw [Vm.isFrame_congr hstart, Vm.owns_congr hdir hpde hentry]
  refine Cleared.step hclean fun r hr hun => .inr ⟨hun, fun k hk => hs _ fun q hq hne => ?_⟩
  have howner := Vm.owns_page hq hne
  have hapart := hr.disjoint (h.frames.used howner).isFrame fun heq => hun _ (heq ▸ howner)
  omega

end UserOS.Fragment
