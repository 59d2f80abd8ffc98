import UserOS.Fragment.Frames

/-!
# Regions of pages

A request for `n` bytes that shares no page gets the first run of free pages that is long enough,
and the loop of `t_malloc` maps its pages one after the other. Only the last page can have room.

* `getNextAvail_run`: the pages that the scan finds are free, after a page in use.
* `mapPages_spec`: the pages are mapped, and nothing changes in the others.
* `mapped_lt`: mapped pages have lists of allocations, as there are fewer frames than lists.
-/

namespace UserOS.Fragment

open Lib
open MyVm (pteSize memSize extractBits extractBits_eq formVirtualAddress setBitAtIndex
  setBitAtIndex_bit isSet isSet_fill scanBit_eq_zero)

variable {vm vm' mid : Vm} {bm : Bytes} {p q n k f va numBytes size base : ℕ}

/-! ## Addresses -/

/-- The offset of `va` in its page. -/
def pageOffset (va : ℕ) : ℕ :=
  extractBits va (layout.pageDirBits + layout.pageTableBits + 1) layout.offsetBits

theorem pageOffset_eq (va : ℕ) : pageOffset va = va % 4096 := by
  unfold pageOffset
  rw [layout_eq, extractBits_eq (by decide) (by decide) (by decide)]
  simp

theorem pageIndex_eq (hva : va < 2 ^ 32) :
    dirIndex va * layout.pageTableEntries + tableIndex va = va / 4096 := by
  rw [layout_pageTableEntries, dirIndex_eq, tableIndex_eq]
  omega

/-- The step to the next page adds a page and keeps the offset, or starts the next page table. -/
theorem getNextPage_page (hva : va < 2 ^ 32) (hp : va / 4096 + 1 < 2 ^ 20) :
    getNextPage va < 2 ^ 32 ∧ getNextPage va / 4096 = va / 4096 + 1 := by
  have hnone : extractBits va 21 32 = 0 := by simp [extractBits]
  unfold getNextPage
  rw [hnone, layout_pageTableEntries, layout_pageDirEntries]
  dsimp only
  have htable : tableIndex va = _ := tableIndex_eq
  have hdir : dirIndex va = _ := dirIndex_eq
  split_ifs with hlast hend
  · omega
  · have hform := formVirtualAddress_page (p := (dirIndex va + 1) * 1024) (by omega)
    rw [Nat.mul_div_cancel _ (by decide), Nat.mul_mod_left] at hform
    rw [hform]
    omega
  · unfold pgSize
    omega

theorem getNextPage_mul (hp : p + 1 < 2 ^ 20) : getNextPage (p * 4096) = (p + 1) * 4096 := by
  have hnone : extractBits (p * 4096) 21 32 = 0 := by simp [extractBits]
  unfold getNextPage
  rw [hnone, tableIndex_page, dirIndex_page (by omega), layout_pageTableEntries,
    layout_pageDirEntries]
  dsimp only
  split_ifs with hlast hend
  · omega
  · have hform := formVirtualAddress_page (p := p + 1) hp
    rw [← hform]
    congr 1 <;> omega
  · unfold pgSize
    omega

/-! ## Runs of free pages -/

/-- Pages `p`, …, `p + n - 1` are free, and the one before them is not. -/
structure FreeRun (bm : Bytes) (p n : ℕ) : Prop where
  fits : p + n ≤ 2 ^ 20
  free : ∀ q, p ≤ q → q < p + n → isSet bm q = false
  behind : p = 0 ∨ isSet bm (p - 1) = true

/-- The loop of `get_next_avail`, where a run of `pageCount` free pages from `startPage` on ends at
page `k`. -/
theorem getNextAvailLoop_run {pageCount startPage : ℕ} (hk : k + size = 2 ^ 20)
    (hstart : pageCount ≠ 0 → startPage + pageCount = k)
    (hfree : ∀ q, startPage ≤ q → q < startPage + pageCount → isSet bm q = false)
    (hbehind : k - pageCount = 0 ∨ isSet bm (k - pageCount - 1) = true)
    (h : getNextAvailLoop bm n size k pageCount startPage = some va) :
    ∃ p, FreeRun bm p n ∧ va = p * 4096 := by
  induction size generalizing k pageCount startPage with
  | zero => cases h
  | succ size ih =>
    rw [getNextAvailLoop, layout_pageTableEntries] at h
    split at h
    next hbit =>
      have hbit := scanBit_eq_zero.1 hbit
      split at h
      next hzero =>
        rw [hzero, Nat.sub_zero] at hbehind
        refine ih (by omega) (fun _ => rfl) (fun q h1 h2 => ?_) ?_ h
        · rwa [show q = k by omega]
        · rwa [Nat.add_sub_cancel]
      next hcount =>
        have hk' := hstart hcount
        have hall : ∀ q, startPage ≤ q → q < startPage + (pageCount + 1) → isSet bm q = false := by
          intro q h1 h2
          by_cases hq : q = k
          · rwa [hq]
          · exact hfree q h1 (by omega)
        split at h
        next hlen =>
          cases h
          refine ⟨startPage, ⟨by omega, fun q h1 h2 => hall q h1 (by omega), ?_⟩,
            formVirtualAddress_page (by omega)⟩
          rwa [show k - pageCount = startPage by omega] at hbehind
        next =>
          refine ih (by omega) (fun _ => by omega) hall ?_ h
          rwa [Nat.add_sub_add_right]
    next hbit =>
      refine ih (by omega) (fun hne => absurd rfl hne) (fun q h1 h2 => by omega) (.inr ?_) h
      have := mt scanBit_eq_zero.2 hbit
      simpa using this

/-- **A run of free pages**, after a page in use. -/
theorem getNextAvail_run (h : getNextAvail vm n = some va) :
    ∃ p, FreeRun vm.virtBitmap p n ∧ va = p * 4096 := by
  unfold getNextAvail at h
  rw [layout_pageDirEntries, layout_pageTableEntries] at h
  exact getNextAvailLoop_run (by decide) (fun hne => absurd rfl hne) (fun q h1 h2 => by omega)
    (.inl rfl) h

/-! ## The loop of `t_malloc` -/

theorem addAllocEntry_eq (hva : va < 2 ^ 32) (hpos : 1 ≤ size) (hsize : va % 4096 + size ≤ 2 ^ 32) :
    addAllocEntry vm va size = { vm with
      alloted := Function.update vm.alloted (va / 4096)
        (vm.alloted (va / 4096) ++ [⟨va % 4096, va % 4096 + size - 1, 0⟩]) } := by
  have hoff := pageOffset_eq va
  unfold pageOffset at hoff
  unfold addAllocEntry
  rw [pageIndex_eq hva]
  dsimp only
  have hend : (va % 4096 + size + 2 ^ 32 - 1) % 2 ^ 32 = va % 4096 + size - 1 := by omega
  rw [hoff, hend]

/-- `vm'` is `vm` with the pages `p`, …, `p + n - 1` mapped for `numBytes` bytes. The last page is
shared, if there is room in it. -/
structure RegionMapped (vm vm' : Vm) (p n numBytes : ℕ) : Prop where
  frames : FramesOk vm'
  start : vm'.memoryStart = vm.memoryStart
  new : ∀ q, p ≤ q → q < p + n → vm'.entry q ≠ 0
  old : ∀ q < 2 ^ 20, q < p ∨ p + n ≤ q → vm'.entry q = vm.entry q
  virt : ∀ q, isSet vm'.virtBitmap q = (decide (p ≤ q ∧ q < p + n) || isSet vm.virtBitmap q)
  bytes : ∀ q < 2 ^ 20, vm.entry q ≠ 0 → ∀ k < 4096,
    vm'.mem (vm.entry q + k) = vm.mem (vm.entry q + k)
  partialPages : vm'.partialPages = vm.partialPages ++
    if numBytes % 4096 = 0 then [] else [⟨numBytes % 4096, (p + n - 1) * 4096⟩]
  alloted : vm'.alloted = if numBytes % 4096 = 0 then vm.alloted
    else Function.update vm.alloted (p + n - 1)
      (vm.alloted (p + n - 1) ++ [⟨0, numBytes % 4096 - 1, 0⟩])

theorem PageMapped.ne_zero (h : PageMapped vm vm' p f) (hstart : 0 < vm.memoryStart)
    (hp : p < 2 ^ 20) : vm'.entry p ≠ 0 := by
  rw [h.entry p hp, if_pos rfl]
  omega

/-- The last page. -/
theorem RegionMapped.single (h : FramesOk vm) (hpage : PageMapped vm mid p f) (hp : p < 2 ^ 20)
    (hpos : 0 < numBytes) (hsize : numBytes ≤ 4096) : RegionMapped vm (if numBytes < pgSize then
      addPartialPage (addAllocEntry mid (p * 4096) numBytes) (p * 4096) numBytes else mid)
    p 1 numBytes := by
  obtain ⟨m, v, b, hsame⟩ := hpage.same
  have hne := hpage.ne_zero h.start hp
  have hregion : ∀ {u : Vm} {l : List PartialNode} {a : ℕ → List AllocNode},
      u = { mid with partialPages := l, alloted := a } →
      (l = vm.partialPages ++ if numBytes % 4096 = 0 then [] else [⟨numBytes % 4096, p * 4096⟩]) →
      (a = if numBytes % 4096 = 0 then vm.alloted
        else Function.update vm.alloted p (vm.alloted p ++ [⟨0, numBytes % 4096 - 1, 0⟩])) →
      RegionMapped vm u p 1 numBytes := by
    intro u l a hu hl ha
    have hentry : ∀ q, u.entry q = mid.entry q := fun q => by rw [hu]; rfl
    refine ⟨hu ▸ hpage.frames.congr rfl rfl fun _ hset => hset, by rw [hu, hsame],
      fun q h1 h2 => ?_, fun q hq hout => ?_, fun q => ?_, fun q hq hq0 k hk => ?_, ?_, ?_⟩
    · rw [hentry, show q = p by omega]
      exact hne
    · rw [hentry, hpage.entry q hq, if_neg (by omega)]
    · rw [hu]
      refine (hpage.virt q).trans ?_
      exact congrArg (· || isSet vm.virtBitmap q) (decide_eq_decide.2 (by omega))
    · rw [hu]
      exact hpage.bytes q hq hq0 k hk
    · rw [hu]
      exact hl
    · rw [hu]
      exact ha
  by_cases hfull : numBytes < pgSize
  · rw [if_pos hfull, addAllocEntry_eq (by omega) hpos (by omega)]
    unfold pgSize at hfull
    have hmod : numBytes % 4096 = numBytes := Nat.mod_eq_of_lt hfull
    refine hregion rfl ?_ ?_
    · rw [if_neg (by omega), hmod, hsame]
    · rw [if_neg (by omega), hmod, hsame, Nat.mul_div_cancel p (by decide), Nat.mul_mod_left,
        Nat.zero_add]
  · rw [if_neg hfull]
    unfold pgSize at hfull
    refine hregion rfl ?_ ?_
    · rw [if_pos (by omega), hsame, List.append_nil]
    · rw [if_pos (by omega), hsame]

/-- One page more in front. -/
theorem RegionMapped.cons (h : FramesOk vm) (hn : 1 ≤ n) (hpn : p + 1 + n ≤ 2 ^ 20)
    (hsize : 4096 ≤ numBytes) (hpage : PageMapped vm mid p f)
    (hrest : RegionMapped mid vm' (p + 1) n (numBytes - 4096)) (hfree : vm.entry p = 0) :
    RegionMapped vm vm' p (n + 1) numBytes := by
  obtain ⟨m, v, b, hsame⟩ := hpage.same
  have hmod : (numBytes - 4096) % 4096 = numBytes % 4096 := by omega
  have hlast : p + 1 + n - 1 = p + (n + 1) - 1 := by omega
  have hnodes := hrest.partialPages
  have halloted := hrest.alloted
  rw [hmod, hlast] at hnodes halloted
  refine ⟨hrest.frames, ?_, fun q h1 h2 => ?_, fun q hq hout => ?_, fun q => ?_,
    fun q hq hne k hk => ?_, ?_, ?_⟩
  · rw [hrest.start, hsame]
  · by_cases hqp : q = p
    · rw [hqp, hrest.old p (by omega) (by omega)]
      exact hpage.ne_zero h.start (by omega)
    · exact hrest.new q (by omega) (by omega)
  · rw [hrest.old q hq (by omega), hpage.entry q hq, if_neg (by omega)]
  · rw [hrest.virt, hpage.virt, ← Bool.or_assoc, ← Bool.decide_or]
    exact congrArg (· || isSet vm.virtBitmap q) (decide_eq_decide.2 (by omega))
  · have hqp : q ≠ p := fun hqp => hne (hqp ▸ hfree)
    have hmid : mid.entry q = vm.entry q := by rw [hpage.entry q hq, if_neg hqp]
    have hstep := hrest.bytes q hq (by rwa [hmid]) k hk
    rw [hmid] at hstep
    exact hstep.trans (hpage.bytes q hq hne k hk)
  · rw [hnodes, hsame]
  · rw [halloted, hsame]

/-- **The loop of `t_malloc`** maps free pages, and shares the last one if there is room in it. -/
theorem mapPages_spec {phy : ℕ} (h : FramesOk vm) (hn : 1 ≤ n) (hpn : p + n ≤ 2 ^ 20)
    (hsize : (numBytes + 4095) / 4096 = n) (hfree : ∀ q, p ≤ q → q < p + n → vm.entry q = 0)
    (hphy : firstFreePage vm = some phy)
    (hm : mapPages n vm (p * 4096) phy numBytes = some vm') :
    RegionMapped vm vm' p n numBytes := by
  induction n generalizing vm p phy numBytes with
  | zero => omega
  | succ n ih =>
    obtain ⟨f, hf, rfl, hbit⟩ := firstFreePage_spec hphy
    have hindex : (vm.memoryStart + f * 4096 - vm.memoryStart) / pgSize = f := by
      unfold pgSize
      omega
    have hpageIndex := pageIndex_eq (show p * 4096 < 2 ^ 32 by omega)
    rw [Nat.mul_div_cancel p (by decide)] at hpageIndex
    rw [mapPages, hpageIndex, hindex] at hm
    obtain ⟨⟨mid, status⟩, hmap, hm⟩ := Option.bind_eq_some_iff.1 hm
    have hpage : PageMapped vm mid p f := pageMapped h (by omega) (hfree p le_rfl (by omega)) hf
      hbit hmap
    dsimp only at hm
    obtain ⟨next, hnext, hm⟩ := Option.bind_eq_some_iff.1 hm
    by_cases hlast : n = 0
    · -- The last page: it is shared when there is room in it.
      subst hlast
      cases hm
      exact .single h hpage (by omega) (by omega) (by omega)
    · have hfull : ¬numBytes < pgSize := by unfold pgSize; omega
      rw [if_neg hfull] at hm hnext
      have hmod : (numBytes + 2 ^ 32 - pgSize) % 2 ^ 32 = numBytes - 4096 := by
        unfold pgSize
        omega
      rw [getNextPage_mul (by omega), hmod] at hm
      refine .cons h (by omega) (by omega) (by omega) hpage ?_ (hfree p le_rfl (by omega))
      refine ih hpage.frames ?_ ?_ ?_ (fun q h1 h2 => ?_) hnext hm
      · omega
      · omega
      · omega
      · rw [hpage.entry q (by omega), if_neg (by omega)]
        exact hfree q (by omega) (by omega)

/-! ## The start -/

/-- **`set_physical_mem`** leaves the memory with no page mapped or in use. -/
structure Fresh (vm : Vm) : Prop where
  frames : FramesOk vm
  entry : ∀ p < 2 ^ 20, vm.entry p = 0
  virt : ∀ p < 2 ^ 20, isSet vm.virtBitmap p = false
  partialPages : vm.partialPages = []
  alloted : ∀ p, vm.alloted p = []

theorem TablesOk.frames_of_unmapped (h : TablesOk vm) (hun : ∀ p < 2 ^ 20, vm.entry p = 0) :
    FramesOk vm := by
  have hown : ∀ o r, vm.owns o = some r → ∃ i, vm.own i = some r ∧
      o = i.elim .dir .table := by
    intro o r ho
    cases o with
    | dir => exact ⟨none, ho, rfl⟩
    | table d => exact ⟨some d, ho, rfl⟩
    | page p =>
      obtain ⟨hp, hne, -⟩ := Vm.owns_page_eq ho
      exact absurd (hun p hp) hne
  refine ⟨h.start, h.fits, fun hi hj => ?_, fun hi => ?_⟩
  · obtain ⟨i, hdir, rfl⟩ := hown _ _ hi
    obtain ⟨j, htable, rfl⟩ := hown _ _ hj
    rw [h.tables.inj hdir htable]
  · obtain ⟨i, hdir, -⟩ := hown _ _ hi
    exact h.tables.used hdir

theorem setPhysicalMem_fresh (hbase : base + memSize ≤ 2 ^ 32)
    (hs : setPhysicalMem base vm = some vm') : Fresh vm' := by
  obtain ⟨hok, hunmapped, hnodes⟩ := setPhysicalMem_spec hbase hs
  have hentry : ∀ p < 2 ^ 20, vm'.entry p = 0 := by
    intro p hp
    by_contra hne
    exact hunmapped p ⟨hp, hne⟩
  refine ⟨hok.frames_of_unmapped hentry, hentry, ?_, hnodes, ?_⟩ <;>
    unfold setPhysicalMem at hs <;> split at hs
  · cases hs
  · obtain ⟨pageDir, -, hs⟩ := Option.bind_eq_some_iff.1 hs
    cases hs
    intro p hp
    refine isSet_fill ?_
    rw [layout_pageDirEntries, layout_pageTableEntries]
    omega
  · cases hs
  · obtain ⟨pageDir, -, hs⟩ := Option.bind_eq_some_iff.1 hs
    cases hs
    exact fun _ => rfl

/-! ## Enough lists -/

/-- The owners of frames when pages `8`, `9`, … are mapped: the first page tables as well. -/
def denseOwner (i : ℕ) : Owner := if i < 8 then .table i else .page i

theorem denseOwner_injective : Function.Injective denseOwner := by
  intro i j hij
  unfold denseOwner at hij
  split_ifs at hij with hi hj hj
  · exact Owner.table.inj hij
  · exact Owner.page.inj hij

/-- **The mapped pages have lists of allocations**, where the pages are used without gaps: there
are no more frames than lists, and the page directory and the page tables take some of them. -/
theorem mapped_lt (h : FramesOk vm)
    (hdense : ∀ p, 8 ≤ p → p < n → vm.entry p ≠ 0) : n ≤ numFrames := by
  by_contra hgt
  have hall := numFrames_eq
  have hle := h.frames.card_le (s := (Finset.range (numFrames + 1)).image denseOwner)
    (t := (Finset.range numFrames).image fun f => vm.memoryStart + f * 4096) fun o ho => ?_
  · rw [Finset.card_image_of_injective _ denseOwner_injective, Finset.card_range] at hle
    have hcard := (Finset.card_image_le (s := Finset.range numFrames)
      (f := fun f => vm.memoryStart + f * 4096))
    rw [Finset.card_range] at hcard
    omega
  · obtain ⟨i, hi, rfl⟩ := Finset.mem_image.1 ho
    rw [Finset.mem_range] at hi
    obtain ⟨r, hr⟩ : ∃ r, vm.owns (denseOwner i) = some r := by
      unfold denseOwner
      split_ifs with hsmall
      · -- The table of slot `i` holds the entry of a page that is mapped.
        have hpde := Vm.pde_of_entry (hdense (i * 1024 + 8) (by omega) (by omega))
        rw [show (i * 1024 + 8) / 1024 = i by omega] at hpde
        exact ⟨_, Vm.owns_table (by omega) hpde⟩
      · exact ⟨_, Vm.owns_page (by omega) (hdense i (by omega) (by omega))⟩
    obtain ⟨f, hf, rfl, -⟩ := h.frames.used hr
    exact ⟨_, Finset.mem_image.2 ⟨f, Finset.mem_range.2 hf, rfl⟩, hr⟩

end UserOS.Fragment
