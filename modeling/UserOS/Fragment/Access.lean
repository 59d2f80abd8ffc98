import UserOS.Fragment.Mapping
import UserOS.MyVm.Tlb

/-!
# `put_value`, `get_value` and `t_free` with shared pages

Both transfers look up the pages of the range, and test it against the allocations of each page.
The short path of `put_value` makes the test before it looks at the translation. On the long path
`put_value` tests the bytes that are left, and `get_value` the whole range each time.

* `translate_spec`: a translation yields the entry of the page.
* `checkLoop_spec`: the check passes when every page allows its part of the range.
* `putValue_spec`, `getValue_spec`: a range that is allowed is transferred.
* `putValue_refused`, `getValue_refused`: a range that is not leaves all as it is, unless
  `put_value` reads through the null translation of its page.
-/

namespace UserOS.Fragment

open Lib
open MyVm (Tlb TlbNode TlbInv checkTlb addTlb deleteFromTlb checkTlb_spec addTlb_spec tlbEntries
  deleteFromTlb_spec pteSize memSize formVirtualAddress unsetBitAtIndex isSet)

/-! ## The functions -/

/-- The globals, with the TLB. -/
structure Machine extends Vm where
  tlb : Tlb

/-- The globals before the first call. No function looks at the TLB before `set_physical_mem`, which
makes it empty. -/
def Machine.start : Machine := ⟨.start, .empty⟩

/-- `translate`. The result is the entry that the pointer returned points to. -/
def translate (μ : Malloc TlbNode) (m : Machine) (va : ℕ) : Option (Machine × Option ℕ) :=
  let d := dirIndex va
  let t := tableIndex va
  do
    let (tlb, physicalAddress) ← checkTlb m.tlb (formVirtualAddress layout d t)
    let m := { m with tlb := tlb }
    match physicalAddress with
    | some pa => some (m, some pa)
    | none =>
      if m.pageDir = 0 then none
      else if m.pde d = 0 then some (m, none)
      else
        let entry := m.mem.getNat (m.pde d + pteSize * t) pteSize
        if entry = 0 then some (m, none)
        else do
          let tlb ← addTlb μ m.tlb (formVirtualAddress layout d t) entry
          some ({ m with tlb := tlb }, some entry)

/-- `num_pages`, the number of lists in `alloted`. -/
def numPages : ℕ := memSize / pgSize

/-- An `int` that is passed as an `unsigned long`. -/
def unsignedLong (i : ℤ) : ℕ := (i % 2 ^ 32).toNat

/-- The record takes in the range, where the end of the range is an `unsigned long`. -/
def AllocNode.covers (temp : AllocNode) (offset size : ℕ) : Bool :=
  decide (temp.offsetStart ≤ offset ∧ (offset + size + 2 ^ 32 - 1) % 2 ^ 32 ≤ temp.offsetEnd)

/-- `is_part_page_valid`. It fails when it reads past the end of `alloted`. -/
def isPartPageValid (vm : Vm) (pageNum offset size : ℕ) : Option Bool :=
  if numPages ≤ pageNum then none
  else some ((vm.alloted pageNum).isEmpty ||
    (vm.alloted pageNum).any fun temp => temp.covers offset size)

/-- The loop of both functions that checks the pages. The arguments of the test are `args` of the
offset in the page and the bytes left. -/
def checkLoop (μ : Malloc TlbNode) (args : ℕ → ℤ → ℕ × ℕ) :
    ℕ → Machine → ℕ → ℕ → ℕ → ℤ → Option (Machine × Bool)
  | fuel, m, va, page, offset, size =>
    if size ≤ 0 then some (m, true)
    else match fuel with
      | 0 => none
      | fuel + 1 => do
        let (m, entry) ← translate μ m va
        match entry with
        | none => some (m, false)
        | some _ => do
          let valid ← isPartPageValid m.toVm page (args offset size).1 (args offset size).2
          if valid then
            checkLoop μ args fuel m (getNextPage va) (page + 1) 0 (size - (pgSize - offset : ℕ))
          else some (m, false)

/-- The arguments of the test in the loop of `put_value`. -/
def putArgs (offset : ℕ) (size : ℤ) : ℕ × ℕ := (offset, unsignedLong size)

/-- The loop of `put_value` that copies. -/
def putLoop (μ : Malloc TlbNode) : ℕ → Machine → ℕ → Bytes → ℕ → ℕ → ℤ → Option Machine
  | fuel, m, va, val, pos, offset, size =>
    if size ≤ 0 then some m
    else match fuel with
      | 0 => none
      | fuel + 1 => do
        let (m, entry) ← translate μ m va
        match entry with
        | none => some m
        | some pa =>
          let chunk : ℤ := if size > (pgSize - offset : ℕ) then (pgSize - offset : ℕ) else size
          let m := { m with mem := m.mem.copy (pa + offset) val pos chunk.toNat }
          putLoop μ fuel m (getNextPage va) val (pos + chunk.toNat) 0
            (size - (pgSize - offset : ℕ))

/-- `put_value`. The short path reads the translation after the test of the allocations, also when
it is null. A negative size is out of bounds in `memcpy`. -/
def putValue (μ : Malloc TlbNode) (m : Machine) (va : ℕ) (val : Bytes) (size : ℤ) :
    Option Machine :=
  let page := dirIndex va * layout.pageTableEntries + tableIndex va
  let offset := pageOffset va
  if m.memoryStart = 0 then some m
  else if (pgSize - offset : ℕ) > size then do
    let (m, ptEntry) ← translate μ m va
    let valid ← isPartPageValid m.toVm page offset (unsignedLong size)
    if valid then
      let pa ← ptEntry
      if size < 0 then none
      else some { m with mem := m.mem.copy (pa + offset) val 0 size.toNat }
    else some m
  else do
    let (m, valid) ← checkLoop μ putArgs size.toNat m va page offset size
    if valid then putLoop μ size.toNat m va val 0 offset size
    else some m

/-- The loop of `get_value` that copies. The condition of its advance is the number of bytes left
in the page. -/
def getLoop (μ : Malloc TlbNode) :
    ℕ → Machine → ℕ → Bytes → ℕ → ℕ → ℤ → Option (Machine × Bytes)
  | fuel, m, va, val, pos, offset, size =>
    if size ≤ 0 then some (m, val)
    else match fuel with
      | 0 => none
      | fuel + 1 => do
        let (m, entry) ← translate μ m va
        match entry with
        | none => some (m, val)
        | some pa =>
          let chunk : ℤ := if size > (pgSize - offset : ℕ) then (pgSize - offset : ℕ) else size
          let val := val.copy pos m.mem (pa + offset) chunk.toNat
          let advance := if pgSize - offset ≠ 0 then pgSize - offset else size.toNat
          getLoop μ fuel m (getNextPage va) val (pos + advance) 0 (size - (pgSize - offset : ℕ))

/-- `get_value`. On the long path every page is tested with the offset and the size of the whole
range. -/
def getValue (μ : Malloc TlbNode) (m : Machine) (va : ℕ) (val : Bytes) (size : ℤ) :
    Option (Machine × Bytes) :=
  let page := dirIndex va * layout.pageTableEntries + tableIndex va
  let offset := pageOffset va
  if m.memoryStart = 0 then some (m, val)
  else if (pgSize - offset : ℕ) > size then do
    let (m, ptEntry) ← translate μ m va
    match ptEntry with
    | none => some (m, val)
    | some pa => do
      let valid ← isPartPageValid m.toVm page offset (unsignedLong size)
      if valid then
        if size < 0 then none
        else some (m, val.copy 0 m.mem (pa + offset) size.toNat)
      else some (m, val)
  else do
    let (m, valid) ← checkLoop μ (fun _ _ => (offset, unsignedLong size)) size.toNat m va page
      offset size
    if valid then getLoop μ size.toNat m va val 0 offset size
    else some (m, val)

/-- The loop of `delete_partial_node`. The node after one that was unlinked stays, as the link of
the unlinked node is the one that changes. -/
def deleteNodes (va : ℕ) : Bool → List PartialNode → List PartialNode
  | _, [] => []
  | unlinked, temp :: rest =>
    if temp.baseVa = va ∧ !unlinked then deleteNodes va true rest
    else temp :: deleteNodes va false rest

/-- `delete_partial_node`. -/
def deletePartialNode (vm : Vm) (va : ℕ) : Vm :=
  { vm with partialPages := deleteNodes va false vm.partialPages }

/-- What the loop of `free_part_page` makes of a record. -/
def AllocNode.release (offset size : ℕ) (temp : AllocNode) : AllocNode :=
  if temp.covers offset size then ⟨0, 0, 1⟩ else temp

/-- `free_part_page`. It fails when it reads past the end of `alloted`. -/
def freePartPage (vm : Vm) (pageDirIndex pageTableIndex offset size : ℕ) : Option (Vm × Bool) :=
  let index := pageDirIndex * layout.pageTableEntries + pageTableIndex
  if numPages ≤ index then none
  else if (vm.alloted index).isEmpty then some (vm, true)
  else
    let nodes := (vm.alloted index).map (AllocNode.release offset size)
    if nodes.all fun temp => temp.freeStatus ≠ 0 then
      some (deletePartialNode { vm with alloted := Function.update vm.alloted index [] }
        (formVirtualAddress layout pageDirIndex pageTableIndex), true)
    else some ({ vm with alloted := Function.update vm.alloted index nodes }, false)

/-- `page_table[t]` for the table at address `pageTable`. -/
def Vm.word (vm : Vm) (pageTable t : ℕ) : ℕ := vm.mem.getNat (pageTable + pteSize * t) pteSize

/-- The loop of `t_free` that checks the pages: whether all are mapped and allow the range. -/
def freeCheck (vm : Vm) (pageTable d t : ℕ) : ℕ → ℕ → ℕ → ℤ → Option Bool
  | fuel, i, offset, size =>
    if size ≤ 0 then some true
    else match fuel with
      | 0 => none
      | fuel + 1 =>
        if vm.word pageTable (t + i) = 0 then some false
        else do
          let valid ← isPartPageValid vm (d * layout.pageTableEntries + t + i) offset
            (unsignedLong size)
          if valid then freeCheck vm pageTable d t fuel (i + 1) 0 (size - (pgSize - offset : ℕ))
          else some false

/-- The part of `t_free` that unmaps a page. -/
def freePage (m : Machine) (pageTable d t i phy : ℕ) : Option Machine :=
  if m.word pageTable (t + i) = 0 then none
  else do
    let m := { m with mem := m.mem.fill (m.word pageTable (t + i)) pgSize 0 }
    let tlb ← deleteFromTlb m.tlb (formVirtualAddress layout d (t + i))
    some { m with
      tlb := tlb
      mem := m.mem.setNat (pageTable + pteSize * (t + i)) pteSize 0
      phyBitmap := unsetBitAtIndex m.phyBitmap (phy + i)
      virtBitmap := unsetBitAtIndex m.virtBitmap (d * layout.pageTableEntries + t + i) }

/-- The loop of `t_free` that releases the range. The index stays when a page is kept. -/
def freeLoop (pageTable d t phy : ℕ) : ℕ → Machine → ℕ → ℕ → ℤ → Option Machine
  | fuel, m, i, offset, size =>
    if size ≤ 0 then some m
    else match fuel with
      | 0 => none
      | fuel + 1 => do
        let (vm, pageFree) ← freePartPage m.toVm d (t + i) offset (unsignedLong size)
        let m := { m with toVm := vm }
        let size := size - (pgSize - offset : ℕ)
        if pageFree then do
          let m ← freePage m pageTable d t i phy
          freeLoop pageTable d t phy fuel m (i + 1) 0 size
        else freeLoop pageTable d t phy fuel m i 0 size

/-- `t_free`. -/
def tFree (m : Machine) (va : ℕ) (size : ℤ) : Option Machine :=
  let d := dirIndex va
  let t := tableIndex va
  let offset := pageOffset va
  if m.memoryStart = 0 then some m
  else if m.pde d = 0 then some m
  else do
    let pageTable := m.pde d
    let valid ← freeCheck m.toVm pageTable d t size.toNat 0 offset size
    if valid then
      let startPagePhysical := (m.word pageTable t - m.memoryStart) / pgSize
      freeLoop pageTable d t startPagePhysical size.toNat m 0 offset size
    else some m

/-! ## Translation -/

/-- The walk of the page directory and the page table to page `p`. -/
def Vm.pageWalk (vm : Vm) (p : ℕ) : Option ℕ :=
  if vm.entry p = 0 then none else some (vm.entry p)

/-- `pa` is the entry of the page at `va`. -/
def Cached (vm : Vm) (va pa : ℕ) : Prop := ∃ p < 2 ^ 20, va = p * 4096 ∧ pa ≠ 0 ∧ vm.entry p = pa

/-- The list read from the head of the TLB is well formed, and every translation in it is an entry
of the page tables. -/
def TlbAgrees (m : Machine) : Prop :=
  m.tlb.entries = tlbEntries ∧ ∃ l, TlbInv m.tlb (Cached m.toVm) l

variable {μ : Malloc TlbNode} {m m' : Machine} {vm : Vm} {va p q n offset : ℕ}

theorem entry_of_va (hva : va < 2 ^ 32) :
    vm.entry (va / 4096) = vm.pte (dirIndex va) (tableIndex va) := by
  have hdir : va / 4096 / 1024 = dirIndex va := by
    rw [dirIndex_eq]
    omega
  unfold Vm.entry
  rw [hdir, tableIndex_eq]

theorem TlbAgrees.start : TlbAgrees .start := by
  refine ⟨rfl, [], rfl, by simp, by simp, ?_, ?_, fun _ => ?_⟩ <;> decide

/-- Entries that are the same on the mapped pages keep the agreement. -/
theorem TlbAgrees.congr (h : TlbAgrees m) (htlb : m'.tlb = m.tlb)
    (hentry : ∀ p < 2 ^ 20, m.entry p ≠ 0 → m'.entry p = m.entry p) : TlbAgrees m' := by
  obtain ⟨hent, l, hl⟩ := h
  rw [TlbAgrees, htlb]
  refine ⟨hent, l, hl.mono fun v pa hcached => ?_⟩
  obtain ⟨p, hp, hv, hpa, heq⟩ := hcached
  exact ⟨p, hp, hv, hpa, by rw [hentry p hp (by rwa [heq]), heq]⟩

/-- **Translation.** It always returns, with the entry of the page, and changes the TLB only. -/
theorem translate_spec (μ : Malloc TlbNode) (h : TlbAgrees m) (hdir : m.pageDir ≠ 0)
    (hva : va < 2 ^ 32) : ∃ T, TlbAgrees { m with tlb := T } ∧
      translate μ m va = some ({ m with tlb := T }, m.pageWalk (va / 4096)) := by
  obtain ⟨hent, l, hl⟩ := h
  have hentry : m.entry (va / 4096) = m.pte (dirIndex va) (tableIndex va) := entry_of_va hva
  unfold translate
  dsimp only
  rw [formVirtualAddress_fields hva]
  obtain ⟨T, l', pa, hcheck, hinv, hent', p, hp, hvp, hpa, heq⟩ | ⟨T, hcheck, hinv, hent'⟩ :=
    checkTlb_spec hl (va / 4096 * 4096)
  · obtain rfl : va / 4096 = p := by omega
    refine ⟨T, ⟨hent'.trans hent, l', hinv⟩, ?_⟩
    simp only [hcheck, Option.bind_eq_bind, Option.bind_some]
    rw [Vm.pageWalk, if_neg (by rwa [heq]), heq]
  · simp only [hcheck, Option.bind_eq_bind, Option.bind_some, if_neg hdir]
    have hkeep : TlbAgrees { m with tlb := T } :=
      ⟨hent'.trans hent, l, hinv.mono fun _ _ hcached => hcached.1⟩
    by_cases hpde : m.pde (dirIndex va) = 0
    · refine ⟨T, hkeep, ?_⟩
      have hzero : m.entry (va / 4096) = 0 := by
        rw [hentry]
        exact if_pos hpde
      rw [if_pos (show Vm.pde { m.toVm with } (dirIndex va) = 0 from hpde), Vm.pageWalk,
        if_pos hzero]
    · have hword : m.entry (va / 4096) =
          m.mem.getNat (m.pde (dirIndex va) + pteSize * tableIndex va) pteSize := by
        rw [hentry]
        exact if_neg hpde
      rw [if_neg (show ¬Vm.pde { m.toVm with } (dirIndex va) = 0 from hpde)]
      by_cases hzero : m.entry (va / 4096) = 0
      · refine ⟨T, hkeep, ?_⟩
        rw [if_pos (hword ▸ hzero), Vm.pageWalk, if_pos hzero]
      · rw [if_neg (hword ▸ hzero)]
        obtain ⟨T', l', hadd, hinv', hent''⟩ := addTlb_spec μ hinv
          (⟨va / 4096, by omega, rfl, hzero, rfl⟩ : Cached m.toVm _ (m.entry (va / 4096)))
        refine ⟨T', ⟨hent''.trans (hent'.trans hent), l', hinv'⟩, ?_⟩
        rw [Vm.pageWalk, if_neg hzero, ← hword, hadd]
        rfl

/-! ## The check -/

/-- What the transfers need of the state: mapped pages have lists of allocations, and others have
none in their lists. -/
structure Ready (m : Machine) : Prop where
  frames : FramesOk m.toVm
  tlb : TlbAgrees m
  listed : ∀ p < 2 ^ 20, m.entry p ≠ 0 → p < numPages
  unlisted : ∀ p < 2 ^ 20, m.entry p = 0 → m.alloted p = []

/-- The allocations of page `p` allow the range. -/
def Vm.ListAllows (vm : Vm) (p : ℕ) (args : ℕ × ℕ) : Prop :=
  vm.alloted p = [] ∨ ∃ temp ∈ vm.alloted p, temp.covers args.1 args.2 = true

/-- Page `p` is mapped, and its allocations allow the range. -/
def Vm.Allows (vm : Vm) (p : ℕ) (args : ℕ × ℕ) : Prop := vm.Mapped p ∧ vm.ListAllows p args

/-- Every page of the range allows the arguments of its test: `n` bytes are left when the loop
is at `offset` in page `p`. -/
def Vm.Passes (vm : Vm) (args : ℕ → ℤ → ℕ × ℕ) (p offset n : ℕ) : Prop :=
  ∀ i, 4096 * i < offset + n → vm.Allows (p + i)
    (if i = 0 then args offset n else args 0 (offset + n - 4096 * i : ℕ))

variable {args : ℕ → ℤ → ℕ × ℕ} {fuel : ℕ}

theorem numPages_eq : numPages = 262144 := by decide

theorem unsignedLong_natCast (hn : n < 2 ^ 32) : unsignedLong n = n := by
  unfold unsignedLong
  omega

theorem AllocNode.covers_iff {temp : AllocNode} {size : ℕ} (hsize : 0 < size)
    (hlt : offset + size ≤ 2 ^ 32) : temp.covers offset size = true ↔
      temp.offsetStart ≤ offset ∧ offset + size ≤ temp.offsetEnd + 1 := by
  have hend : (offset + size + 2 ^ 32 - 1) % 2 ^ 32 = offset + size - 1 := by omega
  unfold AllocNode.covers
  rw [hend, decide_eq_true_eq]
  omega

/-- The test finds out whether the allocations allow the range. -/
theorem isPartPageValid_eq (vm : Vm) (offset size : ℕ) (hp : p < numPages) :
    ∃ b, isPartPageValid vm p offset size = some b ∧
      (b = true ↔ vm.ListAllows p (offset, size)) := by
  refine ⟨_, if_neg (by omega), ?_⟩
  simp [Vm.ListAllows]

theorem Vm.passes_iff (hoff : offset < 4096) (hn : 0 < n) : vm.Passes args p offset n ↔
    vm.Allows p (args offset n) ∧
      (4096 < offset + n → vm.Passes args (p + 1) 0 (offset + n - 4096)) := by
  have hargs : ∀ i, offset + n - 4096 * (i + 1) = offset + n - 4096 - 4096 * i := by
    intro i
    omega
  constructor
  · intro h
    refine ⟨h 0 (by omega), fun hmore i hi => ?_⟩
    have hstep := h (i + 1) (by omega)
    rw [if_neg (Nat.succ_ne_zero i), hargs i] at hstep
    rw [show p + 1 + i = p + (i + 1) by omega]
    by_cases hi0 : i = 0
    · subst hi0
      rw [Nat.mul_zero, Nat.sub_zero] at hstep
      rwa [if_pos rfl]
    · rw [if_neg hi0, Nat.zero_add]
      exact hstep
  · intro ⟨hfirst, hrest⟩ i hi
    by_cases hi0 : i = 0
    · subst hi0
      exact hfirst
    · obtain ⟨j, rfl⟩ := Nat.exists_eq_succ_of_ne_zero hi0
      have hstep := hrest (by omega) j (by omega)
      rw [if_neg hi0, Nat.succ_eq_add_one, hargs j, show p + (j + 1) = p + 1 + j by omega]
      by_cases hj0 : j = 0
      · subst hj0
        rw [if_pos rfl] at hstep
        rwa [Nat.mul_zero, Nat.sub_zero]
      · rwa [if_neg hj0, Nat.zero_add] at hstep

theorem Ready.dir_ne (h : Ready m) : m.pageDir ≠ 0 := by
  have hused := (h.frames.frames.used (i := .dir) rfl).bounds
  have hstart := h.frames.start
  omega

theorem Ready.withTlb {T : Tlb} (h : Ready m) (hT : TlbAgrees { m with tlb := T }) :
    Ready { m with tlb := T } := ⟨h.frames, hT, h.listed, h.unlisted⟩

/-- There is a page behind a mapped one. -/
theorem Ready.nextPage (h : Ready m) (hva : va < 2 ^ 32) (hne : m.entry (va / 4096) ≠ 0) :
    getNextPage va < 2 ^ 32 ∧ getNextPage va / 4096 = va / 4096 + 1 := by
  have hlt := h.listed _ (by omega) hne
  rw [numPages_eq] at hlt
  exact getNextPage_page hva (by omega)

/-- Nothing is left of a range that ends in the page. -/
theorem left_le_zero (hlast : offset + n ≤ 4096) : (n : ℤ) - (pgSize - offset : ℕ) ≤ 0 := by
  unfold pgSize
  omega

/-- The bytes left of a range that goes on behind the page. -/
theorem left_eq (hoff : offset < 4096) (hmore : ¬offset + n ≤ 4096) :
    (n : ℤ) - (pgSize - offset : ℕ) = (offset + n - 4096 : ℕ) := by
  unfold pgSize
  omega

theorem checkLoop_done {size : ℤ} (h : size ≤ 0) :
    checkLoop μ args fuel m va p offset size = some (m, true) := by
  cases fuel <;> exact if_pos h

/-- **The check** passes when every page allows its part. -/
theorem checkLoop_spec (args : ℕ → ℤ → ℕ × ℕ) (μ : Malloc TlbNode) (h : Ready m) (hva : va < 2 ^ 32)
    (hoff : offset < 4096) (hn : 0 < n) (hfuel : n ≤ fuel) :
    ∃ T b, TlbAgrees { m with tlb := T } ∧
      checkLoop μ args fuel m va (va / 4096) offset n = some ({ m with tlb := T }, b) ∧
      (b = true ↔ m.Passes args (va / 4096) offset n) := by
  induction fuel generalizing m va offset n with
  | zero => omega
  | succ fuel ih =>
    obtain ⟨T, hagrees, htr⟩ := translate_spec μ h.tlb h.dir_ne hva
    rw [checkLoop, if_neg (by omega), Vm.passes_iff hoff hn]
    simp only [htr, Option.bind_eq_bind, Option.bind_some]
    have hp : va / 4096 < 2 ^ 20 := by omega
    by_cases hzero : m.entry (va / 4096) = 0
    · rw [Vm.pageWalk, if_pos hzero]
      refine ⟨T, false, hagrees, rfl, ?_⟩
      simp only [Bool.false_eq_true, false_iff]
      exact fun hall => hall.1.1.2 hzero
    · rw [Vm.pageWalk, if_neg hzero]
      have hlt := h.listed _ hp hzero
      obtain ⟨b, hvalid, hb⟩ := isPartPageValid_eq m.toVm (args offset n).1
        (args offset n).2 hlt
      simp only [hvalid, Option.bind_some]
      have hallows : m.Allows (va / 4096) (args offset n) ↔ b = true := by
        rw [hb]
        exact and_iff_right ⟨hp, hzero⟩
      rw [hallows]
      cases b with
      | false => exact ⟨T, false, hagrees, rfl, by simp⟩
      | true =>
        simp only [if_true, true_and]
        obtain ⟨hnext, hpage⟩ := h.nextPage hva hzero
        by_cases hlast : offset + n ≤ 4096
        · refine ⟨T, true, hagrees, checkLoop_done (left_le_zero hlast), ?_⟩
          simp only [true_iff]
          exact fun hmore => absurd hlast (by omega)
        · have hfuel' : offset + n - 4096 ≤ fuel := by omega
          obtain ⟨T', b, hagrees', hrec, hb⟩ :=
            ih (h.withTlb hagrees) hnext (show 0 < 4096 by decide) (by omega) hfuel'
          rw [hpage] at hrec hb
          refine ⟨T', b, hagrees', ?_, hb.trans ⟨fun hall _ => hall, fun hall => hall (by omega)⟩⟩
          rw [left_eq hoff hlast]
          exact hrec

/-! ## The bytes of the pages -/

/-- The physical address of the virtual byte at `a`. -/
def Vm.phys (vm : Vm) (a : ℕ) : ℕ := vm.entry (a / 4096) + a % 4096

/-- `m'` is `m` after the virtual bytes `f 0`, …, `f (n - 1)` were stored from `A` on. -/
structure Stored (m m' : Machine) (A n : ℕ) (f : ℕ → UInt8) : Prop where
  same : ∃ b T, m' = { m with mem := b, tlb := T }
  frames : FramesOk m'.toVm
  tlb : TlbAgrees m'
  entry : ∀ p < 2 ^ 20, m'.entry p = m.entry p
  byte : ∀ a < 2 ^ 32, m.entry (a / 4096) ≠ 0 →
    m'.mem (m.phys a) = if A ≤ a ∧ a < A + n then f (a - A) else m.mem (m.phys a)

section Stored

variable {A k : ℕ} {f : ℕ → UInt8}

theorem Stored.ready (h : Stored m m' A n f) (hm : Ready m) : Ready m' := by
  obtain ⟨b, T, rfl⟩ := h.same
  refine ⟨h.frames, h.tlb, fun p hp hne => ?_, fun p hp hzero => ?_⟩
  · exact hm.listed p hp (by rwa [← h.entry p hp])
  · exact hm.unlisted p hp (by rwa [← h.entry p hp])

theorem Stored.phys (h : Stored m m' A n f) {a : ℕ} (ha : a < 2 ^ 32) : m'.phys a = m.phys a := by
  unfold Vm.phys
  rw [h.entry _ (by omega)]

theorem Stored.ofTlb {T : Tlb} (h : Stored { m with tlb := T } m' A n f) : Stored m m' A n f :=
  ⟨h.same, h.frames, h.tlb, h.entry, h.byte⟩

theorem Stored.append {m'' : Machine} (h : Stored m m' A n f)
    (h' : Stored m' m'' (A + n) k fun j => f (n + j)) : Stored m m'' A (n + k) f where
  same := by
    obtain ⟨b, T, rfl⟩ := h.same
    obtain ⟨b', T', rfl⟩ := h'.same
    exact ⟨b', T', rfl⟩
  frames := h'.frames
  tlb := h'.tlb
  entry p hp := (h'.entry p hp).trans (h.entry p hp)
  byte a ha hmap := by
    have hfirst := h.byte a ha hmap
    have hrest := h'.byte a ha (by rwa [h.entry _ (by omega)])
    rw [h.phys ha] at hrest
    rw [hrest, hfirst]
    by_cases hin : A + n ≤ a ∧ a < A + n + k
    · rw [if_pos hin, if_pos (by omega), show n + (a - (A + n)) = a - A by omega]
    · rw [if_neg hin]
      exact if_congr (by omega) rfl rfl

/-- A copy to a page stores bytes of the page. -/
theorem stored_copy (src : Bytes) (pos : ℕ) (hm : Ready m) (hp : p < 2 ^ 20) (hne : m.entry p ≠ 0)
    (hoff : offset + n ≤ 4096) :
    Stored m { m with mem := m.mem.copy (m.entry p + offset) src pos n } (p * 4096 + offset) n
      fun k => src (pos + k) := by
  have hout : ∀ x, x < m.entry p ∨ m.entry p + 4096 ≤ x →
      m.mem.copy (m.entry p + offset) src pos n x = m.mem x := fun x hx =>
    Bytes.copy_of_outside (by omega)
  have hdir : ({ m.toVm with mem := m.mem.copy (m.entry p + offset) src pos n } : Vm).pageDir =
      m.pageDir := rfl
  obtain ⟨hpde, hentry⟩ := hm.frames.store hdir fun x hx => hout x (hx p hp hne)
  refine ⟨⟨_, _, rfl⟩, ?_, ?_, hentry, fun a ha hmap => ?_⟩
  · exact hm.frames.congr rfl (Vm.owns_congr rfl hpde hentry) fun _ hset => hset
  · exact hm.tlb.congr rfl fun q hq _ => hentry q hq
  · change m.mem.copy (m.entry p + offset) src pos n (m.phys a) = _
    unfold Vm.phys
    by_cases hpage : a / 4096 = p
    · rw [hpage]
      by_cases hin : p * 4096 + offset ≤ a ∧ a < p * 4096 + offset + n
      · rw [if_pos hin, Bytes.copy_of_inside (by omega) (by omega)]
        congr 1
        omega
      · rw [if_neg hin, Bytes.copy_of_outside (by omega)]
    · have hdisj := hm.frames.entry_disjoint hp hne (by omega) hmap (Ne.symm hpage)
      rw [hout _ (by omega), if_neg (by omega)]

end Stored

/-- The pages of a range of `n` bytes from `offset` in page `p` on are mapped. -/
def Vm.MappedFrom (vm : Vm) (p offset n : ℕ) : Prop :=
  ∀ i, 4096 * i < offset + n → vm.Mapped (p + i)

theorem Vm.Passes.mapped (h : vm.Passes args p offset n) : vm.MappedFrom p offset n :=
  fun i hi => (h i hi).1

theorem Vm.MappedFrom.first (h : vm.MappedFrom p offset n) (hn : 0 < n) :
    p < 2 ^ 20 ∧ vm.entry p ≠ 0 := h 0 (by omega)

theorem Vm.MappedFrom.rest (h : vm.MappedFrom p offset n) (hmore : 4096 < offset + n) :
    vm.MappedFrom (p + 1) 0 (offset + n - 4096) := by
  intro i hi
  rw [show p + 1 + i = p + (i + 1) by omega]
  exact h (i + 1) (by omega)

theorem Vm.MappedFrom.congr {vm' : Vm} (h : vm.MappedFrom p offset n)
    (hentry : ∀ q < 2 ^ 20, vm'.entry q = vm.entry q) : vm'.MappedFrom p offset n := by
  intro i hi
  obtain ⟨hp, hne⟩ := h i hi
  exact ⟨hp, (hentry _ hp).trans_ne hne⟩

theorem putLoop_done {pos : ℕ} {val : Bytes} {size : ℤ} (h : size ≤ 0) :
    putLoop μ fuel m va val pos offset size = some m := by
  cases fuel <;> exact if_pos h

theorem getLoop_done {pos : ℕ} {val : Bytes} {size : ℤ} (h : size ≤ 0) :
    getLoop μ fuel m va val pos offset size = some (m, val) := by
  cases fuel <;> exact if_pos h

/-- **The copy of `put_value`** to mapped pages stores the bytes. -/
theorem putLoop_spec (μ : Malloc TlbNode) (val : Bytes) (pos : ℕ) (h : Ready m)
    (hva : va < 2 ^ 32) (hoff : offset < 4096) (hn : 0 < n) (hfuel : n ≤ fuel)
    (hmap : m.MappedFrom (va / 4096) offset n) :
    ∃ m', putLoop μ fuel m va val pos offset n = some m' ∧
      Stored m m' (va / 4096 * 4096 + offset) n fun k => val (pos + k) := by
  induction fuel generalizing m va offset n pos with
  | zero => omega
  | succ fuel ih =>
    obtain ⟨T, hagrees, htr⟩ := translate_spec μ h.tlb h.dir_ne hva
    obtain ⟨hp, hne⟩ := hmap.first hn
    rw [Vm.pageWalk, if_neg hne] at htr
    rw [putLoop, if_neg (by omega)]
    simp only [htr, Option.bind_eq_bind, Option.bind_some]
    have hready := h.withTlb hagrees
    by_cases hlast : offset + n ≤ 4096
    · -- The range ends in this page.
      rw [if_neg (by unfold pgSize; omega), Int.toNat_natCast]
      exact ⟨_, putLoop_done (left_le_zero hlast), (stored_copy val pos hready hp hne hlast).ofTlb⟩
    · have hlen : 4096 - offset + (offset + n - 4096) = n := by omega
      have hstored : Stored { m with tlb := T } _ (va / 4096 * 4096 + offset) (4096 - offset) _ :=
        stored_copy val pos hready hp hne (by omega)
      obtain ⟨hnext, hpage⟩ := h.nextPage hva hne
      rw [if_pos (by unfold pgSize; omega), Int.toNat_natCast, left_eq hoff hlast]
      have hmap' := (hmap.rest (by omega)).congr hstored.entry
      rw [← hpage] at hmap'
      have hfuel' : offset + n - 4096 ≤ fuel := by omega
      obtain ⟨m', hrec, hrest⟩ := ih (pos + (4096 - offset)) (hstored.ready hready) hnext
        (show 0 < 4096 by decide) (by omega) hfuel' hmap'
      refine ⟨m', hrec, ?_⟩
      have hbyte : (va / 4096 + 1) * 4096 = va / 4096 * 4096 + offset + (4096 - offset) := by
        rw [Nat.add_mul]
        omega
      have hval : (fun k => val (pos + (4096 - offset) + k)) =
          fun k => val (pos + (4096 - offset + k)) := by
        simp only [Nat.add_assoc]
      rw [hpage, Nat.add_zero, hbyte, hval] at hrest
      have hall := hstored.append hrest
      rw [hlen] at hall
      exact hall.ofTlb

/-- **The copy of `get_value`** from mapped pages reads the bytes. -/
theorem getLoop_spec (μ : Malloc TlbNode) (val : Bytes) (pos : ℕ) (h : Ready m)
    (hva : va < 2 ^ 32) (hoff : offset < 4096) (hn : 0 < n) (hfuel : n ≤ fuel)
    (hmap : m.MappedFrom (va / 4096) offset n) :
    ∃ T val', TlbAgrees { m with tlb := T } ∧
      getLoop μ fuel m va val pos offset n = some ({ m with tlb := T }, val') ∧
      ∀ k, val' k = if pos ≤ k ∧ k < pos + n
        then m.mem (m.phys (va / 4096 * 4096 + offset + (k - pos))) else val k := by
  induction fuel generalizing m va offset n pos val with
  | zero => omega
  | succ fuel ih =>
    obtain ⟨T, hagrees, htr⟩ := translate_spec μ h.tlb h.dir_ne hva
    obtain ⟨hp, hne⟩ := hmap.first hn
    rw [Vm.pageWalk, if_neg hne] at htr
    rw [getLoop, if_neg (by omega)]
    simp only [htr, Option.bind_eq_bind, Option.bind_some]
    have hready := h.withTlb hagrees
    -- The bytes of the range in this page follow each other in the frame.
    have hphys : ∀ j, offset + j < 4096 →
        m.phys (va / 4096 * 4096 + offset + j) = m.entry (va / 4096) + offset + j := by
      intro j hj
      unfold Vm.phys
      rw [show (va / 4096 * 4096 + offset + j) / 4096 = va / 4096 by omega,
        show (va / 4096 * 4096 + offset + j) % 4096 = offset + j by omega, Nat.add_assoc]
    rw [if_pos (show pgSize - offset ≠ 0 by unfold pgSize; omega)]
    by_cases hlast : offset + n ≤ 4096
    · rw [if_neg (by unfold pgSize; omega), Int.toNat_natCast]
      refine ⟨T, _, hagrees, getLoop_done (left_le_zero hlast), fun k => ?_⟩
      by_cases hk : pos ≤ k ∧ k < pos + n
      · rw [if_pos hk, Bytes.copy_of_inside hk.1 hk.2, hphys _ (by omega)]
      · rw [if_neg hk, Bytes.copy_of_outside (by omega)]
    · obtain ⟨hnext, hpage⟩ := h.nextPage hva hne
      rw [if_pos (by unfold pgSize; omega), Int.toNat_natCast, left_eq hoff hlast]
      have hmap' := hmap.rest (by omega)
      rw [← hpage] at hmap'
      have hfuel' : offset + n - 4096 ≤ fuel := by omega
      obtain ⟨T', val', hagrees', hrec, hval'⟩ := ih (val.copy pos m.mem
        (m.entry (va / 4096) + offset) (pgSize - offset)) (pos + (pgSize - offset)) hready hnext
        (show 0 < 4096 by decide) (by omega) hfuel' hmap'
      refine ⟨T', val', hagrees', hrec, fun k => ?_⟩
      rw [hval', hpage, Nat.add_zero]
      unfold pgSize
      by_cases hk : pos ≤ k ∧ k < pos + n
      · rw [if_pos hk]
        by_cases hthis : k < pos + (4096 - offset)
        · rw [if_neg (by omega), Bytes.copy_of_inside hk.1 hthis, hphys _ (by omega)]
        · rw [if_pos (by omega), show (va / 4096 + 1) * 4096 + (k - (pos + (4096 - offset))) =
            va / 4096 * 4096 + offset + (k - pos) by omega]
      · rw [if_neg hk, if_neg (by omega), Bytes.copy_of_outside (by omega)]

/-! ## The calls -/

/-- The arguments of the test in `get_value`, for a range at `offset` of `n` bytes. -/
def getArgs (offset n : ℕ) (_ : ℕ) (_ : ℤ) : ℕ × ℕ := (offset, n)

/-- `put_value` allows the range. -/
def PutAllows (vm : Vm) (va n : ℕ) : Prop := vm.Passes putArgs (va / 4096) (va % 4096) n

/-- `get_value` allows the range. -/
def GetAllows (vm : Vm) (va n : ℕ) : Prop :=
  vm.Passes (getArgs (va % 4096) n) (va / 4096) (va % 4096) n

/-- `put_value` once the memory is set up. -/
theorem putValue_eq (μ : Malloc TlbNode) (val : Bytes) (h : Ready m) (hva : va < 2 ^ 32) :
    putValue μ m va val n = (
      if va % 4096 + n < 4096 then do
        let (m, ptEntry) ← translate μ m va
        let valid ← isPartPageValid m.toVm (va / 4096) (va % 4096) (unsignedLong n)
        if valid then
          let pa ← ptEntry
          some { m with mem := m.mem.copy (pa + va % 4096) val 0 n }
        else some m
      else do
        let (m, valid) ← checkLoop μ putArgs n m va (va / 4096) (va % 4096) n
        if valid then putLoop μ n m va val 0 (va % 4096) n
        else some m) := by
  unfold putValue
  rw [pageIndex_eq hva, pageOffset_eq]
  dsimp only
  rw [if_neg h.frames.start.ne', Int.toNat_natCast]
  simp only [show ¬(n : ℤ) < 0 by omega, if_false]
  refine if_congr ?_ rfl rfl
  unfold pgSize
  omega

/-- `get_value` once the memory is set up. -/
theorem getValue_eq (μ : Malloc TlbNode) (val : Bytes) (h : Ready m) (hva : va < 2 ^ 32)
    (hlt : n < 2 ^ 31) : getValue μ m va val n = (
      if va % 4096 + n < 4096 then do
        let (m, ptEntry) ← translate μ m va
        match ptEntry with
        | none => some (m, val)
        | some pa => do
          let valid ← isPartPageValid m.toVm (va / 4096) (va % 4096) n
          if valid then some (m, val.copy 0 m.mem (pa + va % 4096) n)
          else some (m, val)
      else do
        let (m, valid) ← checkLoop μ (getArgs (va % 4096) n) n m va (va / 4096) (va % 4096) n
        if valid then getLoop μ n m va val 0 (va % 4096) n
        else some (m, val)) := by
  unfold getValue
  rw [pageIndex_eq hva, pageOffset_eq, unsignedLong_natCast (by omega)]
  dsimp only
  rw [if_neg h.frames.start.ne', Int.toNat_natCast]
  simp only [show ¬(n : ℤ) < 0 by omega, if_false]
  refine if_congr ?_ rfl rfl
  unfold pgSize
  omega

section Calls

variable (μ : Malloc TlbNode) (val : Bytes) (h : Ready m) (hva : va < 2 ^ 32) (hn : 0 < n)

include h hva hn

/-- **Put.** A range that is allowed is stored, and nothing else changes in the pages. -/
theorem putValue_spec (hall : PutAllows m.toVm va n) :
    ∃ m', putValue μ m va val n = some m' ∧ Stored m m' va n val := by
  have hoff : va % 4096 < 4096 := Nat.mod_lt _ (by decide)
  have hmap := hall.mapped
  obtain ⟨hp, hne⟩ := hmap.first hn
  rw [putValue_eq μ val h hva]
  split_ifs with hshort
  · obtain ⟨T, hagrees, htr⟩ := translate_spec μ h.tlb h.dir_ne hva
    obtain ⟨b, hvalid, hb⟩ := isPartPageValid_eq m.toVm (va % 4096) (unsignedLong n)
      (h.listed _ hp hne)
    have htrue : b = true := hb.2 (hall 0 (by omega)).2
    subst htrue
    rw [htr, Vm.pageWalk, if_neg hne]
    simp only [Option.bind_eq_bind, Option.bind_some, hvalid, if_true]
    have hcopy := stored_copy val 0 (h.withTlb hagrees) hp hne hshort.le
    rw [Nat.div_add_mod'] at hcopy
    simp only [Nat.zero_add] at hcopy
    exact ⟨_, rfl, hcopy.ofTlb⟩
  · obtain ⟨T, b, hagrees, hcheck, hb⟩ := checkLoop_spec putArgs μ h hva hoff hn le_rfl
    obtain rfl : b = true := hb.2 hall
    obtain ⟨m', hput, hstored⟩ := putLoop_spec μ val 0 (h.withTlb hagrees) hva hoff hn le_rfl hmap
    rw [Nat.div_add_mod'] at hstored
    simp only [Nat.zero_add] at hstored
    rw [hcheck]
    exact ⟨m', hput, hstored.ofTlb⟩

/-- **A put that is refused** changes the TLB only. There is no result when the range ends before
the end of its page and the page is not mapped. -/
theorem putValue_refused (hnot : ¬PutAllows m.toVm va n) :
    (∃ T, TlbAgrees { m with tlb := T } ∧ putValue μ m va val n = some { m with tlb := T }) ∧
        (va % 4096 + n < 4096 → m.entry (va / 4096) ≠ 0) ∨
      va % 4096 + n < 4096 ∧ m.entry (va / 4096) = 0 ∧ putValue μ m va val n = none := by
  have hoff : va % 4096 < 4096 := Nat.mod_lt _ (by decide)
  have hp : va / 4096 < 2 ^ 20 := by omega
  rw [putValue_eq μ val h hva]
  split_ifs with hshort
  · obtain ⟨T, hagrees, htr⟩ := translate_spec μ h.tlb h.dir_ne hva
    rw [htr]
    simp only [Option.bind_eq_bind, Option.bind_some]
    by_cases hzero : m.entry (va / 4096) = 0
    · refine .inr ⟨by omega, hzero, ?_⟩
      rw [Vm.pageWalk, if_pos hzero]
      by_cases hlist : va / 4096 < numPages
      · obtain ⟨b, hvalid, hb⟩ := isPartPageValid_eq m.toVm (va % 4096) (unsignedLong n) hlist
        obtain rfl : b = true := hb.2 (.inl (h.unlisted _ hp hzero))
        simp [hvalid]
      · simp [isPartPageValid, hlist]
    · refine .inl ⟨⟨T, hagrees, ?_⟩, fun _ => hzero⟩
      obtain ⟨b, hvalid, hb⟩ := isPartPageValid_eq m.toVm (va % 4096) (unsignedLong n)
        (h.listed _ hp hzero)
      cases b with
      | false => simp [hvalid]
      | true =>
        refine absurd ((Vm.passes_iff hoff hn).2 ⟨⟨⟨hp, hzero⟩, hb.1 rfl⟩, fun hmore => ?_⟩) hnot
        omega
  · obtain ⟨T, b, hagrees, hcheck, hb⟩ := checkLoop_spec putArgs μ h hva hoff hn le_rfl
    cases b with
    | false => exact .inl ⟨⟨T, hagrees, by rw [hcheck]; rfl⟩, fun hlast => by omega⟩
    | true => exact absurd (hb.1 rfl) hnot

/-- **Get.** A range that is allowed is read, and only the TLB changes. -/
theorem getValue_spec (hlt : n < 2 ^ 31) (hall : GetAllows m.toVm va n) :
    ∃ T val', TlbAgrees { m with tlb := T } ∧
      getValue μ m va val n = some ({ m with tlb := T }, val') ∧
      ∀ k, val' k = if k < n then m.mem (m.phys (va + k)) else val k := by
  have hoff : va % 4096 < 4096 := Nat.mod_lt _ (by decide)
  have hmap := hall.mapped
  obtain ⟨hp, hne⟩ := hmap.first hn
  rw [getValue_eq μ val h hva hlt]
  split_ifs with hshort
  · obtain ⟨T, hagrees, htr⟩ := translate_spec μ h.tlb h.dir_ne hva
    obtain ⟨b, hvalid, hb⟩ := isPartPageValid_eq m.toVm (va % 4096) n (h.listed _ hp hne)
    obtain rfl : b = true := hb.2 (hall 0 (by omega)).2
    rw [htr, Vm.pageWalk, if_neg hne]
    simp only [Option.bind_eq_bind, Option.bind_some, hvalid, if_true]
    refine ⟨T, _, hagrees, rfl, fun k => ?_⟩
    by_cases hk : k < n
    · rw [if_pos hk, Bytes.copy_of_inside (Nat.zero_le _) (by omega), Vm.phys]
      congr 1
      rw [show (va + k) / 4096 = va / 4096 by omega, show (va + k) % 4096 = va % 4096 + k by omega]
      omega
    · rw [if_neg hk, Bytes.copy_of_outside (by omega)]
  · obtain ⟨T, b, hagrees, hcheck, hb⟩ := checkLoop_spec (getArgs (va % 4096) n) μ h hva hoff
      hn le_rfl
    obtain rfl : b = true := hb.2 hall
    obtain ⟨T', val', hagrees', hget, hval⟩ := getLoop_spec μ val 0 (h.withTlb hagrees) hva hoff hn
      le_rfl hmap
    refine ⟨T', val', hagrees', ?_, fun k => ?_⟩
    · exact (congrArg (Option.bind · _) hcheck).trans hget
    · rw [hval, Nat.div_add_mod']
      simp

/-- **A get that is refused** leaves the buffer, and changes the TLB only. -/
theorem getValue_refused (hlt : n < 2 ^ 31) (hnot : ¬GetAllows m.toVm va n) :
    ∃ T, TlbAgrees { m with tlb := T } ∧
      getValue μ m va val n = some ({ m with tlb := T }, val) := by
  have hoff : va % 4096 < 4096 := Nat.mod_lt _ (by decide)
  have hp : va / 4096 < 2 ^ 20 := by omega
  rw [getValue_eq μ val h hva hlt]
  split_ifs with hshort
  · obtain ⟨T, hagrees, htr⟩ := translate_spec μ h.tlb h.dir_ne hva
    refine ⟨T, hagrees, ?_⟩
    rw [htr]
    simp only [Option.bind_eq_bind, Option.bind_some]
    by_cases hzero : m.entry (va / 4096) = 0
    · rw [Vm.pageWalk, if_pos hzero]
    · rw [Vm.pageWalk, if_neg hzero]
      obtain ⟨b, hvalid, hb⟩ := isPartPageValid_eq m.toVm (va % 4096) n (h.listed _ hp hzero)
      cases b with
      | false => simp [hvalid]
      | true =>
        refine absurd ((Vm.passes_iff hoff hn).2 ⟨⟨⟨hp, hzero⟩, hb.1 rfl⟩, fun hmore => ?_⟩) hnot
        omega
  · obtain ⟨T, b, hagrees, hcheck, hb⟩ := checkLoop_spec (getArgs (va % 4096) n) μ h hva hoff
      hn le_rfl
    cases b with
    | false => exact ⟨T, hagrees, (congrArg (Option.bind · _) hcheck).trans rfl⟩
    | true => exact absurd (hb.1 rfl) hnot

end Calls

end UserOS.Fragment
