import UserOS.MyVm.State

/-!
# Allocations of less than a page

The globals of `my_vm_internal_fragmentation.c` and its `t_malloc`. The file has `extract_bits`,
`form_virtual_address` and `set_bit_at_index` in common with `my_vm.c`. Its pages have 4096 bytes,
and requests for less share pages: `partial_pages` lists the pages with room, and `alloted` the
allocations in each page. The calls are made one after the other, so that the lock is left out, as
is the TLB, which `t_malloc` does not use.

* `getNextAvail_spec`, `firstFreePage_spec`: the page and the frame that the scans find.
* `formVirtualAddress_page`: the address of a page.
-/

namespace UserOS.Fragment

open Lib
open MyVm (Layout addressBits levels pteSize memSize extractBits extractBits_eq formVirtualAddress
  formVirtualAddress_eq setBitAtIndex setBitAtIndex_bit isSet scanBit scanBit_eq_zero)

/-! ## Constants -/

/-- `PGSIZE`. -/
def pgSize : ℕ := 4096

/-- `calculate_entries_bits`, for a page size of `pgsize` bytes. -/
def calculateEntriesBits (pgsize : ℕ) : Layout :=
  let offsetBits := Nat.log2 pgsize
  let pageTableEntries := pgsize / pteSize
  let pageDirEntries := pgsize / pteSize
  let remainingBits := addressBits - offsetBits
  let pageTableBits := Nat.log2 pageTableEntries
  if pageTableBits > remainingBits then
    let bitsPerLevel := (addressBits - offsetBits) / levels
    ⟨offsetBits, bitsPerLevel, remainingBits - bitsPerLevel, pageTableEntries, pageDirEntries⟩
  else
    ⟨offsetBits, pageTableBits, remainingBits - pageTableBits, pageTableEntries, pageDirEntries⟩

/-- The layout of the build. -/
def layout : Layout := calculateEntriesBits pgSize

theorem layout_eq : layout = ⟨12, 10, 10, 1024, 1024⟩ := by decide

@[simp] theorem layout_pageDirEntries : layout.pageDirEntries = 1024 := by rw [layout_eq]

@[simp] theorem layout_pageTableEntries : layout.pageTableEntries = 1024 := by rw [layout_eq]

/-- The page directory index of `va`. -/
def dirIndex (va : ℕ) : ℕ := extractBits va 1 layout.pageDirBits

/-- The page table index of `va`. -/
def tableIndex (va : ℕ) : ℕ := extractBits va (layout.pageDirBits + 1) layout.pageTableBits

variable {va p : ℕ}

theorem dirIndex_eq : dirIndex va = va / 2 ^ 22 % 1024 := by
  unfold dirIndex
  rw [layout_eq]
  exact extractBits_eq (by decide) (by decide) (by decide)

theorem tableIndex_eq : tableIndex va = va / 4096 % 1024 := by
  unfold tableIndex
  rw [layout_eq]
  exact extractBits_eq (by decide) (by decide) (by decide)

/-- The address of page `p`. -/
theorem formVirtualAddress_page (hp : p < 2 ^ 20) :
    formVirtualAddress layout (p / 1024) (p % 1024) = p * 4096 := by
  have h := @formVirtualAddress_eq ⟨12, 10, 10, 1024, 1024⟩ rfl (p / 1024) (p % 1024)
  rw [layout_eq, h]
  dsimp only
  omega

theorem formVirtualAddress_fields (hva : va < 2 ^ 32) :
    formVirtualAddress layout (dirIndex va) (tableIndex va) = va / 4096 * 4096 := by
  rw [← formVirtualAddress_page (p := va / 4096) (by omega), dirIndex_eq, tableIndex_eq]
  congr 1
  omega

/-! ## The globals -/

/-- `struct PartialNode`, a page with room. -/
structure PartialNode where
  spaceTaken : ℕ
  baseVa : ℕ
  deriving DecidableEq, Repr

/-- `struct AllocNode`, an allocation in a page. -/
structure AllocNode where
  offsetStart : ℕ
  offsetEnd : ℕ
  freeStatus : ℕ
  deriving DecidableEq, Repr

/-- The globals. `partialPages` is the list of nodes from its head on, and `alloted` has one list
for each page, empty when there is none. -/
structure Vm where
  mem : Bytes
  memoryStart : ℕ
  phyBitmap : Bytes
  virtBitmap : Bytes
  pageDir : ℕ
  partialPages : List PartialNode
  alloted : ℕ → List AllocNode

/-- The globals before `set_physical_mem`. -/
def Vm.start : Vm := ⟨Bytes.zero, 0, Bytes.zero, Bytes.zero, 0, [], fun _ => []⟩

/-! ## The scans -/

/-- The number of frames that `phy_bitmap` covers. -/
def numFrames : ℕ := 8 * (memSize / (8 * pgSize))

/-- The two nested loops of `find_free_physical_page`, with `n` bits left, from bit `k` on. -/
def findFreeLoop (bitmap : Bytes) (memoryStart numPages : ℕ) : ℕ → ℕ → List ℕ → Option (List ℕ)
  | 0, _, _ => none
  | n + 1, k, pagePointers =>
    if scanBit (bitmap (k / 8)) (k % 8) = 0 then
      let pagePointers := pagePointers ++ [memoryStart + k * pgSize]
      if pagePointers.length = numPages then some pagePointers
      else findFreeLoop bitmap memoryStart numPages n (k + 1) pagePointers
    else findFreeLoop bitmap memoryStart numPages n (k + 1) pagePointers

/-- `find_free_physical_page`. -/
def findFreePhysicalPage (vm : Vm) (numPages : ℕ) : Option (List ℕ) :=
  findFreeLoop vm.phyBitmap vm.memoryStart numPages numFrames 0 []

/-- `find_free_physical_page(1)[0]`; reading an element of a null result fails. -/
def firstFreePage (vm : Vm) : Option ℕ := findFreePhysicalPage vm 1 >>= List.head?

/-- The two nested loops of `get_next_avail`. -/
def getNextAvailLoop (bitmap : Bytes) (numPages : ℕ) : ℕ → ℕ → ℕ → ℕ → Option ℕ
  | 0, _, _, _ => none
  | n + 1, k, pageCount, startPage =>
    if scanBit (bitmap (k / 8)) (k % 8) = 0 then
      if pageCount = 0 then getNextAvailLoop bitmap numPages n (k + 1) 1 k
      else if pageCount + 1 = numPages ∨ pageCount = numPages then
        some (formVirtualAddress layout (startPage / layout.pageTableEntries)
          (startPage % layout.pageTableEntries))
      else getNextAvailLoop bitmap numPages n (k + 1) (pageCount + 1) startPage
    else getNextAvailLoop bitmap numPages n (k + 1) 0 startPage

/-- `get_next_avail`; `none` is the null result of the end of the function. -/
def getNextAvail (vm : Vm) (numPages : ℕ) : Option ℕ :=
  getNextAvailLoop vm.virtBitmap numPages
    (8 * (layout.pageDirEntries * layout.pageTableEntries / 8)) 0 0 0

/-! ## Page tables -/

/-- `page_dir[d]`. -/
def Vm.pde (vm : Vm) (d : ℕ) : ℕ := vm.mem.getNat (vm.pageDir + pteSize * d) pteSize

/-- The part of `page_map` that installs a page table in the empty directory slot `d`. -/
def installTable (vm : Vm) (d : ℕ) : Option Vm := do
  let frame ← firstFreePage vm
  let vm := { vm with
    mem := vm.mem.setNat (vm.pageDir + pteSize * d) pteSize frame
    phyBitmap := setBitAtIndex vm.phyBitmap ((frame - vm.memoryStart) / pgSize) }
  some { vm with mem := vm.mem.fill (vm.pde d) (pteSize * layout.pageTableEntries) 0 }

/-- The first `if` of `page_map`. -/
def ensureTable (vm : Vm) (d : ℕ) : Option Vm :=
  if vm.pde d = 0 then installTable vm d else some vm

/-- `page_map`. The status is -1 when the entry is not empty. -/
def pageMap (vm : Vm) (va pa : ℕ) : Option (Vm × ℤ) := do
  let d := dirIndex va
  let t := tableIndex va
  let vm ← ensureTable vm d
  if vm.mem.getNat (vm.pde d + pteSize * t) pteSize ≠ 0 then some (vm, -1)
  else some ({ vm with mem := vm.mem.setNat (vm.pde d + pteSize * t) pteSize pa }, 0)

/-- `get_next_page`. -/
def getNextPage (va : ℕ) : ℕ :=
  let offset := extractBits va 21 32
  if tableIndex va = layout.pageTableEntries - 1 then
    if dirIndex va = layout.pageDirEntries - 1 then 0
    else formVirtualAddress layout (dirIndex va + 1) 0
  else (va + (pgSize - offset)) % 2 ^ 32

/-- `set_physical_mem`, where `malloc` has returned `base`. -/
def setPhysicalMem (base : ℕ) (vm : Vm) : Option Vm :=
  if base = 0 then none
  else do
    let vm := { vm with
      memoryStart := base
      mem := vm.mem.fill base memSize 0
      partialPages := []
      alloted := fun _ => []
      phyBitmap := vm.phyBitmap.fill 0 (memSize / (8 * pgSize)) 0
      virtBitmap := vm.virtBitmap.fill 0 (layout.pageDirEntries * layout.pageTableEntries / 8) 0 }
    let pageDir ← firstFreePage vm
    some { vm with
      pageDir := pageDir
      phyBitmap := setBitAtIndex vm.phyBitmap ((pageDir - vm.memoryStart) / pgSize)
      mem := vm.mem.fill pageDir (pteSize * layout.pageDirEntries) 0 }

/-! ## The lists -/

/-- `PGSIZE - temp->space_taken`, an `unsigned long`. -/
def PartialNode.room (node : PartialNode) : ℕ := (pgSize + 2 ^ 32 - node.spaceTaken) % 2 ^ 32

/-- The node at which the loop of `check_partial_list` ends. -/
def firstFit (partialPages : List PartialNode) (size : ℕ) : Option PartialNode :=
  partialPages.find? fun temp => decide (size ≤ temp.room)

/-- `check_partial_list`. -/
def checkPartialList (partialPages : List PartialNode) (size : ℕ) : ℕ :=
  match firstFit partialPages size with
  | none => 0
  | some temp => (temp.baseVa + temp.spaceTaken + 1) % 2 ^ 32

/-- `add_alloc_entry`. -/
def addAllocEntry (vm : Vm) (va size : ℕ) : Vm :=
  let index := dirIndex va * layout.pageTableEntries + tableIndex va
  let offsetStart := extractBits va (layout.pageDirBits + layout.pageTableBits + 1)
    layout.offsetBits
  let newNode := ⟨offsetStart, (offsetStart + size + 2 ^ 32 - 1) % 2 ^ 32, 0⟩
  { vm with alloted := Function.update vm.alloted index (vm.alloted index ++ [newNode]) }

/-- The loop of `update_partial_list`: the node of the page is removed, or gets less room. -/
def updateNodes (vaNoOff offset size : ℕ) : List PartialNode → List PartialNode
  | [] => []
  | temp :: rest =>
    if temp.baseVa = vaNoOff then
      if offset + size ≥ pgSize then rest
      else { temp with spaceTaken := (temp.spaceTaken + size) % 2 ^ 32 } :: rest
    else temp :: updateNodes vaNoOff offset size rest

/-- `update_partial_list`. -/
def updatePartialList (vm : Vm) (va size : ℕ) : Vm :=
  let offset := extractBits va (layout.pageDirBits + 1) layout.offsetBits
  let vaNoOff := formVirtualAddress layout (dirIndex va) (tableIndex va)
  { vm with partialPages := updateNodes vaNoOff offset size vm.partialPages }

/-- `add_partial_page`. -/
def addPartialPage (vm : Vm) (va size : ℕ) : Vm :=
  { vm with partialPages := vm.partialPages ++ [⟨size, va⟩] }

/-! ## `t_malloc` -/

/-- `ceil(num_bytes / (float)PGSIZE)`. The 32-bit build divides in extended precision, so that the
quotient is exact. -/
def pagesRequired (numBytes : ℕ) : ℕ := (numBytes + pgSize - 1) / pgSize

/-- The first part of `t_malloc`. When `malloc` returns null, `set_physical_mem` writes through
it. -/
def ensureMemory (base : ℕ) (vm : Vm) : Option Vm :=
  if vm.memoryStart = 0 then setPhysicalMem base vm else some vm

/-- The loop of `t_malloc`, with `n` pages left. -/
def mapPages : ℕ → Vm → ℕ → ℕ → ℕ → Option Vm
  | 0, vm, _, _, _ => some vm
  | n + 1, vm, va, phyPage, numBytes => do
    let vm := { vm with
      virtBitmap := setBitAtIndex vm.virtBitmap
        (dirIndex va * layout.pageTableEntries + tableIndex va)
      phyBitmap := setBitAtIndex vm.phyBitmap ((phyPage - vm.memoryStart) / pgSize) }
    let (vm, _) ← pageMap vm va phyPage
    let vm := if numBytes < pgSize then addPartialPage (addAllocEntry vm va numBytes) va numBytes
      else vm
    let phyPage ← firstFreePage vm
    mapPages n vm (getNextPage va) phyPage ((numBytes + 2 ^ 32 - pgSize) % 2 ^ 32)

/-- `t_malloc`, where `malloc` returns `base` if it is called for the memory. There is no result
when the call reads through a null pointer. -/
def tMalloc (base : ℕ) (vm : Vm) (numBytes : ℕ) : Option (Vm × ℕ) := do
  let vm ← ensureMemory base vm
  let partialPage := if numBytes < pgSize then checkPartialList vm.partialPages numBytes else 0
  if partialPage ≠ 0 then
    some (updatePartialList (addAllocEntry vm partialPage numBytes) partialPage numBytes,
      partialPage)
  else
    let va := (getNextAvail vm (pagesRequired numBytes)).getD 0
    match findFreePhysicalPage vm (pagesRequired numBytes) with
    | none => some (vm, 0)
    | some _ =>
      let phyPage ← firstFreePage vm
      let vm ← mapPages (pagesRequired numBytes) vm va phyPage numBytes
      some (vm, va)

/-! ## What the scans find -/

variable {vm : Vm} {bm : Bytes} {ms n k a : ℕ}

/-- The loop of `find_free_physical_page` finds a free frame. -/
theorem findFreeLoop_spec {l : List ℕ} (h : findFreeLoop bm ms 1 n k [] = some l) :
    ∃ f < k + n, l = [ms + f * 4096] ∧ isSet bm f = false := by
  induction n generalizing k with
  | zero => cases h
  | succ n ih =>
    rw [findFreeLoop] at h
    split at h
    next hk =>
      cases h
      exact ⟨k, by omega, rfl, scanBit_eq_zero.1 hk⟩
    next =>
      obtain ⟨f, hf, hl, hfree⟩ := ih h
      exact ⟨f, by omega, hl, hfree⟩

/-- **A free frame.** -/
theorem firstFreePage_spec (h : firstFreePage vm = some a) :
    ∃ f < numFrames, a = vm.memoryStart + f * 4096 ∧ isSet vm.phyBitmap f = false := by
  obtain ⟨l, hl, hhead⟩ := Option.bind_eq_some_iff.1 h
  obtain ⟨f, hf, rfl, hfree⟩ := findFreeLoop_spec hl
  exact ⟨f, by omega, (Option.some.inj hhead).symm, hfree⟩

/-- The loop of `get_next_avail` finds a free page that is followed by another one. -/
theorem getNextAvailLoop_spec {pageCount startPage : ℕ}
    (hrun : pageCount = 0 ∨ pageCount = 1 ∧ startPage + 1 = k ∧ isSet bm startPage = false)
    (h : getNextAvailLoop bm 1 n k pageCount startPage = some va) :
    ∃ p, p + 1 < k + n ∧ isSet bm p = false ∧
      va = formVirtualAddress layout (p / 1024) (p % 1024) := by
  induction n generalizing k pageCount startPage with
  | zero => cases h
  | succ n ih =>
    rw [getNextAvailLoop, layout_pageTableEntries] at h
    split at h
    next hk =>
      rcases hrun with rfl | ⟨rfl, hstart, hfree⟩
      · obtain ⟨p, hp, hfree, hva⟩ := ih (.inr ⟨rfl, rfl, scanBit_eq_zero.1 hk⟩) h
        exact ⟨p, by omega, hfree, hva⟩
      · cases h
        exact ⟨startPage, by omega, hfree, rfl⟩
    next =>
      obtain ⟨p, hp, hfree, hva⟩ := ih (.inl rfl) h
      exact ⟨p, by omega, hfree, hva⟩

/-- **A free page**, which is not the last one. -/
theorem getNextAvail_spec (h : getNextAvail vm 1 = some va) :
    ∃ p, p + 1 < 2 ^ 20 ∧ isSet vm.virtBitmap p = false ∧ va = p * 4096 := by
  unfold getNextAvail at h
  rw [layout_pageDirEntries, layout_pageTableEntries] at h
  obtain ⟨p, hp, hfree, rfl⟩ := getNextAvailLoop_spec (.inl rfl) h
  have hlt : p + 1 < 2 ^ 20 := by omega
  exact ⟨p, hlt, hfree, formVirtualAddress_page (by omega)⟩

end UserOS.Fragment
