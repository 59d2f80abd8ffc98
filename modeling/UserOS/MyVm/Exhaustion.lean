import UserOS.MyVm.FreshRegion
import UserOS.MyVm.Regions

/-!
# `t_malloc` at exhaustion

`t_malloc` should return null when it cannot meet a request, and leave the memory as it was. It
compares the number of free frames with the number of pages only, goes on without a free virtual
run, from page 0, and looks for one frame more than it needs. A region at page 0 has the null
address.

* `MemCall.Step`: any calls of `t_malloc` and `t_free`.
* `malloc_tells_iff`: when `t_malloc` tells failure from success.
-/

namespace UserOS.MyVm

open Lib

/-- Some run of `k` free virtual pages can get its frames and page tables. -/
def Vm.CanMeet (vm : Vm) (k : ℕ) : Prop :=
  ∃ p, p + k ≤ 65536 ∧ (∀ i < k, isSet vm.virtBitmap (p + i) = false) ∧
    k + (vm.emptySlots p k).card ≤ vm.freeFrames.card

/-- The page tables and both bitmaps are the same. -/
structure Unchanged (vm vm' : Vm) : Prop where
  dir : vm'.pageDir = vm.pageDir
  pde : ∀ d < 4, vm'.pde d = vm.pde d
  pte : ∀ p < 65536, vm'.pteAt p = vm.pteAt p
  phy : vm'.phyBitmap = vm.phyBitmap
  virt : vm'.virtBitmap = vm.virtBitmap

/-- The call of `t_malloc` returns: with the address of a mapped region, which is not null, if the
request can be met, and with null and an unchanged memory if not. The memory is `vm₁` once it is set
up. -/
def MallocTells (base : ℕ) (vm : Vm) (numBytes : ℕ) : Prop :=
  ∃ vm₁ vm' va, (vm.lock >>= ensureMemory base) = some vm₁ ∧
    tMalloc base vm numBytes = some (vm', va) ∧
    (vm₁.CanMeet (pagesRequired numBytes) →
      va ≠ 0 ∧ ∀ i < pagesRequired numBytes, vm'.pteAt (pageNumber va + i) ≠ 0) ∧
    (¬vm₁.CanMeet (pagesRequired numBytes) → va = 0 ∧ Unchanged vm₁ vm')

/-- Fewer frames are free than the request has pages, or there is a run, not at page 0, and one
frame more is free than its pages and page tables take. -/
def MallocOk (base : ℕ) (vm : Vm) (numBytes : ℕ) : Prop :=
  ∃ vm₁, (vm.lock >>= ensureMemory base) = some vm₁ ∧
    (vm₁.freeFrames.card < pagesRequired numBytes ∨
      ∃ va, getNextAvail vm₁ (pagesRequired numBytes) = some va ∧ va ≠ 0 ∧
        vm₁.framesNeeded (pageNumber va) (pagesRequired numBytes) ≤ vm₁.freeFrames.card)

variable {vm vm' vm₀ vm₁ : Vm} {va phy n base numBytes : ℕ}

/-! ## Whatever the pages are -/

/-- The loop of `t_malloc` keeps the memory in order, and the bits that are set. -/
theorem mapPages_memOk (n : ℕ) : ∀ {vm : Vm} {va phy : ℕ}, MemOk vm → va < 2 ^ 32 →
    firstFreePage vm = some phy → mapPages n vm va phy = some vm' →
    MemOk vm' ∧ ∀ x, isSet vm.phyBitmap x = true → isSet vm'.phyBitmap x = true := by
  induction n with
  | zero =>
    intro vm va phy h _ _ hm
    rw [mapPages, Option.some.injEq] at hm
    exact hm ▸ ⟨h, fun _ hx => hx⟩
  | succ n ih =>
    intro vm va phy h hva hphy hm
    obtain ⟨⟨mid, status⟩, hmap, hm⟩ := Option.bind_eq_some_iff.1 hm
    obtain ⟨phy', hphy', hm⟩ := Option.bind_eq_some_iff.1 hm
    obtain ⟨f, tables, hs⟩ := mapPage_step h.frames hva hphy hmap
    have hnext : (if n = 0 then va else getNextPage va) < 2 ^ 32 := by
      split_ifs
      · exact hva
      · exact getNextPage_lt hva
    obtain ⟨hok, hmono⟩ := ih (hs.memOk h) hnext hphy' hm
    refine ⟨hok, fun x hx => hmono x ?_⟩
    rw [hs.phy, hx, Bool.or_true]

/-- At least one bit is new. -/
theorem mapPages_grows (h : MemOk vm) (hva : va < 2 ^ 32) (hphy : firstFreePage vm = some phy)
    (hm : mapPages (n + 1) vm va phy = some vm') : vm'.phyBitmap ≠ vm.phyBitmap := by
  obtain ⟨⟨mid, status⟩, hmap, hm⟩ := Option.bind_eq_some_iff.1 hm
  obtain ⟨phy', hphy', hm⟩ := Option.bind_eq_some_iff.1 hm
  obtain ⟨f, tables, hs⟩ := mapPage_step h.frames hva hphy hmap
  have hnext : (if n = 0 then va else getNextPage va) < 2 ^ 32 := by
    split_ifs
    · exact hva
    · exact getNextPage_lt hva
  have hset := (mapPages_memOk n (hs.memOk h) hnext hphy' hm).2 f (by rw [hs.phy]; simp)
  intro heq
  rw [heq, hs.free] at hset
  cases hset

theorem getNextAvail_lt {k : ℕ} (hk : 0 < k) : (getNextAvail vm k).getD 0 < 2 ^ 32 := by
  cases hrun : getNextAvail vm k with
  | none => decide
  | some va =>
    obtain ⟨p, rfl, hp, -⟩ := getNextAvail_spec hk hrun
    rw [Option.getD_some]
    unfold pgSize
    omega

/-- The memory when the call of `t_malloc` has set it up. -/
theorem setUp_memOk (h : Usable vm) (hbase : vm.memoryStart = 0 → base + memSize ≤ 2 ^ 32)
    (he : (vm.lock >>= ensureMemory base) = some vm₁) : MemOk vm₁ := by
  obtain ⟨vm₀, hlock, hens⟩ := Option.bind_eq_some_iff.1 he
  unfold Vm.lock at hlock
  split_ifs at hlock
  obtain rfl := Option.some.inj hlock
  have husable : Usable { vm with mutex := true } := h.imp (·.withMutex true) id
  exact (ensureMemory_spec husable hbase hens).1

/-- Every call of `t_malloc` keeps the memory in order. -/
theorem tMalloc_memOk (h : Usable vm) (hbase : vm.memoryStart = 0 → base + memSize ≤ 2 ^ 32)
    (hn : 1 ≤ numBytes) (hm : tMalloc base vm numBytes = some (vm', va)) :
    MemOk vm' ∧ vm'.mutex = false := by
  obtain ⟨vm₁, he⟩ : ∃ vm₁, (vm.lock >>= ensureMemory base) = some vm₁ := by
    obtain ⟨vm₀, hlock, hm⟩ := Option.bind_eq_some_iff.1 hm
    obtain ⟨vm₁, hens, -⟩ := Option.bind_eq_some_iff.1 hm
    exact ⟨vm₁, Option.bind_eq_some_iff.2 ⟨vm₀, hlock, hens⟩⟩
  have hok := setUp_memOk h hbase he
  rw [tMalloc_eq he] at hm
  split_ifs at hm
  · obtain ⟨phy, hphy, hm⟩ := Option.bind_eq_some_iff.1 hm
    obtain ⟨vm₂, hmaps, hm⟩ := Option.map_eq_some_iff.1 hm
    cases hm
    have hva : (getNextAvail vm₁ (pagesRequired numBytes)).getD 0 < 2 ^ 32 :=
      getNextAvail_lt (pagesRequired_pos hn)
    exact ⟨((mapPages_memOk _ hok hva hphy hmaps).1).withMutex false, rfl⟩
  · cases hm
    exact ⟨hok.withMutex false, rfl⟩

/-! ## One call -/

/-- **One call.** -/
theorem mallocTells_iff (hok : MemOk vm₁) (he : (vm.lock >>= ensureMemory base) = some vm₁)
    (hn : 1 ≤ numBytes) : MallocTells base vm numBytes ↔ MallocOk base vm numBytes := by
  have hk := pagesRequired_pos hn
  constructor
  · rintro ⟨vm₂, vm', va, he', hm, hcan, hcannot⟩
    obtain rfl := Option.some.inj (he.symm.trans he')
    refine ⟨vm₁, he, ?_⟩
    by_cases hfew : vm₁.freeFrames.card < pagesRequired numBytes
    · exact .inl hfew
    have hle := Nat.le_of_not_lt hfew
    cases hrun : getNextAvail vm₁ (pagesRequired numBytes) with
    | none =>
      -- The loop starts at page 0, and marks a frame.
      rw [tMalloc_eq he, if_pos ((findFreePhysicalPage_isSome hk).2 hle)] at hm
      obtain ⟨phy, hphy, hm⟩ := Option.bind_eq_some_iff.1 hm
      obtain ⟨vm₃, hmaps, hm⟩ := Option.map_eq_some_iff.1 hm
      rw [hrun, Option.getD_none] at hm hmaps
      cases hm
      by_cases hmeet : vm₁.CanMeet (pagesRequired numBytes)
      · exact absurd rfl (hcan hmeet).1
      · obtain ⟨k, hk'⟩ := Nat.exists_eq_succ_of_ne_zero hk.ne'
        rw [hk'] at hmaps
        have hsame : vm₃.phyBitmap = vm₁.phyBitmap := (hcannot hmeet).2.phy
        exact absurd hsame (mapPages_grows hok (by decide) hphy hmaps)
    | some va' =>
      obtain ⟨henough, hnone⟩ := tMalloc_of_run he hok.frames hok.virt hn hrun hle
      by_cases hneeded : vm₁.framesNeeded (pageNumber va') (pagesRequired numBytes) ≤
          vm₁.freeFrames.card
      · obtain ⟨vm₃, hm', hregion⟩ := henough hneeded
        cases hm'.symm.trans hm
        refine .inr ⟨va, rfl, (hcan ⟨pageNumber va, hregion.fits, fun i hi =>
          (hregion.unmapped i hi).1, ?_⟩).1, hneeded⟩
        unfold Vm.framesNeeded at hneeded
        omega
      · rw [hnone (Nat.lt_of_not_le hneeded)] at hm
        cases hm
  · rintro ⟨vm₂, he', hcond⟩
    obtain rfl := Option.some.inj (he.symm.trans he')
    obtain hfew | ⟨va, hrun, hva, hneeded⟩ := hcond
    · refine ⟨vm₁, vm₁.unlock, 0, he, ?_, ?_, fun _ => ⟨rfl, rfl, fun _ _ => rfl, fun _ _ => rfl,
        rfl, rfl⟩⟩
      · rw [tMalloc_eq he, if_neg fun h => Nat.not_le.2 hfew ((findFreePhysicalPage_isSome hk).1 h)]
      · rintro ⟨p, -, -, hle⟩
        omega
    · have hle : pagesRequired numBytes ≤ vm₁.freeFrames.card := by
        unfold Vm.framesNeeded at hneeded
        omega
      obtain ⟨vm', hm, hregion⟩ := (tMalloc_of_run he hok.frames hok.virt hn hrun hle).1 hneeded
      refine ⟨vm₁, vm'.unlock, va, he, hm, fun _ => ⟨hva, fun i hi => ?_⟩, fun hnot => ?_⟩
      · obtain ⟨f, -, -, hf⟩ := hregion.new i hi
        have hpos := hok.frames.start
        change vm'.pteAt (pageNumber va + i) ≠ 0
        rw [hf]
        unfold frameAddr
        omega
      · refine absurd ⟨pageNumber va, hregion.fits, fun i hi => (hregion.unmapped i hi).1, ?_⟩ hnot
        unfold Vm.framesNeeded at hneeded
        omega

/-! ## Runs -/

/-- The calls. `base` is what `malloc` returns when the memory is set up. -/
inductive MemCall
  | malloc (base numBytes : ℕ)
  | free (va : ℕ) (size : ℤ)
  deriving DecidableEq, Repr

/-- One call that returns. -/
inductive MemCall.Step : Vm → MemCall → Vm → Prop
  | malloc {vm vm' : Vm} {base numBytes va : ℕ} : 1 ≤ numBytes →
    (vm.memoryStart = 0 → base + memSize ≤ 2 ^ 32) → tMalloc base vm numBytes = some (vm', va) →
    Step vm (.malloc base numBytes) vm'
  | free {vm vm' : Vm} {va : ℕ} {size : ℤ} : va < 2 ^ 32 → tFree vm va size = some vm' →
    Step vm (.free va size) vm'

/-- The call of `t_free` prints a message and returns. -/
def FreeRefused (vm : Vm) (va : ℕ) (size : ℤ) : Prop :=
  vm.memoryStart = 0 ∨ vm.pde (dirIndex va) = 0 ∨
    ∃ i < pagesRequired size, vm.word (vm.pde (dirIndex va)) (tableIndex va + i) = 0

/-- The condition on the state before a call of `t_free`. -/
def MemCall.Ok (vm : Vm) : MemCall → Prop
  | .malloc .. => True
  | .free va size => FreeRefused vm va size ∨ FreeOk vm va size

theorem tFree_refused {size : ℤ} (hlock : vm.mutex = false) (hr : FreeRefused vm va size) :
    tFree vm va size = some vm := by
  have hunlock : Vm.unlock { vm with mutex := true } = vm := by
    unfold Vm.unlock
    rw [← hlock]
  unfold tFree
  simp only [Vm.lock, hlock, Bool.false_eq_true, if_false, Option.bind_eq_bind, Option.bind_some]
  by_cases h0 : vm.memoryStart = 0 ∨ vm.pde (dirIndex va) = 0
  · exact (if_pos h0).trans (congrArg some hunlock)
  · have hword := (or_assoc.2 hr).resolve_left h0
    exact (if_neg h0).trans ((if_pos hword).trans (congrArg some hunlock))

/-- A call that meets the condition keeps the memory in order. -/
theorem MemCall.step_usable {call : MemCall} (h : Usable vm ∧ vm.mutex = false)
    (hs : Guarded MemCall.Ok MemCall.Step vm call vm') : Usable vm' ∧ vm'.mutex = false := by
  obtain ⟨hok, hstep⟩ := hs
  obtain ⟨husable, hlock⟩ := h
  cases hstep with
  | malloc hn hbase hm => exact (tMalloc_memOk husable hbase hn hm).imp .inl id
  | free hva hf =>
    obtain hr | hfree := hok
    · rw [tFree_refused hlock hr, Option.some.injEq] at hf
      exact hf ▸ ⟨husable, hlock⟩
    · obtain hmem | hstart := husable
      · obtain ⟨hmem', hlock', -⟩ := tFree_spec hmem hfree hva hlock hf
        exact ⟨.inl hmem', hlock'⟩
      · rw [tFree_refused hlock (.inl hstart.1), Option.some.injEq] at hf
        exact hf ▸ ⟨.inr hstart, hlock⟩

/-- **Exhaustion.** After any calls of `t_malloc`, and of `t_free` that free what they should,
`t_malloc` tells failure from success exactly under the condition. -/
theorem malloc_tells_iff {calls : List MemCall} (h : Initial vm₀)
    (hrun : Run (Guarded MemCall.Ok MemCall.Step) vm₀ calls vm) (hn : 1 ≤ numBytes)
    (hbase : vm.memoryStart = 0 → base + memSize ≤ 2 ^ 32) :
    MallocTells base vm numBytes ↔ MallocOk base vm numBytes := by
  have hI : Usable vm ∧ vm.mutex = false :=
    hrun.invariant (I := fun u => Usable u ∧ u.mutex = false) ⟨.inr ⟨h.start, h.tlb⟩, h.mutex⟩
      fun _ _ _ hI hs => MemCall.step_usable hI hs
  cases he : vm.lock >>= ensureMemory base with
  | none =>
    refine iff_of_false ?_ ?_
    · rintro ⟨vm₁, vm', va, he', -⟩
      cases he.symm.trans he'
    · rintro ⟨vm₁, he', -⟩
      cases he.symm.trans he'
  | some vm₁ => exact mallocTells_iff (setUp_memOk hI.1 hbase he) he hn

/-- The second region is at page 1. -/
theorem malloc_tells_second : ∃ vm va, tMalloc 4096 Vm.start 1 = some (vm, va) ∧
    MallocTells 4096 vm 1 := by
  have hvalue : (tMalloc 4096 Vm.start 1).any fun r => (r.1.lock >>= ensureMemory 4096).any
      fun vm => getNextAvail vm 1 = some 65536 && (findFreePhysicalPage vm 2).isSome &&
        (vm.emptySlots 1 1).card = 0 := by decide +kernel
  obtain ⟨⟨vm, va⟩, hm, hvalue⟩ := (Option.any_eq_true _ _).1 hvalue
  obtain ⟨vm₁, he, hvalue⟩ := (Option.any_eq_true _ _).1 hvalue
  simp only [Bool.and_eq_true, decide_eq_true_eq] at hvalue
  obtain ⟨⟨hnext, hfree⟩, hslots⟩ := hvalue
  have hone : pagesRequired ((1 : ℕ) : ℤ) = 1 := by decide
  have hinit : Initial Vm.start := ⟨rfl, rfl, rfl⟩
  have hrun : Run (Guarded MemCall.Ok MemCall.Step) Vm.start [.malloc 4096 1] vm :=
    .single ⟨trivial, .malloc (by decide) (fun _ => by decide) hm⟩
  refine ⟨vm, va, hm, (malloc_tells_iff hinit hrun (by decide) fun _ => by decide).2
    ⟨vm₁, he, .inr ⟨65536, by rw [hone]; exact hnext, by decide, ?_⟩⟩⟩
  rw [hone, show pageNumber 65536 = 1 from rfl, Vm.framesNeeded, hslots]
  exact (findFreePhysicalPage_isSome (by decide)).1 hfree

/-- **The defect.** The first region is at page 0, so that its address is null. -/
theorem first_region_is_null : ¬∀ calls vm, Run MemCall.Step Vm.start calls vm →
    ∀ base numBytes, 1 ≤ numBytes → (vm.memoryStart = 0 → base + memSize ≤ 2 ^ 32) →
      MallocTells base vm numBytes := by
  intro hall
  obtain ⟨vm₁, vm', va, he, hm, hcan, -⟩ :=
    hall [] Vm.start .nil 4096 1 (by decide) fun _ => by decide
  have hvalue : (tMalloc 4096 Vm.start 1).any fun r => r.2 = 0 := by decide +kernel
  have hsetup : ((Vm.start.lock >>= ensureMemory 4096)).any fun vm =>
      isSet vm.virtBitmap 0 = false && (findFreePhysicalPage vm 2).isSome &&
        (vm.emptySlots 0 1).card = 1 := by decide +kernel
  rw [hm, Option.any_some, decide_eq_true_eq] at hvalue
  rw [he, Option.any_some] at hsetup
  simp only [Bool.and_eq_true, decide_eq_true_eq] at hsetup
  obtain ⟨⟨hbit, hfree⟩, hslots⟩ := hsetup
  have hone : pagesRequired ((1 : ℕ) : ℤ) = 1 := by decide
  refine (hcan ⟨0, by rw [hone]; decide, fun i hi => ?_, ?_⟩).1 hvalue
  · rw [hone] at hi
    obtain rfl := Nat.lt_one_iff.1 hi
    exact hbit
  · rw [hone, hslots]
    exact (findFreePhysicalPage_isSome (by decide)).1 hfree

end UserOS.MyVm
