import Mathlib.Data.List.Pairwise
import UserOS.MyVm.Access

/-!
# Runs of `t_malloc` and `t_free`

A run starts before the memory is set up and makes any calls of `t_malloc`, and calls of `t_free`
on regions that are live: pairs of address and size that `t_malloc` returned and that were not
freed since.

`t_free` clears the bits of the frames after the first page's frame, and only those below 8. When
one of them is a page table's, or another region's, the next allocation hands it out again
(`free_unmarks_table`). `FreeOk` is the condition under which this does not happen.

* `RegionsOk.step`: each step that meets the condition keeps the frames, the regions and the bytes.
* `frames_exclusive`: every frame in use has one owner and its bit, over whole runs.
-/

namespace UserOS.MyVm

open Lib

/-- The state of a run: the memory and the live regions, as pairs of address and size. -/
structure Regions where
  vm : Vm
  live : List (ℕ × ℕ)

/-- The calls. `base` is what `malloc` returns when the memory is set up. -/
inductive MemOp
  | malloc (base numBytes : ℕ)
  | free (va size : ℕ)
  deriving DecidableEq, Repr

/-- One call. A call of `t_malloc` finds a free virtual run and enough free frames. -/
inductive MemOp.Step : Regions → MemOp → Regions → Prop
  | malloc {s : Regions} {vm : Vm} {base numBytes va : ℕ} :
    1 ≤ numBytes → (s.vm.memoryStart = 0 → base + memSize ≤ 2 ^ 32) → served base s.vm numBytes →
    tMalloc base s.vm numBytes = some (vm, va) →
    Step s (.malloc base numBytes) ⟨vm, (va, numBytes) :: s.live⟩
  | free {s : Regions} {vm : Vm} {va size : ℕ} :
    (va, size) ∈ s.live → tFree s.vm va size = some vm →
    Step s (.free va size) ⟨vm, s.live.erase (va, size)⟩

/-- The condition on the state before a call of `t_free`. -/
def MemOp.Ok (s : Regions) : MemOp → Prop
  | .malloc .. => True
  | .free va size => FreeOk s.vm va size

/-! ## The invariant -/

/-- Page `p` belongs to region `r`. -/
def InRegion (r : ℕ × ℕ) (p : ℕ) : Prop :=
  pageNumber r.1 ≤ p ∧ p < pageNumber r.1 + pagesRequired r.2

/-- The region `r` is a run of mapped pages. -/
structure RegionOk (vm : Vm) (r : ℕ × ℕ) : Prop where
  pos : 1 ≤ r.2
  aligned : pageNumber r.1 * pgSize = r.1
  fits : pageNumber r.1 + pagesRequired r.2 ≤ 65536
  mapped : ∀ p, InRegion r p → vm.pteAt p ≠ 0

/-- No page belongs to both. -/
def Apart (r q : ℕ × ℕ) : Prop := ∀ p, InRegion r p → ¬ InRegion q p

instance : Std.Symm Apart := ⟨fun _ _ h p hq hr => h p hr hq⟩

/-- The memory is in order, and the live regions are mapped and share no page. -/
structure RegionsOk (s : Regions) : Prop where
  usable : Usable s.vm
  unlocked : s.vm.mutex = false
  start : s.vm.memoryStart = 0 → s.live = []
  region : ∀ r ∈ s.live, RegionOk s.vm r
  apart : s.live.Pairwise Apart

/-- The byte at virtual address `a`. -/
def Vm.byteAt (vm : Vm) (a : ℕ) : UInt8 := vm.mem (vm.phys a)

variable {s s' : Regions} {op : MemOp} {r q : ℕ × ℕ} {vm vm' : Vm} {a : ℕ}

theorem RegionOk.lt (h : RegionOk vm r) (ha : a < r.1 + r.2) : a < 2 ^ 32 := by
  have h1 := h.aligned
  have h2 := h.fits
  rw [pagesRequired_eq] at h2
  unfold pgSize at h1
  omega

theorem RegionOk.mem (h : RegionOk vm r) (h1 : r.1 ≤ a) (h2 : a < r.1 + r.2) :
    InRegion r (pageNumber a) := by
  have := h.aligned
  unfold InRegion
  rw [pagesRequired_eq]
  unfold pageNumber pgSize at *
  omega

theorem RegionOk.range {n : ℕ} (h : RegionOk vm r) (h1 : r.1 ≤ a) (h2 : a + n ≤ r.1 + r.2) :
    MappedRange vm a n := by
  have hal := h.aligned
  refine .ofPages h.fits (fun p hlo hhi => h.mapped p ⟨hlo, hhi⟩) (hal.symm ▸ h1) ?_
  rw [pagesRequired_eq]
  unfold pgSize at *
  omega

/-- A region keeps its bytes when its pages keep their frames and these their bytes. -/
theorem RegionOk.byteAt (h : RegionOk vm r) (h2 : a < r.1 + r.2)
    (hpte : vm'.pteAt (pageNumber a) = vm.pteAt (pageNumber a))
    (hbytes : ∀ k < pgSize, vm'.mem (vm.pteAt (pageNumber a) + k) =
      vm.mem (vm.pteAt (pageNumber a) + k)) : vm'.byteAt a = vm.byteAt a := by
  rw [Vm.pteAt_pageNumber (h.lt h2)] at hpte hbytes
  rw [Vm.pteAt_pageNumber (h.lt h2)] at hpte
  unfold Vm.byteAt Vm.phys
  rw [hpte]
  exact hbytes _ (Nat.mod_lt _ (by decide))

/-- The memory is set up as soon as there is a live region. -/
theorem RegionsOk.memOk (h : RegionsOk s) (hr : r ∈ s.live) : MemOk s.vm :=
  h.usable.resolve_right fun h0 => by
    rw [h.start h0.1] at hr
    cases hr

/-! ## Steps -/

/-- What a step keeps: the invariant, and the bytes of the regions live before and after. -/
structure Kept (s s' : Regions) : Prop where
  ok : RegionsOk s'
  bytes : ∀ r ∈ s.live, r ∈ s'.live → ∀ a, r.1 ≤ a → a < r.1 + r.2 →
    s'.vm.byteAt a = s.vm.byteAt a

theorem RegionsOk.malloc {base n va : ℕ} (h : RegionsOk s) (hn : 1 ≤ n)
    (hbase : s.vm.memoryStart = 0 → base + memSize ≤ 2 ^ 32) (hs : served base s.vm n)
    (hm : tMalloc base s.vm n = some (vm, va)) : Kept s ⟨vm, (va, n) :: s.live⟩ := by
  obtain ⟨vm₁, p, rfl, hp, hlock, hgrown, hfree, hsame⟩ := tMalloc_spec h.usable hbase hn hs hm
  have hpn : pageNumber (p * pgSize) = p := Nat.mul_div_cancel p (by decide)
  have hold : ∀ r ∈ s.live, ∀ i, InRegion r i → vm₁.pteAt i ≠ 0 ∧ vm₁.pteAt i = s.vm.pteAt i ∧
      vm.pteAt i = vm₁.pteAt i := fun r hr i hi => by
    have hne := (h.region r hr).mapped i hi
    have hvm₁ := hsame (h.memOk hr).frames.start.ne'
    have heq : vm₁.pteAt i = s.vm.pteAt i := by rw [hvm₁]; rfl
    have hlt : i < 65536 := hi.2.trans_le (h.region r hr).fits
    refine ⟨heq ▸ hne, heq, hgrown.old i hlt ?_⟩
    by_contra hin
    exact (heq ▸ hne) (hfree i (by omega) (by omega))
  refine ⟨⟨.inl hgrown.ok, hlock, fun h0 => absurd h0 hgrown.ok.frames.start.ne', ?_, ?_⟩, ?_⟩
  · intro r hr
    rcases List.mem_cons.1 hr with rfl | hr
    · exact ⟨hn, by rw [hpn], by rwa [hpn], fun i hi => by
        unfold InRegion at hi
        rw [hpn] at hi
        exact hgrown.new i hi.1 hi.2⟩
    · refine ⟨(h.region r hr).pos, (h.region r hr).aligned, (h.region r hr).fits, fun i hi => ?_⟩
      obtain ⟨h1, -, h3⟩ := hold r hr i hi
      rwa [h3]
  · refine List.pairwise_cons.2 ⟨fun r hr i hi hi' => ?_, h.apart⟩
    unfold InRegion at hi
    rw [hpn] at hi
    exact (hold r hr i hi').1 (hfree i hi.1 hi.2)
  · intro r hr _ a h1 h2
    have hmem := (h.region r hr).mem h1 h2
    obtain ⟨hne, heq, hkeep⟩ := hold r hr _ hmem
    refine (h.region r hr).byteAt h2 (hkeep.trans heq) fun k hk => ?_
    have hb := hgrown.bytes _ (hmem.2.trans_le (h.region r hr).fits) hne k hk
    rw [heq, hsame (h.memOk hr).frames.start.ne'] at hb
    exact hb

theorem RegionsOk.free {va n : ℕ} (h : RegionsOk s) (hmem : (va, n) ∈ s.live)
    (hok : FreeOk s.vm va n) (hf : tFree s.vm va n = some vm) :
    Kept s ⟨vm, s.live.erase (va, n)⟩ := by
  have hfreed := h.region _ hmem
  have hmemOk := h.memOk hmem
  have hva : va < 2 ^ 32 := hfreed.lt (Nat.lt_add_of_pos_right hfreed.pos)
  obtain ⟨hok', hlock, hpages⟩ := tFree_spec hmemOk hok hva h.unlocked hf
  have hapart : ∀ r ∈ s.live.erase (va, n), Apart (va, n) r := by
    have hperm := List.perm_cons_erase hmem
    have := (hperm.pairwise_iff (R := Apart) (Std.Symm.symm _ _)).1 h.apart
    exact (List.pairwise_cons.1 this).1
  have hold : ∀ r ∈ s.live.erase (va, n), ∀ i, InRegion r i → vm.pteAt i = s.vm.pteAt i :=
    fun r hr i hi => by
      have hr' := List.mem_of_mem_erase hr
      obtain heq | ⟨h1, h2, -⟩ := (hpages i (hi.2.trans_le (h.region r hr').fits)).1
      · exact heq
      · exact absurd hi (hapart r hr i ⟨h1, h2⟩)
  refine ⟨⟨.inl hok', hlock, fun h0 => absurd h0 hok'.frames.start.ne', fun r hr => ?_,
    h.apart.sublist (List.erase_sublist ..)⟩, fun r hr hr' a h1 h2 => ?_⟩
  · have hr' := h.region r (List.mem_of_mem_erase hr)
    exact ⟨hr'.pos, hr'.aligned, hr'.fits, fun i hi => by
      rw [hold r hr i hi]
      exact hr'.mapped i hi⟩
  · have hreg := h.region r hr
    have hin := hreg.mem h1 h2
    have heq := hold r hr' _ hin
    refine hreg.byteAt h2 heq fun k hk => ?_
    have := (hpages _ (hin.2.trans_le hreg.fits)).2 (by rw [heq]; exact hreg.mapped _ hin) k hk
    rwa [heq] at this

theorem RegionsOk.step (h : RegionsOk s) (hstep : Guarded MemOp.Ok MemOp.Step s op s') :
    Kept s s' := by
  obtain ⟨hok, hstep⟩ := hstep
  cases hstep with
  | malloc hn hbase hs hm => exact h.malloc hn hbase hs hm
  | free hmem hf => exact h.free hmem hok hf

/-! ## Runs -/

/-- The start of a run: memory that is not set up, an empty TLB, and the lock free. -/
structure Initial (vm : Vm) : Prop where
  start : vm.memoryStart = 0
  tlb : vm.tlb = Tlb.empty
  mutex : vm.mutex = false

theorem RegionsOk.run {vm₀ : Vm} {ops : List MemOp} (h : Initial vm₀)
    (hrun : Run (Guarded MemOp.Ok MemOp.Step) ⟨vm₀, []⟩ ops s) : RegionsOk s :=
  hrun.invariant (I := RegionsOk)
    ⟨.inr ⟨h.start, h.tlb⟩, h.mutex, fun _ => rfl, fun _ hr => (by cases hr), .nil⟩
    fun _ _ _ hI hs => (hI.step hs).ok

theorem MemOk.not_free {n : ℕ} {pages : List ℕ} (h : MemOk vm) (hn : 0 < n)
    (hp : findFreePhysicalPage vm n = some pages) (ha : a ∈ pages) (o : Owner) :
    vm.owns o ≠ some a := by
  rw [findFreePhysicalPage_eq hn] at hp
  simp only at hp
  split_ifs at hp
  rw [Option.some.injEq] at hp
  subst hp
  obtain ⟨f, hf, rfl⟩ := List.mem_map.1 ha
  have hfree := List.of_mem_filter (List.mem_of_mem_take hf)
  exact h.frames.frames.not_owned (Vm.not_used_of_free (by simpa using hfree)) o

/-- **Frame ownership.** In every state reached by calls that meet the condition: the page
directory, the page tables and the non-zero entries have frames of their own, each with its bit
set; no free frame is one of them; what is put through one live region does not change the bytes
of another, and neither does a further call. -/
theorem frames_exclusive (μ : Malloc TlbNode) {vm₀ : Vm} {ops : List MemOp} (h : Initial vm₀)
    (hrun : Run (Guarded MemOp.Ok MemOp.Step) ⟨vm₀, []⟩ ops s) :
    (s.vm.memoryStart ≠ 0 → Exclusive s.vm.owns s.vm.Used ∧
      ∀ n > 0, ∀ pages, findFreePhysicalPage s.vm n = some pages →
        ∀ a ∈ pages, ∀ o, s.vm.owns o ≠ some a) ∧
    (∀ r ∈ s.live, ∀ q ∈ s.live, r ≠ q → ∀ a n data, r.1 ≤ a → 1 ≤ n → a + n ≤ r.1 + r.2 →
      ∃ vm, putValue μ s.vm a data n = some vm ∧
        ∀ b, q.1 ≤ b → b < q.1 + q.2 → vm.byteAt b = s.vm.byteAt b) ∧
    ∀ op s', Guarded MemOp.Ok MemOp.Step s op s' → ∀ r ∈ s.live, r ∈ s'.live →
      ∀ a, r.1 ≤ a → a < r.1 + r.2 → s'.vm.byteAt a = s.vm.byteAt a := by
  have hok := RegionsOk.run h hrun
  refine ⟨fun h0 => ?_, fun r hr q hq hne a n data h1 hn h2 => ?_,
    fun op s' hstep => (hok.step hstep).bytes⟩
  · have hmem := hok.usable.resolve_right fun hh => h0 hh.1
    exact ⟨hmem.frames.frames, fun n hn pages hp a ha o => hmem.not_free hn hp ha o⟩
  · have hmem := hok.memOk hr
    have hrange := (hok.region r hr).range h1 h2
    obtain ⟨vm, hput, -, hs⟩ := putValue_spec μ data
      hmem.frames.apart.pagesOk hmem.tlb hok.unlocked hn hrange
    refine ⟨vm, hput, fun b hb1 hb2 => ?_⟩
    have hb := (hok.region q hq).lt hb2
    have hqmap := ((hok.region q hq).range (n := 1) hb1 (by omega)).mapped b le_rfl (by omega)
    unfold Vm.byteAt
    rw [show vm.phys b = s.vm.phys b by unfold Vm.phys; rw [hs.entry], hs.byte b hb hqmap, if_neg]
    -- A byte of both regions would lie in a page of both.
    rintro ⟨h3, h4⟩
    have hapart : Apart r q := hok.apart.forall hr hq hne
    exact hapart _ ((hok.region r hr).mem (by omega) (by omega))
      ((hok.region q hq).mem hb1 hb2)

/-- A region of one page is always freed right. -/
theorem freeOk_of_one_page {va : ℕ} {size : ℤ} (h : MemOk vm) (hk : pagesRequired size = 1)
    (hmap : vm.Mapped va) : FreeOk vm va size := by
  have hpde : vm.pde (dirIndex va) ≠ 0 := fun h0 => hmap (pte_of_pde_zero h0)
  have howns := Vm.owns_of_mapped hmap
  have hfirst : frameAddr vm.memoryStart (firstFrame vm va) = vm.entry va := by
    obtain ⟨f, -, hf⟩ := h.frames.apart.frames.used howns
    unfold firstFrame
    rw [Vm.word_eq_pte hpde]
    change vm.pte (dirIndex va) (tableIndex va) = _ at hf
    rw [Vm.entry, hf]
    unfold frameAddr pgSize
    congr 2
    omega
  simp only [FreeOk, hk, layout_pageTableEntries]
  rw [if_pos (show tableIndex va + 1 ≤ 16384 from tableIndex_lt va)]
  intro i hi _ o ho
  obtain rfl : i = 0 := by omega
  rw [Nat.add_zero, hfirst] at ho
  exact ⟨0, Nat.one_pos, h.frames.frames.inj ho howns⟩

/-- A run that allocates a region of one page and frees it. -/
theorem frames_exclusive_one_page : ∃ s, Run (Guarded MemOp.Ok MemOp.Step) ⟨Vm.start, []⟩
      [.malloc 4096 1, .free 0 1] s ∧ s.vm.memoryStart ≠ 0 ∧ Exclusive s.vm.owns s.vm.Used := by
  have hserved : served 4096 Vm.start 1 := by decide +kernel
  have hvalue : ((tMalloc 4096 Vm.start 1).bind fun r => (tFree r.1 r.2 1).map fun vm =>
      (r.2, vm.memoryStart)) = some (0, 4096) := by decide +kernel
  obtain ⟨⟨vm₁, va⟩, hm, hvalue⟩ := Option.bind_eq_some_iff.1 hvalue
  obtain ⟨vm, hf, hvalue⟩ := Option.map_eq_some_iff.1 hvalue
  rw [Prod.mk.injEq] at hvalue
  obtain ⟨rfl, hstart⟩ := hvalue
  have hinit : Initial Vm.start := ⟨rfl, rfl, rfl⟩
  have hone : Run (Guarded MemOp.Ok MemOp.Step) ⟨Vm.start, []⟩ [.malloc 4096 1] _ :=
    Run.single ⟨trivial, .malloc (by decide) (fun _ => by decide) hserved hm⟩
  have hok := RegionsOk.run hinit hone
  have hregion := hok.region (0, 1) (by simp)
  have hfree : FreeOk vm₁ 0 (1 : ℕ) := freeOk_of_one_page (hok.memOk (r := (0, 1)) (by simp))
    (by decide) ((hregion.range (a := 0) (n := 1) le_rfl le_rfl).mapped 0 le_rfl (by decide))
  have hlast : Guarded MemOp.Ok MemOp.Step ⟨vm₁, [(0, 1)]⟩ (.free 0 1) ⟨vm, _⟩ :=
    ⟨hfree, .free (by simp) hf⟩
  have hrun := hone.append (Run.single hlast)
  exact ⟨_, hrun, by rw [hstart]; decide,
    ((frames_exclusive (.bump _) hinit hrun).1 (by rw [hstart]; decide)).1⟩

/-- **The defect.** A region of two pages has the frames 1 and 3, and the page table between them
frame 2. Freeing it clears the bits 1 and 2, so that the page table is no longer marked. -/
theorem free_unmarks_table : ∃ s, Run MemOp.Step ⟨Vm.start, []⟩
      [.malloc 4096 131072, .free 0 131072] s ∧ s.vm.memoryStart ≠ 0 ∧
    ¬ Exclusive s.vm.owns s.vm.Used := by
  have hserved : served 4096 Vm.start 131072 := by decide +kernel
  have hvalue : ((tMalloc 4096 Vm.start 131072).bind fun r => (tFree r.1 r.2 131072).map fun vm =>
      (r.2, vm.memoryStart, vm.pde 0, isSet vm.phyBitmap 2)) =
        some (0, 4096, 4096 + 2 * 65536, false) := by decide +kernel
  obtain ⟨⟨vm₁, va⟩, hm, hvalue⟩ := Option.bind_eq_some_iff.1 hvalue
  obtain ⟨vm, hf, hvalue⟩ := Option.map_eq_some_iff.1 hvalue
  simp only [Prod.mk.injEq] at hvalue
  obtain ⟨rfl, hstart, hpde, hbit⟩ := hvalue
  refine ⟨_, (Run.single (.malloc (by decide) (fun _ => by decide) hserved hm)).append
    (Run.single (.free (by simp) hf)), by rw [hstart]; decide, fun hex => ?_⟩
  have howns : vm.owns (.table 0) = some (4096 + 2 * 65536) := by
    simp [Vm.owns, hpde]
  obtain ⟨f, -, hframe, hset⟩ := hex.used howns
  obtain rfl : f = 2 := by
    rw [hstart] at hframe
    unfold frameAddr pgSize at hframe
    omega
  rw [hbit] at hset
  cases hset

end UserOS.MyVm
