import UserOS.Lib.Heap
import UserOS.MyVm.FreeFrames

/-!
# The allocator is a heap

A program that keeps to its regions sees a heap of bytes: `t_malloc` allocates zeroes, `t_free`
frees, `put_value` writes and `get_value` reads. Page tables, frames, bitmaps and the TLB do not
show.

* `Regions.heap`: the heap in memory.
* `InOrder.step`: each call is an action on the heap.
* `uses_refine`: every run is a run of a heap, and no call but `t_malloc` can fail.
* `gets_last_put`: `get_value` reads what was put last, and 0 where nothing was put.
-/

namespace UserOS.MyVm

open Lib

/-- One call of a program that keeps to its regions. It frees live regions, when `t_free` is right
about them, and puts and gets within them. -/
inductive Uses (μ : Malloc TlbNode) (s : Regions) : HeapOp UInt8 → Regions → Prop
  | alloc {vm : Vm} {base va n : ℕ} :
    Guarded MemOp.Ok MemOp.Step s (.malloc base n) ⟨vm, (va, n) :: s.live⟩ →
    Uses μ s (.alloc va n) ⟨vm, (va, n) :: s.live⟩
  | free {vm : Vm} {va n : ℕ} :
    Guarded MemOp.Ok MemOp.Step s (.free va n) ⟨vm, s.live.erase (va, n)⟩ →
    Uses μ s (.free va n) ⟨vm, s.live.erase (va, n)⟩
  | put {vm : Vm} {r : ℕ × ℕ} {a n : ℕ} {data : Bytes} :
    r ∈ s.live → r.1 ≤ a → a + n ≤ r.1 + r.2 → 1 ≤ n → putValue μ s.vm a data n = some vm →
    Uses μ s (.put a n data) ⟨vm, s.live⟩
  | get {vm : Vm} {r : ℕ × ℕ} {a n : ℕ} {buf buf' : Bytes} :
    r ∈ s.live → r.1 ≤ a → a + n ≤ r.1 + r.2 → 1 ≤ n →
    getValue μ s.vm a buf n = some (vm, buf') → Uses μ s (.get a n buf') ⟨vm, s.live⟩

/-- The heap in memory: the bytes of the live regions. -/
def Regions.heap (s : Regions) : Heap UInt8 := .ofBlocks s.live s.vm.byteAt

/-- The regions are in order, and free frames are clean. -/
structure InOrder (s : Regions) : Prop where
  ok : RegionsOk s
  clean : s.vm.memoryStart ≠ 0 → Clean s.vm

variable {μ : Malloc TlbNode} {vm vm' : Vm} {s s' : Regions} {op : HeapOp UInt8} {r q : ℕ × ℕ}
  {a n p va x base : ℕ} {data buf : Bytes}

/-! ## The calls -/

/-- An address is in one region at most. -/
theorem Apart.not_within (h : Apart r q) (hr : RegionOk vm r) (hq : RegionOk vm' q)
    (hx : Within r.1 r.2 x) : ¬Within q.1 q.2 x := fun hx' =>
  h _ (hr.mem hx.1 hx.2) (hq.mem hx'.1 hx'.2)

theorem RegionsOk.apart_erase (h : RegionsOk s) (hr : r ∈ s.live) :
    ∀ q ∈ s.live.erase r, Apart r q := by
  have hperm := List.perm_cons_erase hr
  have hpairs := (hperm.pairwise_iff (R := Apart) (Std.Symm.symm _ _)).1 h.apart
  exact (List.pairwise_cons.1 hpairs).1

/-- **Allocating.** -/
theorem InOrder.alloc (h : InOrder s)
    (hs : Guarded MemOp.Ok MemOp.Step s (.malloc base n) ⟨vm, (va, n) :: s.live⟩) :
    InOrder ⟨vm, (va, n) :: s.live⟩ ∧
      Heap.Step 0 s.heap (.alloc va n) (Regions.heap ⟨vm, (va, n) :: s.live⟩) := by
  have hkept := h.ok.step hs
  have hok := hkept.ok
  obtain ⟨-, hs⟩ := hs
  generalize heq : (⟨vm, (va, n) :: s.live⟩ : Regions) = s' at hs
  cases hs with
  | malloc hn hbase hserved hm =>
    obtain ⟨rfl, hlive⟩ := Regions.mk.inj heq
    obtain ⟨rfl, -⟩ := Prod.mk.inj (List.cons.inj hlive).1
    obtain ⟨hclean, hzero⟩ := tMalloc_clean h.ok.usable h.clean hbase hn hserved hm
    have hnew := hok.region (va, n) List.mem_cons_self
    refine ⟨⟨hok, fun _ => hclean⟩, .ofBlocks_alloc (fun r => List.mem_cons.trans or_comm)
      (fun r hr x => ?_) (fun x hx => ?_) fun r hr x hx =>
        hkept.bytes r hr (List.mem_cons_of_mem _ hr) x hx.1 hx.2⟩
    · exact Apart.not_within ((List.pairwise_cons.1 hok.apart).1 r hr) hnew
        (hok.region r (List.mem_cons_of_mem _ hr))
    · have hin := hnew.mem hx.1 hx.2
      have hbyte := hzero _ hin.1 hin.2 (x % pgSize) (Nat.mod_lt _ (by decide))
      rwa [Vm.pteAt_pageNumber (hnew.lt hx.2)] at hbyte

/-- **Freeing.** -/
theorem InOrder.free (h : InOrder s)
    (hs : Guarded MemOp.Ok MemOp.Step s (.free va n) ⟨vm, s.live.erase (va, n)⟩) :
    InOrder ⟨vm, s.live.erase (va, n)⟩ ∧
      Heap.Step 0 s.heap (.free va n) (Regions.heap ⟨vm, s.live.erase (va, n)⟩) := by
  have hkept := h.ok.step hs
  have hok := hkept.ok
  obtain ⟨hfree, hs⟩ := hs
  generalize heq : (⟨vm, s.live.erase (va, n)⟩ : Regions) = s' at hs
  cases hs with
  | free hmem hf =>
    obtain ⟨rfl, -⟩ := Regions.mk.inj heq
    have hmemOk := h.ok.memOk hmem
    have hclean := tFree_clean hmemOk.frames.apart hmemOk.tlb hfree
      (h.clean hmemOk.frames.start.ne') hf
    refine ⟨⟨hok, fun _ => hclean⟩, .ofBlocks_free hmem (fun r => List.mem_erase_of_ne)
      (fun r hr x => ?_) fun r hr x hx =>
        hkept.bytes r (List.mem_of_mem_erase hr) hr x hx.1 hx.2⟩
    exact Apart.not_within (h.ok.apart_erase hmem r hr) (h.ok.region (va, n) hmem)
      (h.ok.region r (List.mem_of_mem_erase hr))

theorem Vm.pteAt_eq_owns (hp : p < 65536) :
    vm.pteAt p = (vm.owns (.page (p / 16384) (p % 16384))).getD 0 := by
  by_cases h0 : vm.pteAt p = 0
  · have hnone : vm.owns (.page (p / 16384) (p % 16384)) = none :=
      if_neg fun hh => hh.2.2 h0
    rw [hnone, h0, Option.getD_none]
  · rw [Vm.owns_pteAt hp h0, Option.getD_some]

theorem InUse.pteAt (h : InUse vm vm') (hp : p < 65536) : vm'.pteAt p = vm.pteAt p := by
  rw [Vm.pteAt_eq_owns hp, Vm.pteAt_eq_owns hp, h.owns]

theorem InUse.memOk (h : InUse vm vm') (hok : MemOk vm) (htlb : TlbAgrees vm') : MemOk vm' where
  frames := by
    refine ⟨⟨h.start ▸ hok.frames.start, h.start ▸ hok.frames.fits⟩, ?_⟩
    rw [h.owns]
    refine hok.frames.frames.mono fun a ha => ?_
    obtain ⟨g, hg, rfl, hset⟩ := ha
    exact ⟨g, hg, by rw [h.start], by rw [h.phy, hset]⟩
  tlb := htlb
  virt i hi hne := by
    rw [h.pteAt hi] at hne
    rw [h.virt]
    exact hok.virt i hi hne

/-- The same regions. -/
theorem InUse.inOrder (hs : InUse s.vm vm) (h : InOrder s) (hmem : MemOk s.vm)
    (htlb : TlbAgrees vm) (hlock : vm.mutex = false) : InOrder ⟨vm, s.live⟩ where
  ok := by
    refine ⟨.inl (hs.memOk hmem htlb), hlock, fun h0 => ?_, fun r hr => ?_, h.ok.apart⟩
    · exact h.ok.start (hs.start ▸ h0)
    · have hr := h.ok.region r hr
      refine ⟨hr.pos, hr.aligned, hr.fits, fun p hp => ?_⟩
      have hlt : p < 65536 := hp.2.trans_le hr.fits
      rw [hs.pteAt hlt]
      exact hr.mapped p hp
  clean _ := (h.clean hmem.frames.start.ne').inUse hmem.frames.apart hs

/-- **Writing.** -/
theorem InOrder.put (h : InOrder s) (hr : r ∈ s.live) (h1 : r.1 ≤ a) (h2 : a + n ≤ r.1 + r.2)
    (hn : 1 ≤ n) (hput : putValue μ s.vm a data n = some vm) :
    InOrder ⟨vm, s.live⟩ ∧ Heap.Step 0 s.heap (.put a n data) (Regions.heap ⟨vm, s.live⟩) := by
  have hmem := h.ok.memOk hr
  have hpages := hmem.frames.apart.pagesOk
  have hrange := (h.ok.region r hr).range h1 h2
  obtain ⟨vm', hcall, hlock, hs⟩ := putValue_spec μ data hpages hmem.tlb h.ok.unlocked hn hrange
  obtain rfl := Option.some.inj (hput.symm.trans hcall)
  have hfits := hrange.fits
  have huse := putValue_inUse hpages hmem.tlb (show a < 2 ^ 32 by omega) hput
  refine ⟨huse.inOrder h hmem hs.tlb hlock, .ofBlocks_put hr
    (fun x hx => ⟨h1.trans hx.1, hx.2.trans_le h2⟩) fun q hq x hx => ?_⟩
  have hlt := (h.ok.region q hq).lt hx.2
  have hmap := ((h.ok.region q hq).range (n := 1) hx.1 hx.2).mapped x le_rfl (by omega)
  have hphys : vm.phys x = s.vm.phys x := by
    unfold Vm.phys
    rw [hs.entry]
  unfold Vm.byteAt
  rw [hphys]
  exact hs.byte x hlt hmap

/-- **Reading.** -/
theorem InOrder.get {buf' : Bytes} (h : InOrder s) (hr : r ∈ s.live) (h1 : r.1 ≤ a)
    (h2 : a + n ≤ r.1 + r.2) (hn : 1 ≤ n) (hget : getValue μ s.vm a buf n = some (vm, buf')) :
    InOrder ⟨vm, s.live⟩ ∧ Heap.Step 0 s.heap (.get a n buf') (Regions.heap ⟨vm, s.live⟩) := by
  have hmem := h.ok.memOk hr
  obtain ⟨T, buf'', hcall, htlb, hbuf⟩ := getValue_spec μ buf hmem.frames.apart.pagesOk hmem.tlb
    h.ok.unlocked hn ((h.ok.region r hr).range h1 h2)
  obtain ⟨rfl, rfl⟩ := Prod.mk.inj (Option.some.inj (hget.symm.trans hcall))
  have huse : InUse s.vm { s.vm with tlb := T } := ⟨rfl, rfl, rfl, rfl, fun _ _ => rfl⟩
  exact ⟨huse.inOrder h hmem htlb h.ok.unlocked, .ofBlocks_get hr
    (fun x hx => ⟨h1.trans hx.1, hx.2.trans_le h2⟩) hbuf fun _ _ _ _ => rfl⟩

theorem InOrder.step (h : InOrder s) (hs : Uses μ s op s') :
    InOrder s' ∧ Heap.Step 0 s.heap op s'.heap := by
  cases hs with
  | alloc hs => exact h.alloc hs
  | free hs => exact h.free hs
  | put hr h1 h2 hn hput => exact h.put hr h1 h2 hn hput
  | get hr h1 h2 hn hget => exact h.get hr h1 h2 hn hget

/-! ## Runs -/

theorem Initial.inOrder {vm₀ : Vm} (h : Initial vm₀) : InOrder ⟨vm₀, []⟩ where
  ok := ⟨.inr ⟨h.start, h.tlb⟩, h.mutex, fun _ => rfl, fun _ hr => (by cases hr), .nil⟩
  clean h0 := absurd h.start h0

theorem InOrder.run {vm₀ : Vm} {ops : List (HeapOp UInt8)} (h : Initial vm₀)
    (hrun : Run (Uses μ) ⟨vm₀, []⟩ ops s) :
    InOrder s ∧ Run (Heap.Step 0) Heap.empty ops s.heap := by
  have hempty : Regions.heap ⟨vm₀, []⟩ = Heap.empty := Heap.ofBlocks_nil
  refine Run.history (I := fun ops s => InOrder s ∧ Run (Heap.Step 0) Heap.empty ops s.heap)
    ⟨h.inOrder, hempty ▸ .nil⟩ ?_ hrun
  intro ops s op s' ⟨hs, hrun⟩ hstep
  obtain ⟨hs', hheap⟩ := hs.step hstep
  exact ⟨hs', hrun.snoc hheap⟩

/-- A region of one byte is allocated, written, freed and allocated again. -/
theorem exists_reuse : ∃ (s s' : Regions) (data buf : Bytes), data 0 = 7 ∧
    Run (Uses (.bump _)) ⟨Vm.start, []⟩ [.alloc 0 1, .put 0 1 data, .free 0 1, .alloc 0 1] s ∧
      Uses (.bump _) s (.get 0 1 buf) s' := by
  have hserved : served 4096 Vm.start 1 := by decide +kernel
  have hvalue : ((tMalloc 4096 Vm.start 1).bind fun r =>
      (putValue (.bump _) r.1 r.2 (fun _ => 7) 1).bind fun vm => (tFree vm r.2 1).bind fun vm =>
        (tMalloc 4096 vm 1).map fun r' => (r.2, r'.2, vm.memoryStart, served 4096 vm 1)) =
          some (0, 0, 4096, true) := by decide +kernel
  obtain ⟨⟨vm₁, va⟩, hm, hvalue⟩ := Option.bind_eq_some_iff.1 hvalue
  obtain ⟨vm₂, hput, hvalue⟩ := Option.bind_eq_some_iff.1 hvalue
  obtain ⟨vm₃, hf, hvalue⟩ := Option.bind_eq_some_iff.1 hvalue
  obtain ⟨⟨vm₄, va'⟩, hm', hvalue⟩ := Option.map_eq_some_iff.1 hvalue
  simp only [Prod.mk.injEq] at hvalue
  obtain ⟨rfl, rfl, hstart, hserved'⟩ := hvalue
  have hinit : Initial Vm.start := ⟨rfl, rfl, rfl⟩
  have hfirst : Run (Uses (.bump _)) ⟨Vm.start, []⟩ [.alloc 0 1] ⟨vm₁, [(0, 1)]⟩ := .single
    (.alloc ⟨trivial, .malloc (by decide) (fun _ => by decide) hserved hm⟩)
  have hsecond := hfirst.snoc (.put (List.mem_singleton.2 rfl) le_rfl le_rfl le_rfl hput)
  have hs := (InOrder.run hinit hsecond).1
  have hmem := hs.ok.memOk (List.mem_singleton.2 rfl)
  have hfree : FreeOk vm₂ 0 (1 : ℕ) := freeOk_of_one_page hmem (by decide)
    (((hs.ok.region (0, 1) (List.mem_singleton.2 rfl)).range (a := 0) (n := 1) le_rfl
      le_rfl).mapped 0 le_rfl (by decide))
  have hthird := hsecond.snoc (show Uses (.bump _) ⟨vm₂, [(0, 1)]⟩ (.free 0 1) ⟨vm₃, _⟩ from
    .free ⟨hfree, .free (List.mem_singleton.2 rfl) hf⟩)
  have hlast := hthird.snoc (.alloc ⟨trivial, .malloc (by decide)
    (fun h0 => absurd (hstart.symm.trans h0) (by decide)) hserved' hm'⟩)
  have hend := (InOrder.run hinit hlast).1
  have hregion : ((0, 1) : ℕ × ℕ) ∈ (0, 1) :: [((0, 1) : ℕ × ℕ)].erase (0, 1) := List.mem_cons_self
  have hend' := hend.ok.memOk hregion
  obtain ⟨T, buf, hget, -⟩ := getValue_spec (.bump _) Bytes.zero hend'.frames.apart.pagesOk
    hend'.tlb hend.ok.unlocked Nat.one_pos
      ((hend.ok.region _ hregion).range (a := 0) (n := 1) le_rfl le_rfl)
  exact ⟨_, _, _, buf, rfl, hlast, .get hregion le_rfl le_rfl le_rfl hget⟩

/-- **The allocator is a heap.** Every run of a program that keeps to its regions is a run of a heap
with the same results, new regions being zero. Its puts and gets are always answered, and so is
`t_free` under its condition. -/
theorem uses_refine {vm₀ : Vm} {ops : List (HeapOp UInt8)} (h : Initial vm₀)
    (hrun : Run (Uses μ) ⟨vm₀, []⟩ ops s) :
    Run (Heap.Step 0) Heap.empty ops s.heap ∧ ∀ r ∈ s.live,
      (∀ a n data, r.1 ≤ a → 1 ≤ n → a + n ≤ r.1 + r.2 →
        (∃ s', Uses μ s (.put a n data) s') ∧ ∃ buf s', Uses μ s (.get a n buf) s') ∧
      (FreeOk s.vm r.1 r.2 → ∃ s', Uses μ s (.free r.1 r.2) s') := by
  obtain ⟨hs, hheap⟩ := InOrder.run h hrun
  refine ⟨hheap, fun r hr => ⟨fun a n data h1 hn h2 => ⟨?_, ?_⟩, fun hfree => ?_⟩⟩
  all_goals have hmem := hs.ok.memOk hr
  · obtain ⟨vm, hput, -⟩ := putValue_spec μ data hmem.frames.apart.pagesOk hmem.tlb
      hs.ok.unlocked hn ((hs.ok.region r hr).range h1 h2)
    exact ⟨_, .put hr h1 h2 hn hput⟩
  · obtain ⟨T, buf, hget, -⟩ := getValue_spec μ data hmem.frames.apart.pagesOk hmem.tlb
      hs.ok.unlocked hn ((hs.ok.region r hr).range h1 h2)
    exact ⟨buf, _, .get hr h1 h2 hn hget⟩
  · obtain ⟨vm, hf, -⟩ := tFree_cases hmem.frames.apart hmem.tlb hfree hs.ok.unlocked
    exact ⟨_, .free ⟨hfree, .free hr hf⟩⟩

/-- A region that is allocated again is a new block of the heap. -/
theorem uses_refine_reused : ∃ (s : Regions) (data : Bytes), data 0 = 7 ∧
    Run (Heap.Step 0) Heap.empty [.alloc 0 1, .put 0 1 data, .free 0 1, .alloc 0 1] s.heap := by
  obtain ⟨s, -, data, -, hdata, hrun, -⟩ := exists_reuse
  exact ⟨s, data, hdata, (uses_refine ⟨rfl, rfl, rfl⟩ hrun).1⟩

/-- **What `get_value` reads.** It is what was put last, when only other addresses were put, freed
and allocated since; and it is 0 when nothing was put since the region was allocated, whatever its
frames held before. -/
theorem gets_last_put {vm₀ : Vm} {ops : List (HeapOp UInt8)} {b m : ℕ} (h : Initial vm₀)
    (hrun : Run (Uses μ) ⟨vm₀, []⟩ ops s) (hget : Uses μ s (.get a n buf) s') (h1 : b ≤ a)
    (h2 : a + n ≤ b + m) :
    (∀ ops₁ data ops₂, ops = ops₁ ++ .put b m data :: ops₂ → (∀ op ∈ ops₂, op.Spares b m) →
      ∀ j < n, buf j = data (a - b + j)) ∧
    ∀ ops₁ ops₂, ops = ops₁ ++ .alloc b m :: ops₂ → (∀ op ∈ ops₂, op.Spares b m) →
      ∀ j < n, buf j = 0 := by
  obtain ⟨hs, hheap⟩ := InOrder.run h hrun
  exact Heap.get_last hheap (hs.step hget).2 h1 h2

/-- What was written before the region was freed is gone. -/
theorem gets_last_put_reused : ∃ (s s' : Regions) (data buf : Bytes), data 0 = 7 ∧
    Run (Uses (.bump _)) ⟨Vm.start, []⟩ [.alloc 0 1, .put 0 1 data, .free 0 1, .alloc 0 1] s ∧
      Uses (.bump _) s (.get 0 1 buf) s' ∧ buf 0 = 0 := by
  obtain ⟨s, s', data, buf, hdata, hrun, hget⟩ := exists_reuse
  exact ⟨s, s', data, buf, hdata, hrun, hget,
    (gets_last_put ⟨rfl, rfl, rfl⟩ hrun hget (b := 0) (m := 1) le_rfl le_rfl).2
      [.alloc 0 1, .put 0 1 data, .free 0 1] [] rfl nofun 0 Nat.one_pos⟩

end UserOS.MyVm
