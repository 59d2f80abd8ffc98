import UserOS.Fragment.FreeFrames
import UserOS.Lib.Heap

/-!
# Shared pages make up a heap

A program that keeps to its allocations, and asks for no more than leaves room in a shared page,
sees a heap of bytes, although its allocations share pages: what is handed out behind another
allocation is as clear as a new page.

* `Tracked.heap`: the heap in memory.
* `InOrder.step`: each call is an action on the heap.
* `allocations_refine`: every run is a run of a heap.
-/

namespace UserOS.Fragment

open Lib
open MyVm (TlbNode memSize formVirtualAddress)

/-- One call of a program that keeps to its allocations. Its requests leave room, and it frees
allocations of less than a page when `t_free` is right about them. It reads several pages at once
only when they are full. -/
inductive Uses (μ : Malloc TlbNode) (base : ℕ) (s : Tracked) : HeapOp UInt8 → Tracked → Prop
  | alloc {vm : Vm} {va n : ℕ} :
    1 ≤ n → n < 2 ^ 32 → EnoughMemory base s.machine.toVm n → ¬ExactFit s.machine.toVm n →
    tMalloc base s.machine.toVm n = some (vm, va) →
    Uses μ base s (.alloc va n) ⟨{ s.machine with toVm := vm }, s.live ++ [⟨n, va⟩]⟩
  | free {m : Machine} {a : Allocation} :
    a ∈ s.live → a.numBytes < pgSize → FreeOk s a → tFree s.machine a.va a.numBytes = some m →
    Uses μ base s (.free a.va a.numBytes) ⟨m, s.live.erase a⟩
  | put {m : Machine} {va n : ℕ} {val : Bytes} :
    Inside s.live va n → 1 ≤ n → n < 2 ^ 31 → putValue μ s.machine va val n = some m →
    Uses μ base s (.put va n val) ⟨m, s.live⟩
  | get {m : Machine} {va n : ℕ} {buf buf' : Bytes} :
    Inside s.live va n → 1 ≤ n → n < 2 ^ 31 →
    (4096 < va % 4096 + n → Filled s.live ((va + n - 1) / 4096)) →
    getValue μ s.machine va buf n = some (m, buf') → Uses μ base s (.get va n buf') ⟨m, s.live⟩

/-- The byte at virtual address `x`. -/
def Vm.byteAt (vm : Vm) (x : ℕ) : UInt8 := vm.mem (vm.phys x)

/-- The addresses of an allocation. -/
def Allocation.range (a : Allocation) : ℕ × ℕ := (a.va, a.numBytes)

/-- The heap in memory: the bytes of the allocations. -/
def Tracked.heap (s : Tracked) : Heap UInt8 :=
  .ofBlocks (s.live.map Allocation.range) s.machine.byteAt

/-- The room behind the allocations of the pages with room is zero. -/
def Bare (vm : Vm) : Prop := ∀ node ∈ vm.partialPages, ∀ o, node.spaceTaken < o → o < 4096 →
  vm.byteAt (node.baseVa + o) = 0

/-- The pages and the lists are in order, and what is free is zero. -/
structure InOrder (s : Tracked) : Prop where
  sound : Sound s
  clean : s.machine.memoryStart ≠ 0 → Clean s.machine.toVm
  bare : Bare s.machine.toVm

variable {μ : Malloc TlbNode} {base : ℕ} {vm vm' vm₁ : Vm} {m m' : Machine} {s s' : Tracked}
  {live : List Allocation} {a b : Allocation} {node : PartialNode} {op : HeapOp UInt8}
  {val buf buf' : Bytes} {p q n o va x size : ℕ}

/-! ## Bytes of allocations -/

theorem Apart.not_within (h : Apart a b) (hx : Within a.va a.numBytes x) :
    ¬Within b.va b.numBytes x := fun hx' => by
  obtain ⟨h1, h2⟩ := hx
  obtain ⟨h3, h4⟩ := hx'
  unfold Apart at h
  omega

namespace Inv

variable (h : Inv vm live)

include h

/-- The page of a node has a list, so that it is mapped and not full. -/
theorem node_mapped (hlist : vm.alloted p ≠ []) : vm.Mapped p := by
  by_contra hun
  exact hlist ((h.empty p).2 (.inl hun))

/-- No allocation has bytes in the room of a page. -/
theorem not_within_room (hnode : node ∈ vm.partialPages) (ho : node.spaceTaken < o)
    (ho' : o < 4096) (hb : b ∈ live) : ¬Within b.va b.numBytes (node.baseVa + o) := by
  obtain ⟨p, hbase, hlist, -, -, hbehind⟩ := h.nodes node hnode
  intro ⟨h1, h2⟩
  have hmeets : b.Meets p := ⟨by omega, by omega⟩
  rcases (h.shaped b hb).meets_iff.1 hmeets with hfills | hshares
  · exact hlist ((h.empty p).2 (.inr ⟨b, hb, hfills⟩))
  · have hends := (h.shaped b hb).shares_inside hshares
    have hbound := hbehind b hb hshares
    omega

theorem byte_mapped (hb : b ∈ live) (hx : Within b.va b.numBytes x) : vm.Mapped (x / 4096) :=
  h.mapped_byte hb hx.1 hx.2

/-- The address of a byte is one of 32 bits. -/
theorem byte_lt (hb : b ∈ live) (hx : Within b.va b.numBytes x) : x < 2 ^ 32 := by
  have hp := (h.byte_mapped hb hx).1
  omega

end Inv

theorem InOrder.inv (h : InOrder s) (ha : a ∈ s.live) :
    Inv s.machine.toVm s.live ∧ TlbAgrees s.machine ∧ Clean s.machine.toVm := by
  rcases h.sound with rfl | ⟨hinv, htlb⟩
  · cases ha
  · exact ⟨hinv, htlb, h.clean hinv.frames.start.ne'⟩

/-! ## `t_malloc` -/

/-- The first part of `t_malloc`. -/
theorem InOrder.setUp (hbase : base + memSize ≤ 2 ^ 32) (h : InOrder s)
    (he : ensureMemory base s.machine.toVm = some vm) :
    Inv vm s.live ∧ Clean vm ∧ Bare vm ∧ vm.partialPages = s.machine.partialPages ∧
      ∀ b ∈ s.live, vm.byteAt = s.machine.byteAt := by
  unfold ensureMemory at he
  rcases h.sound with rfl | ⟨hinv, -⟩
  · rw [if_pos (show Tracked.start.machine.memoryStart = 0 from rfl)] at he
    have hfresh := setPhysicalMem_fresh hbase he
    refine ⟨hfresh.inv, setPhysicalMem_clean he, fun node hnode => ?_, hfresh.partialPages,
      fun b hb => by cases hb⟩
    rw [hfresh.partialPages] at hnode
    cases hnode
  · rw [if_neg hinv.frames.start.ne'] at he
    obtain rfl := Option.some.inj he
    exact ⟨hinv, h.clean hinv.frames.start.ne', h.bare, rfl, fun _ _ => rfl⟩

/-- **The room of a page** that is handed out is zero, and so is what is left. -/
theorem Bare.share (h : Bare vm) (hinv : Inv vm live) (hpos : 1 ≤ n)
    (hfit : firstFit vm.partialPages n = some node) (hleft : node.room ≠ n)
    (hva : va = (node.baseVa + node.spaceTaken + 1) % 2 ^ 32) :
    Bare (updatePartialList (addAllocEntry vm va n) va n) ∧
      ∀ x, Within va n x → vm.byteAt x = 0 := by
  obtain ⟨hnode, hroom⟩ := firstFit_spec hfit
  obtain ⟨p, hbaseVa, hlist, htaken, hfull, -⟩ := hinv.nodes node hnode
  rw [room_eq hfull] at hroom hleft
  have hp := (hinv.node_mapped hlist).1
  have hplace : va = node.baseVa + node.spaceTaken + 1 := by omega
  refine ⟨fun new hnew => ?_, fun x hx => ?_⟩
  · have hnodes : (updatePartialList (addAllocEntry vm va n) va n).partialPages =
        updateNodes (formVirtualAddress layout (dirIndex va) (tableIndex va)) _ n
          vm.partialPages := rfl
    rw [hnodes] at hnew
    rcases mem_updateNodes hinv.distinct hnew with ⟨hold, -⟩ | ⟨old, hold, -, rfl⟩
    · exact h new hold
    · intro o ho
      obtain ⟨-, -, -, -, hfull', -⟩ := hinv.nodes old hold
      dsimp only at ho ⊢
      exact h old hold o (by omega)
  · obtain ⟨h1, h2⟩ := hx
    have hzero := h node hnode (x - node.baseVa) (by omega) (by omega)
    rwa [Nat.add_sub_cancel' (by omega)] at hzero

/-- The bytes of the pages that were mapped. -/
theorem RegionMapped.byteAt (hmap : RegionMapped vm vm' p size n)
    (hfree : ∀ q, p ≤ q → q < p + size → vm.entry q = 0) (hx : vm.Mapped (x / 4096)) :
    vm'.byteAt x = vm.byteAt x := by
  obtain ⟨hq, hne⟩ := hx
  have hout : x / 4096 < p ∨ p + size ≤ x / 4096 := by
    by_contra hin
    exact hne (hfree _ (by omega) (by omega))
  unfold Vm.byteAt Vm.phys
  rw [hmap.old _ hq hout]
  exact hmap.bytes _ hq hne _ (Nat.mod_lt _ (by decide))

/-- **New pages** are zero, and so is the room in the last one. -/
theorem Bare.region (h : Bare vm) (hinv : Inv vm live) (hsize : 1 ≤ size)
    (hmap : RegionMapped vm vm' p size n) (hfree : ∀ q, p ≤ q → q < p + size → vm.entry q = 0)
    (hzero : ∀ x, p ≤ x / 4096 → x / 4096 < p + size → vm'.byteAt x = 0) : Bare vm' := by
  intro node hnode o ho ho'
  rw [hmap.partialPages] at hnode
  rcases List.mem_append.1 hnode with hold | hnew
  · obtain ⟨q, hbaseVa, hlist, -⟩ := hinv.nodes node hold
    rw [hmap.byteAt hfree]
    · exact h node hold o ho ho'
    · rw [hbaseVa, show (q * 4096 + o) / 4096 = q by omega]
      exact hinv.node_mapped hlist
  · split_ifs at hnew
    · cases hnew
    · obtain rfl := List.mem_singleton.1 hnew
      exact hzero _ (by dsimp only; omega) (by dsimp only; omega)

/-- **Allocating.** -/
theorem InOrder.alloc (hbase : base + memSize ≤ 2 ^ 32) (h : InOrder s) (hn : 1 ≤ n)
    (hlt : n < 2 ^ 32) (henough : EnoughMemory base s.machine.toVm n)
    (hroom : ¬ExactFit s.machine.toVm n)
    (hcall : tMalloc base s.machine.toVm n = some (vm, va)) :
    InOrder ⟨{ s.machine with toVm := vm }, s.live ++ [⟨n, va⟩]⟩ ∧
      Heap.Step 0 s.heap (.alloc va n)
        (Tracked.heap ⟨{ s.machine with toVm := vm }, s.live ++ [⟨n, va⟩]⟩) := by
  obtain ⟨hinv', htlb⟩ := h.sound.malloc hbase hroom
    (show Step (.bump _) base s (.malloc n) _ from .malloc hn hlt henough hcall)
  obtain ⟨vm₁, he, hcases⟩ := tMalloc_cases henough hcall
  obtain ⟨hinv, hclean, hbare, hlist, hsame⟩ := h.setUp hbase he
  obtain ⟨hclean', hbare', hzero, hkept⟩ : Clean vm ∧ Bare vm ∧
      (∀ x, Within va n x → vm.byteAt x = 0) ∧
      ∀ b ∈ s.live, ∀ x, Within b.va b.numBytes x → vm.byteAt x = vm₁.byteAt x := by
    rcases hcases with ⟨node, hfit, hva, rfl⟩ | ⟨phy, hnext, hphy, hmap⟩
    · have hleft : node.room ≠ n := by
        intro heq
        refine hroom ?_
        rw [ExactFit, ← hlist, hfit, ← heq]
        rfl
      obtain ⟨hbare', hzero⟩ := hbare.share hinv hn hfit hleft hva
      exact ⟨hclean, hbare', hzero, fun _ _ _ _ => rfl⟩
    · obtain ⟨p, hrun, rfl⟩ := getNextAvail_run hnext
      have hfits := hrun.fits
      have hsize : (n + 4095) / 4096 = pagesRequired n := rfl
      have hfree : ∀ q, p ≤ q → q < p + pagesRequired n → vm₁.entry q = 0 := fun q =>
        hinv.entry_of_free hrun
      have hregion := mapPages_spec hinv.frames (by omega) hfits hsize hfree hphy hmap
      have htabled := mapPages_tabled hinv.frames (by omega) hfits hsize hfree hphy hmap
      have hzero : ∀ x, p ≤ x / 4096 → x / 4096 < p + pagesRequired n → vm.byteAt x = 0 :=
        fun x h1 h2 => htabled.newPage hclean hregion.frames (by omega) (hfree _ h1 h2)
          (hregion.new _ h1 h2) (Nat.mod_lt x (by decide))
      refine ⟨htabled.clean hclean, hbare.region hinv (by omega) hregion hfree hzero,
        fun x hx => ?_, fun b hb x hx => hregion.byteAt hfree (hinv.byte_mapped hb hx)⟩
      obtain ⟨h1, h2⟩ := hx
      exact hzero x (by omega) (by omega)
  have hapart : ∀ b ∈ s.live, Apart ⟨n, va⟩ b := fun b hb =>
    ((List.pairwise_append.1 hinv'.apart).2.2 b hb _ List.mem_cons_self).symm
  refine ⟨⟨.inr ⟨hinv', htlb⟩, fun _ => hclean', hbare'⟩, .ofBlocks_alloc (fun r => ?_)
    (List.forall_mem_map.2 fun b hb x => (hapart b hb).not_within) hzero
    (List.forall_mem_map.2 fun b hb x hx => ?_)⟩
  · simp [Allocation.range]
  · exact (hkept b hb x hx).trans (congrFun (hsame b hb) x)

/-! ## `t_free` -/

/-- **Freeing.** -/
theorem InOrder.free (h : InOrder s) (ha : a ∈ s.live) (hlt : a.numBytes < pgSize)
    (hok : FreeOk s a) (hcall : tFree s.machine a.va a.numBytes = some m) :
    InOrder ⟨m, s.live.erase a⟩ ∧
      Heap.Step 0 s.heap (.free a.va a.numBytes) (Tracked.heap ⟨m, s.live.erase a⟩) := by
  obtain ⟨hinv, htlb, hclean⟩ := h.inv ha
  have hs : Small s.live a (a.va / 4096) := ⟨ha, hlt, rfl⟩
  have hclean' := tFree_clean hinv hs hclean hcall
  obtain ⟨hsound, hbare, hkept⟩ : Sound ⟨m, s.live.erase a⟩ ∧ Bare m.toVm ∧
      ∀ b ∈ s.live.erase a, ∀ x, Within b.va b.numBytes x →
        m.byteAt x = s.machine.byteAt x := by
    by_cases hother : ∃ b ∈ s.live.erase a, b.Meets (a.va / 4096)
    · obtain rfl := Option.some.inj ((tFree_shared hinv hs hother).symm.trans hcall)
      exact ⟨.inr ⟨hinv.freeShared hs hother (hok.shared hother), htlb.congr rfl fun _ _ _ => rfl⟩,
        h.bare, fun _ _ _ _ => rfl⟩
    · obtain ⟨hpage, hframe⟩ := hok.last hother
      obtain ⟨m', hcall', hfreed⟩ := tFree_last hinv hs htlb hother
      obtain rfl := Option.some.inj (hcall.symm.trans hcall')
      have hreleased := released_last hinv hs hother hpage hframe hfreed
      refine ⟨.inr ⟨hinv.freeLast hs hother hpage hfreed, hfreed.tlb⟩,
        fun node hnode o ho ho' => ?_, fun b hb x hx => hreleased.kept b hb x hx.1 hx.2⟩
      obtain ⟨c, T, v, f, hsame⟩ := hfreed.same
      have hnodes : m.partialPages =
          s.machine.partialPages.filter fun node => node.baseVa ≠ a.va / 4096 * 4096 := by
        rw [hsame]
        exact deleteNodes_eq_filter hinv.distinct
      rw [hnodes, List.mem_filter, decide_eq_true_eq] at hnode
      obtain ⟨q, hbaseVa, hlist, -⟩ := hinv.nodes node hnode.1
      have hpageVa : (node.baseVa + o) / 4096 = q := by omega
      have hbyte : m.byteAt (node.baseVa + o) = s.machine.byteAt (node.baseVa + o) := by
        refine hfreed.byte ?_ ?_
        · rw [hpageVa]
          exact hinv.node_mapped hlist
        · rw [hpageVa]
          exact fun heq => hnode.2 (by rw [hbaseVa, heq])
      rw [hbyte]
      exact h.bare node hnode.1 o ho ho'
  have hmem : ∀ {b}, b ∈ s.live.erase a → b ∈ s.live := fun hb => (hinv.mem_erase.1 hb).2
  refine ⟨⟨hsound, fun _ => hclean', hbare⟩, .ofBlocks_free (List.mem_map_of_mem ha)
    (fun r hr => ?_) (List.forall_mem_map.2 fun b hb x => ?_) (List.forall_mem_map.2 hkept)⟩
  · simp only [List.mem_map]
    refine exists_congr fun b => and_congr_left ?_
    rintro rfl
    exact hinv.mem_erase.trans (and_iff_right fun hba => hr (hba ▸ rfl))
  · exact Apart.not_within (hinv.apart_erase ha b hb).symm

/-! ## `put_value` and `get_value` -/

/-- A range inside an allocation is one that `put_value` allows. -/
theorem putAllows_of_inside (hinv : Inv vm live) (hn : 1 ≤ n) (hlt : n < 2 ^ 31)
    (hin : Inside live va n) : PutAllows vm va n := by
  by_cases hlong : 4096 < va % 4096 + n
  · exact (putAllows_long hinv hn hlt hlong).2 (pieces_of_inside hinv hn hlt hlong hin)
  · exact (putAllows_short hinv hn hlt (by omega)).2 hin

/-- A range inside an allocation, in one page or in full pages, is one that `get_value` allows. -/
theorem getAllows_of_inside (hinv : Inv vm live) (hn : 1 ≤ n) (hlt : n < 2 ^ 31)
    (hin : Inside live va n) (hfull : 4096 < va % 4096 + n → Filled live ((va + n - 1) / 4096)) :
    GetAllows vm va n := by
  by_cases hlong : 4096 < va % 4096 + n
  · refine (getAllows_long hinv hn hlt hlong).2 fun p h1 h2 => ?_
    rcases Nat.lt_or_eq_of_le h2 with h2 | rfl
    · exact (pieces_of_inside hinv hn hlt hlong hin).before p h1 h2
    · exact hfull hlong
  · exact (getAllows_short hinv hn (by omega)).2 hin

/-- **Writing.** -/
theorem InOrder.put (h : InOrder s) (hin : Inside s.live va n) (hn : 1 ≤ n) (hlt : n < 2 ^ 31)
    (hcall : putValue μ s.machine va val n = some m) :
    InOrder ⟨m, s.live⟩ ∧ Heap.Step 0 s.heap (.put va n val) (Tracked.heap ⟨m, s.live⟩) := by
  obtain ⟨a, ha, h1, h2⟩ := hin
  obtain ⟨hinv, htlb, hclean⟩ := h.inv ha
  have hready := hinv.ready htlb
  have hva := hinv.byte_lt ha (x := va) ⟨h1, by omega⟩
  have hall := putAllows_of_inside hinv hn hlt ⟨a, ha, h1, h2⟩
  obtain ⟨m', hcall', hstored⟩ := putValue_spec μ val hready hva hn hall
  obtain rfl := Option.some.inj (hcall.symm.trans hcall')
  have hpages := putValue_inPages hready hva hn hall hcall
  obtain ⟨c, T, hsame⟩ := hstored.same
  have hbyte : ∀ x < 2 ^ 32, s.machine.Mapped (x / 4096) → m.byteAt x =
      if Within va n x then val (x - va) else s.machine.byteAt x := fun x hx hmap => by
    unfold Vm.byteAt
    rw [hstored.phys hx]
    exact hstored.byte x hx hmap.2
  refine ⟨⟨.inr ⟨hstored.inv hinv, hstored.tlb⟩, fun _ => ?_, fun node hnode o ho ho' => ?_⟩,
    .ofBlocks_put (List.mem_map_of_mem ha) (fun x hx => ⟨h1.trans hx.1, hx.2.trans_le h2⟩)
      (List.forall_mem_map.2 fun b hb x hx =>
        hbyte x (hinv.byte_lt hb hx) (hinv.byte_mapped hb hx))⟩
  · exact hclean.inPages hinv.frames (by rw [hsame]) (by rw [hsame]) hpages
  · have hnode' : node ∈ s.machine.partialPages := by rwa [hsame] at hnode
    obtain ⟨p, hbaseVa, hlist, -⟩ := hinv.nodes node hnode'
    have hmap := hinv.node_mapped hlist
    have hp := hmap.1
    have hout := hinv.not_within_room hnode' ho ho' ha
    rw [hbyte _ (by omega) (by rwa [show (node.baseVa + o) / 4096 = p by omega]), if_neg]
    · exact h.bare node hnode' o ho ho'
    · exact fun hx => hout ⟨h1.trans hx.1, hx.2.trans_le h2⟩

/-- **Reading.** -/
theorem InOrder.get (h : InOrder s) (hin : Inside s.live va n) (hn : 1 ≤ n) (hlt : n < 2 ^ 31)
    (hfull : 4096 < va % 4096 + n → Filled s.live ((va + n - 1) / 4096))
    (hcall : getValue μ s.machine va buf n = some (m, buf')) :
    InOrder ⟨m, s.live⟩ ∧ Heap.Step 0 s.heap (.get va n buf') (Tracked.heap ⟨m, s.live⟩) := by
  obtain ⟨a, ha, h1, h2⟩ := hin
  obtain ⟨hinv, htlb, hclean⟩ := h.inv ha
  have hva := hinv.byte_lt ha (x := va) ⟨h1, by omega⟩
  have hall := getAllows_of_inside hinv hn hlt ⟨a, ha, h1, h2⟩ hfull
  obtain ⟨T, buf'', htlb', hcall', hbuf⟩ := getValue_spec μ buf (hinv.ready htlb) hva hn hlt hall
  obtain ⟨rfl, rfl⟩ := Prod.mk.inj (Option.some.inj (hcall.symm.trans hcall'))
  exact ⟨⟨.inr ⟨hinv, htlb'⟩, fun _ => hclean, h.bare⟩, .ofBlocks_get (List.mem_map_of_mem ha)
    (fun x hx => ⟨h1.trans hx.1, hx.2.trans_le h2⟩) (fun j hj => (hbuf j).trans (if_pos hj))
    fun _ _ _ _ => rfl⟩

/-- **A call** is an action on the heap. -/
theorem InOrder.step (hbase : base + memSize ≤ 2 ^ 32) (h : InOrder s) (hs : Uses μ base s op s') :
    InOrder s' ∧ Heap.Step 0 s.heap op s'.heap := by
  cases hs with
  | alloc hn hlt henough hroom hcall => exact h.alloc hbase hn hlt henough hroom hcall
  | free ha hlt hok hcall => exact h.free ha hlt hok hcall
  | put hin hn hlt hcall => exact h.put hin hn hlt hcall
  | get hin hn hlt hfull hcall => exact h.get hin hn hlt hfull hcall

/-! ## Runs -/

theorem InOrder.start : InOrder .start where
  sound := .inl rfl
  clean h0 := absurd rfl h0
  bare _ hnode := absurd hnode List.not_mem_nil

theorem InOrder.run {ops : List (HeapOp UInt8)} (hbase : base + memSize ≤ 2 ^ 32)
    (hrun : Run (Uses μ base) .start ops s) :
    InOrder s ∧ Run (Heap.Step 0) Heap.empty ops s.heap := by
  refine Run.history (I := fun ops s => InOrder s ∧ Run (Heap.Step 0) Heap.empty ops s.heap)
    ⟨.start, ?_⟩ ?_ hrun
  · rw [show Tracked.start.heap = Heap.empty from Heap.ofBlocks_nil]
    exact .nil
  · intro ops s op s' ⟨hs, hrun⟩ hstep
    obtain ⟨hs', hheap⟩ := hs.step hbase hstep
    exact ⟨hs', hrun.snoc hheap⟩

/-- **Shared pages make up a heap.** Every run of a program that keeps to its allocations is a run
of a heap with the same results, in which new allocations are zero. Its puts and gets are always
answered, and so are its frees. -/
theorem allocations_refine {ops : List (HeapOp UInt8)} (hbase : base + memSize ≤ 2 ^ 32)
    (hrun : Run (Uses μ base) .start ops s) :
    Run (Heap.Step 0) Heap.empty ops s.heap ∧
      (∀ va n val, Inside s.live va n → 1 ≤ n → n < 2 ^ 31 →
        ∃ s', Uses μ base s (.put va n val) s') ∧
      (∀ va n, Inside s.live va n → 1 ≤ n → n < 2 ^ 31 →
        (4096 < va % 4096 + n → Filled s.live ((va + n - 1) / 4096)) →
        ∃ buf s', Uses μ base s (.get va n buf) s') ∧
      ∀ a ∈ s.live, a.numBytes < pgSize → FreeOk s a →
        ∃ s', Uses μ base s (.free a.va a.numBytes) s' := by
  obtain ⟨hs, hheap⟩ := InOrder.run hbase hrun
  refine ⟨hheap, fun va n val hin hn hlt => ?_, fun va n hin hn hlt hfull => ?_,
    fun a ha hlt hok => ?_⟩
  · obtain ⟨a, ha, h1, h2⟩ := id hin
    obtain ⟨hinv, htlb, -⟩ := hs.inv ha
    obtain ⟨m, hcall, -⟩ := putValue_spec μ val (hinv.ready htlb)
      (hinv.byte_lt ha ⟨h1, by omega⟩) hn (putAllows_of_inside hinv hn hlt hin)
    exact ⟨_, .put hin hn hlt hcall⟩
  · obtain ⟨a, ha, h1, h2⟩ := id hin
    obtain ⟨hinv, htlb, -⟩ := hs.inv ha
    obtain ⟨T, buf, -, hcall, -⟩ := getValue_spec μ Bytes.zero (hinv.ready htlb)
      (hinv.byte_lt ha ⟨h1, by omega⟩) hn hlt (getAllows_of_inside hinv hn hlt hin hfull)
    exact ⟨buf, _, .get hin hn hlt hfull hcall⟩
  · obtain ⟨hinv, htlb, -⟩ := hs.inv ha
    have hsmall : Small s.live a (a.va / 4096) := ⟨ha, hlt, rfl⟩
    by_cases hother : ∃ b ∈ s.live.erase a, b.Meets (a.va / 4096)
    · exact ⟨_, .free ha hlt hok (tFree_shared hinv hsmall hother)⟩
    · obtain ⟨m, hcall, -⟩ := tFree_last hinv hsmall htlb hother
      exact ⟨_, .free ha hlt hok hcall⟩

/-- An allocation is written and freed, and the room behind it is handed out. -/
theorem allocations_refine_room : ∃ (s : Tracked) (val : Bytes), val 0 = 7 ∧
    s.live = [⟨100, 0⟩, ⟨50, 301⟩] ∧ Run (Heap.Step 0) Heap.empty [.alloc 0 100, .alloc 101 200,
      .put 101 200 val, .free 101 200, .alloc 301 50] s.heap := by
  have hfirst : EnoughMemory 4096 Vm.start 100 ∧ ¬ExactFit Vm.start 100 := by decide +kernel
  have hvalue : ((tMalloc 4096 Vm.start 100).bind fun r => (tMalloc 4096 r.1 200).bind fun r' =>
      (putValue (.bump _) ⟨r'.1, .empty⟩ 101 (fun _ => 7) 200).bind fun m =>
        (tFree m 101 200).bind fun m' => (tMalloc 4096 m'.toVm 50).map fun r'' =>
          ((r.2, r'.2, r''.2), decide (EnoughMemory 4096 r.1 200 ∧ ¬ExactFit r.1 200 ∧
            FreeOk ⟨m, [⟨100, 0⟩, ⟨200, 101⟩]⟩ ⟨200, 101⟩ ∧ EnoughMemory 4096 m'.toVm 50 ∧
            ¬ExactFit m'.toVm 50))) = some ((0, 101, 301), true) := by decide +kernel
  obtain ⟨⟨vm₁, va₁⟩, hcall₁, hvalue⟩ := Option.bind_eq_some_iff.1 hvalue
  obtain ⟨⟨vm₂, va₂⟩, hcall₂, hvalue⟩ := Option.bind_eq_some_iff.1 hvalue
  obtain ⟨m₃, hput, hvalue⟩ := Option.bind_eq_some_iff.1 hvalue
  obtain ⟨m₄, hfree, hvalue⟩ := Option.bind_eq_some_iff.1 hvalue
  obtain ⟨⟨vm₅, va₅⟩, hcall₅, hvalue⟩ := Option.map_eq_some_iff.1 hvalue
  simp only [Prod.mk.injEq, decide_eq_true_eq] at hvalue
  obtain ⟨⟨rfl, rfl, rfl⟩, henough₂, hroom₂, hok, henough₅, hroom₅⟩ := hvalue
  have hrun : Run (Uses (.bump _) 4096) .start [.alloc 0 100] ⟨⟨vm₁, .empty⟩, [⟨100, 0⟩]⟩ :=
    .single (.alloc (by decide) (by decide) hfirst.1 hfirst.2 hcall₁)
  have hrun := hrun.snoc (.alloc (by decide) (by decide) henough₂ hroom₂ hcall₂)
  have hrun := hrun.snoc (.put ⟨⟨200, 101⟩, by simp, le_rfl, le_rfl⟩ (by decide) (by decide) hput)
  have hrun := hrun.snoc (.free (a := ⟨200, 101⟩) (by simp) (by decide) hok hfree)
  have hrun := hrun.snoc (.alloc (by decide) (by decide) henough₅ hroom₅ hcall₅)
  exact ⟨_, fun _ => 7, rfl, rfl, (allocations_refine (by decide) hrun).1⟩

end UserOS.Fragment
