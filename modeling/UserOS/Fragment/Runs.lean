import UserOS.Fragment.Access
import UserOS.Fragment.Placement

/-!
# Runs of calls, and what the lists of allocations say

The calls of a run are `t_malloc`, `t_free`, `put_value` and `get_value`, and the allocations that
were not freed are counted along. As long as no `t_malloc` takes all the room that is left in a
page, every allocation starts a page or lies in one, and the lists say where the allocations are:

* `Inv`: an allocation that fills a page has no record in it, and the others have one in the page
  they end in. Records of freed allocations name the first byte of their page, which is in use.
* `Inv.allows_iff`: the test of a page finds out whether its part of the range lies in an
  allocation.
* `Inv.share`, `Inv.newRegion`: a new allocation keeps this, in a page with room or in new pages.
-/

namespace UserOS.Fragment

open Lib
open MyVm (Tlb TlbNode memSize isSet extractBits formVirtualAddress)

/-! ## Allocations and pages -/

/-- The range lies inside one allocation. -/
def Inside (live : List Allocation) (va n : ℕ) : Prop :=
  ∃ a ∈ live, a.va ≤ va ∧ va + n ≤ a.va + a.numBytes

namespace Allocation

/-- The allocation has bytes in page `p`. -/
def Meets (a : Allocation) (p : ℕ) : Prop :=
  a.va < 4096 * p + 4096 ∧ 4096 * p < a.va + a.numBytes

/-- The allocation takes all of page `p`. -/
def Fills (a : Allocation) (p : ℕ) : Prop :=
  a.va ≤ 4096 * p ∧ 4096 * p + 4096 ≤ a.va + a.numBytes

/-- The allocation ends in page `p`, where it takes a part. -/
def Shares (a : Allocation) (p : ℕ) : Prop :=
  a.numBytes % 4096 ≠ 0 ∧ a.va / 4096 + a.numBytes / 4096 = p

instance {a : Allocation} {p : ℕ} : Decidable (a.Meets p) := by
  unfold Meets
  infer_instance

instance {a : Allocation} {p : ℕ} : Decidable (a.Shares p) := by
  unfold Shares
  infer_instance

/-- The record of the allocation in the page that it shares. -/
def record (a : Allocation) : AllocNode := ⟨a.va % 4096, a.va % 4096 + a.numBytes % 4096 - 1, 0⟩

/-- The allocation starts a page, or lies in one. -/
structure Shaped (a : Allocation) : Prop where
  pos : 1 ≤ a.numBytes
  shape : a.va % 4096 = 0 ∨ a.va % 4096 + a.numBytes ≤ 4096

variable {a b : Allocation} {p q offset size : ℕ}

theorem Shaped.meets_iff (h : a.Shaped) : a.Meets p ↔ a.Fills p ∨ a.Shares p := by
  obtain ⟨hpos, hshape⟩ := h
  unfold Meets Fills Shares
  omega

theorem Shaped.shares_inside (h : a.Shaped) (hs : a.Shares p) :
    a.va / 4096 ≤ p ∧ a.va + a.numBytes = 4096 * p + a.va % 4096 + a.numBytes % 4096 ∧
      a.va % 4096 + a.numBytes % 4096 ≤ 4096 := by
  obtain ⟨hpos, hshape⟩ := h
  unfold Shares at hs
  omega

/-- The record takes in a range when the allocation does. -/
theorem Shaped.record_covers (h : a.Shaped) (hs : a.Shares p) (hsize : 0 < size)
    (hlt : offset + size ≤ 2 ^ 32) : a.record.covers offset size = true ↔
      a.va ≤ 4096 * p + offset ∧ 4096 * p + offset + size ≤ a.va + a.numBytes := by
  obtain ⟨hpos, hshape⟩ := h
  rw [AllocNode.covers_iff hsize hlt]
  unfold Shares at hs
  unfold record
  dsimp only
  omega

theorem not_fills_of_lt (h : a.numBytes < 4096) : ¬a.Fills q := by
  unfold Fills
  omega

/-- The allocation lies in page `p`, and does not take all of it. -/
structure PartOf (a : Allocation) (p : ℕ) : Prop where
  page : a.va / 4096 = p
  pos : 1 ≤ a.numBytes
  lt : a.numBytes < 4096
  fits : a.va % 4096 + a.numBytes ≤ 4096

namespace PartOf

theorem shaped (h : a.PartOf p) : a.Shaped := ⟨h.pos, .inr h.fits⟩

theorem shares_iff (h : a.PartOf p) : a.Shares q ↔ q = p := by
  obtain ⟨hpage, hpos, hlt, -⟩ := h
  unfold Shares
  omega

theorem meets_iff (h : a.PartOf p) : a.Meets q ↔ q = p :=
  h.shaped.meets_iff.trans ((or_iff_right (not_fills_of_lt h.lt)).trans h.shares_iff)

theorem record_eq (h : a.PartOf p) :
    a.record = ⟨a.va % 4096, a.va % 4096 + a.numBytes - 1, 0⟩ := by
  unfold record
  rw [Nat.mod_eq_of_lt h.lt]

end PartOf

end Allocation

/-! ## Calls -/

/-- There are pages and frames left, if the request needs them. -/
def EnoughMemory (base : ℕ) (vm : Vm) (numBytes : ℕ) : Prop :=
  ∀ vm₁ ∈ ensureMemory base vm,
    ¬(numBytes < pgSize ∧ checkPartialList vm₁.partialPages numBytes ≠ 0) →
    getNextAvail vm₁ (pagesRequired numBytes) ≠ none ∧
      findFreePhysicalPage vm₁ (pagesRequired numBytes) ≠ none

instance {base : ℕ} {vm : Vm} {numBytes : ℕ} : Decidable (EnoughMemory base vm numBytes) := by
  unfold EnoughMemory
  infer_instance

/-- The globals, with the allocations that were not freed. -/
structure Tracked where
  machine : Machine
  live : List Allocation

/-- The state before the first call. -/
def Tracked.start : Tracked := ⟨.start, []⟩

/-- The calls. -/
inductive Call
  | malloc (numBytes : ℕ)
  | free (a : Allocation)
  | put (va : ℕ) (val : Bytes) (size : ℕ)
  | get (va : ℕ) (val : Bytes) (size : ℕ)

/-- One call: a request with enough memory, a `t_free` of an allocation with its size, or a
transfer of one byte or more. A call that reads through a null pointer has no step. -/
inductive Step (μ : Malloc TlbNode) (base : ℕ) : Tracked → Call → Tracked → Prop
  | malloc {s : Tracked} {numBytes va : ℕ} {vm : Vm} :
    1 ≤ numBytes → numBytes < 2 ^ 32 → EnoughMemory base s.machine.toVm numBytes →
    tMalloc base s.machine.toVm numBytes = some (vm, va) →
    Step μ base s (.malloc numBytes)
      ⟨{ s.machine with toVm := vm }, s.live ++ [⟨numBytes, va⟩]⟩
  | free {s : Tracked} {a : Allocation} {m : Machine} :
    a ∈ s.live → tFree s.machine a.va a.numBytes = some m →
    Step μ base s (.free a) ⟨m, s.live.erase a⟩
  | put {s : Tracked} {va size : ℕ} {val : Bytes} {m : Machine} :
    va < 2 ^ 32 → 1 ≤ size → size < 2 ^ 31 → putValue μ s.machine va val size = some m →
    Step μ base s (.put va val size) ⟨m, s.live⟩
  | get {s : Tracked} {va size : ℕ} {val val' : Bytes} {m : Machine} :
    va < 2 ^ 32 → 1 ≤ size → size < 2 ^ 31 →
    getValue μ s.machine va val size = some (m, val') →
    Step μ base s (.get va val size) ⟨m, s.live⟩

/-! ## The invariant -/

/-- The pages, the lists and the allocations. -/
structure Inv (vm : Vm) (live : List Allocation) : Prop where
  frames : FramesOk vm
  virt : ∀ p < 2 ^ 20, isSet vm.virtBitmap p = true ↔ vm.entry p ≠ 0
  /-- Pages behind the first eight are used without gaps. -/
  dense : ∃ k, 8 ≤ k ∧ k ≤ 2 ^ 20 ∧ (∀ p, 8 ≤ p → p < k → vm.entry p ≠ 0) ∧
    ∀ p, k ≤ p → p < 2 ^ 20 → vm.entry p = 0
  shaped : ∀ a ∈ live, a.Shaped
  apart : live.Pairwise Apart
  pages : ∀ a ∈ live, ∀ p, a.Meets p → vm.Mapped p
  first : ∀ p, vm.Mapped p → Inside live (4096 * p) 1
  empty : ∀ p, vm.alloted p = [] ↔ ¬vm.Mapped p ∨ ∃ a ∈ live, a.Fills p
  record : ∀ a ∈ live, ∀ p, a.Shares p → a.record ∈ vm.alloted p
  known : ∀ p, ∀ e ∈ vm.alloted p, e = ⟨0, 0, 1⟩ ∨ ∃ a ∈ live, a.Shares p ∧ e = a.record
  distinct : (vm.partialPages.map PartialNode.baseVa).Nodup
  nodes : ∀ node ∈ vm.partialPages, ∃ p, node.baseVa = p * 4096 ∧ vm.alloted p ≠ [] ∧
    0 < node.spaceTaken ∧ node.spaceTaken < 4096 ∧ ∀ a ∈ live, a.Shares p →
      a.va % 4096 + a.numBytes % 4096 ≤ node.spaceTaken + 1

variable {μ : Malloc TlbNode} {base : ℕ} {vm vm' vm₁ : Vm} {m m' : Machine} {s t : Tracked}
  {live : List Allocation} {a b : Allocation} {node : PartialNode} {p q n va offset size : ℕ}

namespace Inv

/-- **Enough lists.** -/
theorem lt_numPages (h : Inv vm live) (hp : p < 2 ^ 20) (hne : vm.entry p ≠ 0) :
    p < numPages := by
  obtain ⟨k, hk, -, hdense, hfree⟩ := h.dense
  have hle := mapped_lt h.frames hdense
  have hlt : p < k := by
    by_contra hge
    exact hne (hfree p (by omega) hp)
  rw [numFrames_eq] at hle
  rw [numPages_eq]
  omega

theorem ready (h : Inv m.toVm live) (htlb : TlbAgrees m) : Ready m where
  frames := h.frames
  tlb := htlb
  listed _ hp hne := h.lt_numPages hp hne
  unlisted p _ hzero := (h.empty p).2 (.inl fun hmapped => hmapped.2 hzero)

/-- The bytes of an allocation lie in mapped pages. -/
theorem mapped_byte (h : Inv vm live) (ha : a ∈ live) (h1 : a.va ≤ va)
    (h2 : va < a.va + a.numBytes) : vm.Mapped (va / 4096) :=
  h.pages a ha _ ⟨by omega, by omega⟩

/-- **The test of a page.** It passes when an allocation takes all of the page, or takes in the
part of the range. -/
theorem allows_iff (h : Inv vm live) (hoff : offset < 4096) (hsize : 0 < size)
    (hlt : offset + size ≤ 2 ^ 32) : vm.Allows p (offset, size) ↔
      (∃ a ∈ live, a.Fills p) ∨ Inside live (4096 * p + offset) size ∧ offset + size ≤ 4096 := by
  constructor
  · intro ⟨hmapped, hlist⟩
    rcases hlist with hempty | ⟨e, he, hcovers⟩
    · rcases (h.empty p).1 hempty with hun | hfills
      · exact absurd hmapped hun
      · exact .inl hfills
    · rcases h.known p e he with rfl | ⟨a, ha, hshares, rfl⟩
      · rw [AllocNode.covers_iff hsize hlt] at hcovers
        dsimp only at hcovers
        obtain ⟨rfl, rfl⟩ : offset = 0 ∧ size = 1 := by omega
        exact .inr ⟨h.first p hmapped, by decide⟩
      · have hcovers := ((h.shaped a ha).record_covers hshares hsize hlt).1 hcovers
        have hends := (h.shaped a ha).shares_inside hshares
        exact .inr ⟨⟨a, ha, hcovers⟩, by omega⟩
  · rintro (⟨a, ha, hfills⟩ | ⟨⟨a, ha, h1, h2⟩, hend⟩)
    · have hmeets : a.Meets p := (h.shaped a ha).meets_iff.2 (.inl hfills)
      exact ⟨h.pages a ha p hmeets, .inl ((h.empty p).2 (.inr ⟨a, ha, hfills⟩))⟩
    · have hmeets : a.Meets p := ⟨by omega, by omega⟩
      refine ⟨h.pages a ha p hmeets, ?_⟩
      rcases (h.shaped a ha).meets_iff.1 hmeets with hfills | hshares
      · exact .inl ((h.empty p).2 (.inr ⟨a, ha, hfills⟩))
      · exact .inr ⟨_, h.record a ha p hshares,
          ((h.shaped a ha).record_covers hshares hsize hlt).2 ⟨h1, h2⟩⟩

/-- The same entries, bitmaps and lists. -/
theorem congr (h : Inv vm live) (hframes : FramesOk vm') (hvirt : vm'.virtBitmap = vm.virtBitmap)
    (hentry : ∀ p < 2 ^ 20, vm'.entry p = vm.entry p) (halloted : vm'.alloted = vm.alloted)
    (hnodes : vm'.partialPages = vm.partialPages) : Inv vm' live := by
  have hmapped : ∀ p, vm'.Mapped p ↔ vm.Mapped p := by
    intro p
    unfold Vm.Mapped
    exact and_congr_right fun hp => not_congr (by rw [show vm'.pte _ _ = _ from hentry p hp]; rfl)
  refine ⟨hframes, fun p hp => ?_, ?_, h.shaped, h.apart, fun a ha p hm => ?_, fun p hm => ?_,
    fun p => ?_, ?_, ?_, ?_, ?_⟩
  · rw [hvirt, hentry p hp, h.virt p hp]
  · obtain ⟨k, hk, hle, hdense, hfree⟩ := h.dense
    refine ⟨k, hk, hle, fun p h1 h2 => ?_, fun p h1 h2 => ?_⟩
    · rw [hentry p (by omega)]
      exact hdense p h1 h2
    · rw [hentry p h2]
      exact hfree p h1 h2
  · exact (hmapped p).2 (h.pages a ha p hm)
  · exact h.first p ((hmapped p).1 hm)
  · rw [halloted, hmapped, h.empty p]
  · rw [halloted]
    exact h.record
  · rw [halloted]
    exact h.known
  · rw [hnodes]
    exact h.distinct
  · rw [hnodes, halloted]
    exact h.nodes

/-! ## `t_malloc` -/

/-- A part of a page is apart from the allocations that end before it. -/
theorem apart_part (h : Inv vm live) (ha : a.PartOf p) (hlist : vm.alloted p ≠ [])
    (hbehind : ∀ b ∈ live, b.Shares p → b.va % 4096 + b.numBytes % 4096 ≤ a.va % 4096) :
    ∀ b ∈ live, Apart b a := by
  intro b hb
  have hpage := ha.page
  have hfits := ha.fits
  by_cases hmeets : b.Meets p
  · rcases (h.shaped b hb).meets_iff.1 hmeets with hfills | hshares
    · exact absurd ((h.empty p).2 (.inr ⟨b, hb, hfills⟩)) hlist
    · have hends := (h.shaped b hb).shares_inside hshares
      have hbound := hbehind b hb hshares
      exact .inl (by omega)
  · unfold Allocation.Meets at hmeets
    unfold Apart
    omega

theorem apart_append (h : live.Pairwise Apart) (hnew : ∀ b ∈ live, Apart b a) :
    (live ++ [a]).Pairwise Apart := by
  rw [List.pairwise_append]
  refine ⟨h, List.pairwise_singleton .., fun b hb c hc => ?_⟩
  obtain rfl := List.mem_singleton.1 hc
  exact hnew b hb

theorem shaped_append (h : Inv vm live) (ha : a.Shaped) : ∀ b ∈ live ++ [a], b.Shaped := by
  rw [List.forall_mem_append]
  exact ⟨h.shaped, List.forall_mem_singleton.2 ha⟩

theorem inside_append (h : Inside live va n) : Inside (live ++ [a]) va n := by
  obtain ⟨b, hb, hin⟩ := h
  exact ⟨b, List.mem_append_left _ hb, hin⟩

/-- The allocations of a page end where its node says, the new one too. -/
theorem behind_append {taken : ℕ}
    (h : ∀ b ∈ live, b.Shares q → b.va % 4096 + b.numBytes % 4096 ≤ taken + 1)
    (ha : a.Shares q → a.va % 4096 + a.numBytes % 4096 ≤ taken + 1) :
    ∀ b ∈ live ++ [a], b.Shares q → b.va % 4096 + b.numBytes % 4096 ≤ taken + 1 := by
  rw [List.forall_mem_append]
  exact ⟨h, List.forall_mem_singleton.2 ha⟩

/-- The lists of `vm'` are those of `vm`, with the record of `a` in the page that it shares. -/
def Recorded (vm vm' : Vm) (a : Allocation) : Prop :=
  ∀ q, vm'.alloted q = vm.alloted q ++ if a.Shares q then [a.record] else []

section Recorded

variable (hrec : Recorded vm vm' a)

include hrec

theorem recorded_ne (hq : vm.alloted q ≠ []) : vm'.alloted q ≠ [] := by
  rw [hrec q]
  simp [hq]

theorem recorded_record (h : Inv vm live) :
    ∀ b ∈ live ++ [a], ∀ q, b.Shares q → b.record ∈ vm'.alloted q := by
  rw [List.forall_mem_append]
  refine ⟨fun b hb q hbs => ?_, List.forall_mem_singleton.2 fun q hs => ?_⟩
  · rw [hrec q]
    exact List.mem_append_left _ (h.record b hb q hbs)
  · rw [hrec q, if_pos hs]
    exact List.mem_append_right _ (List.mem_singleton.2 rfl)

theorem recorded_known (h : Inv vm live) (q : ℕ) : ∀ e ∈ vm'.alloted q,
    e = ⟨0, 0, 1⟩ ∨ ∃ b ∈ live ++ [a], b.Shares q ∧ e = b.record := by
  intro e he
  rw [hrec q] at he
  rcases List.mem_append.1 he with he | he
  · rcases h.known q e he with hfreed | ⟨b, hb, hbs⟩
    · exact .inl hfreed
    · exact .inr ⟨b, List.mem_append_left _ hb, hbs⟩
  · split_ifs at he with hs
    · exact .inr ⟨a, List.mem_append_right _ (List.mem_singleton.2 rfl), hs,
        List.mem_singleton.1 he⟩
    · cases he

end Recorded

/-- The record of a part of a page is put behind the others. -/
theorem recorded_part (ha : a.PartOf p)
    (h : vm'.alloted = Function.update vm.alloted p (vm.alloted p ++ [a.record])) :
    Recorded vm vm' a := by
  intro q
  rw [h]
  by_cases hqp : q = p
  · rw [hqp, Function.update_self, if_pos (ha.shares_iff.2 rfl)]
  · rw [Function.update_of_ne hqp, if_neg (mt ha.shares_iff.1 hqp), List.append_nil]

/-- **A page with room** gets one allocation more. -/
theorem share (h : Inv vm live) (hpos : 1 ≤ n) (hfit : firstFit vm.partialPages n = some node)
    (hleft : node.room ≠ n) (hva : va = (node.baseVa + node.spaceTaken + 1) % 2 ^ 32) :
    Inv (updatePartialList (addAllocEntry vm va n) va n) (live ++ [⟨n, va⟩]) := by
  obtain ⟨hnode, hroom⟩ := firstFit_spec hfit
  obtain ⟨p, hbaseVa, hlist, htaken, hfull, hbehind⟩ := h.nodes node hnode
  rw [room_eq hfull] at hroom hleft
  have hmapped : vm.Mapped p := by
    by_contra hun
    exact hlist ((h.empty p).2 (.inl hun))
  have hp := hmapped.1
  -- The place of the new allocation in the page.
  have hplace : va = 4096 * p + node.spaceTaken + 1 := by omega
  have hpage : va / 4096 = p := by omega
  have hoffset : va % 4096 = node.spaceTaken + 1 := by omega
  have hpart : Allocation.PartOf ⟨n, va⟩ p :=
    ⟨hpage, hpos, show n < 4096 by omega, show va % 4096 + n ≤ 4096 by omega⟩
  have hapart : ∀ b ∈ live, Apart b ⟨n, va⟩ := h.apart_part hpart hlist (by rwa [hoffset])
  rw [addAllocEntry_eq (by omega) hpos (by omega), hpage, ← hpart.record_eq]
  unfold updatePartialList
  rw [formVirtualAddress_fields (by omega), hpage, ← hbaseVa]
  have hrec : ∀ nodes, Recorded vm { vm with
      alloted := Function.update vm.alloted p (vm.alloted p ++ [Allocation.record ⟨n, va⟩])
      partialPages := nodes } ⟨n, va⟩ := fun nodes => recorded_part hpart rfl
  refine ⟨h.frames.congr rfl rfl fun _ hset => hset, h.virt, h.dense, h.shaped_append hpart.shaped,
    apart_append h.apart hapart, ?_, fun q hq => inside_append (h.first q hq), fun q => ?_,
    recorded_record (hrec _) h, recorded_known (hrec _) h, map_updateNodes.nodup h.distinct,
    fun new hnew => ?_⟩
  · rw [List.forall_mem_append]
    exact ⟨h.pages, List.forall_mem_singleton.2 fun q hmeets => hpart.meets_iff.1 hmeets ▸ hmapped⟩
  · have hex : (∃ c ∈ live ++ [⟨n, va⟩], c.Fills q) ↔ ∃ c ∈ live, c.Fills q := by
      simp [or_and_right, exists_or, Allocation.not_fills_of_lt hpart.lt]
    change Function.update vm.alloted p _ q = [] ↔ ¬vm.Mapped q ∨ _
    rw [hex, ← h.empty q]
    by_cases hqp : q = p
    · rw [hqp, Function.update_self]
      simp [hlist]
    · rw [Function.update_of_ne hqp]
  · rcases mem_updateNodes h.distinct hnew with ⟨hold, hne⟩ | ⟨old, hold, heq, rfl⟩
    · obtain ⟨q, hbaseVa', hlist', htaken', hfull', hbehind'⟩ := h.nodes new hold
      have hqp : q ≠ p := fun hqp => hne (by rw [hbaseVa', hbaseVa, hqp])
      exact ⟨q, hbaseVa', recorded_ne (hrec _) hlist', htaken', hfull',
        behind_append hbehind' fun hs => absurd (hpart.shares_iff.1 hs) hqp⟩
    · obtain rfl := List.inj_on_of_nodup_map h.distinct hold hnode heq
      refine ⟨p, hbaseVa, recorded_ne (hrec _) hlist, ?_⟩
      dsimp only
      rw [Nat.mod_eq_of_lt (show old.spaceTaken + n < 2 ^ 32 by omega)]
      refine ⟨by omega, by omega, behind_append (fun c hc hcs => ?_) fun _ => ?_⟩
      · exact (hbehind c hc hcs).trans (by omega)
      · dsimp only
        omega

/-! ## A new region -/

theorem region_shaped (hpos : 1 ≤ n) : Allocation.Shaped ⟨n, p * 4096⟩ :=
  ⟨hpos, .inl (Nat.mul_mod_left ..)⟩

theorem region_meets (hn : (n + 4095) / 4096 = size) :
    Allocation.Meets ⟨n, p * 4096⟩ q ↔ p ≤ q ∧ q < p + size := by
  unfold Allocation.Meets
  dsimp only
  omega

/-- The region shares its last page if it does not fill it. -/
theorem region_shares (hn : (n + 4095) / 4096 = size) :
    Allocation.Shares ⟨n, p * 4096⟩ q ↔ n % 4096 ≠ 0 ∧ q = p + size - 1 := by
  unfold Allocation.Shares
  dsimp only
  omega

theorem region_fills (hn : (n + 4095) / 4096 = size) (h1 : p ≤ q) (h2 : q < p + size) :
    Allocation.Fills ⟨n, p * 4096⟩ q ↔ ¬Allocation.Shares ⟨n, p * 4096⟩ q := by
  unfold Allocation.Fills Allocation.Shares
  dsimp only
  omega

/-- The lists after a region was mapped. -/
theorem recorded_region (hn : (n + 4095) / 4096 = size)
    (hmap : RegionMapped vm vm' p size n) : Recorded vm vm' ⟨n, p * 4096⟩ := by
  intro q
  have hrecord : Allocation.record ⟨n, p * 4096⟩ = ⟨0, n % 4096 - 1, 0⟩ := by
    unfold Allocation.record
    dsimp only
    rw [Nat.mul_mod_left, Nat.zero_add]
  simp only [hmap.alloted, hrecord, region_shares hn]
  by_cases hfull : n % 4096 = 0
  · rw [if_pos hfull, if_neg fun hs => hs.1 hfull, List.append_nil]
  · rw [if_neg hfull]
    by_cases hq : q = p + size - 1
    · rw [if_pos ⟨hfull, hq⟩, hq, Function.update_self]
    · rw [if_neg fun hs => hq hs.2, Function.update_of_ne hq, List.append_nil]

theorem region_mapped (hfits : p + size ≤ 2 ^ 20) (hmap : RegionMapped vm vm' p size n) :
    vm'.Mapped q ↔ vm.Mapped q ∨ p ≤ q ∧ q < p + size := by
  by_cases hin : p ≤ q ∧ q < p + size
  · exact iff_of_true ⟨by omega, hmap.new q hin.1 hin.2⟩ (.inr hin)
  · simp only [hin, or_false]
    unfold Vm.Mapped
    exact and_congr_right fun hq =>
      not_congr (by rw [show vm'.pte _ _ = _ from hmap.old q hq (by omega)]; rfl)

section FreePages

variable (h : Inv vm live) (hrun : FreeRun vm.virtBitmap p size)

include h hrun

/-- Pages with clear bits are not mapped. -/
theorem entry_of_free (h1 : p ≤ q) (h2 : q < p + size) : vm.entry q = 0 := by
  have hfits := hrun.fits
  have hvirt := h.virt q (by omega)
  rw [hrun.free q h1 h2] at hvirt
  simpa using hvirt

theorem alloted_of_free (h1 : p ≤ q) (h2 : q < p + size) : vm.alloted q = [] :=
  (h.empty q).2 (.inl fun hm => hm.2 (h.entry_of_free hrun h1 h2))

/-- No allocation has bytes in them. -/
theorem not_meets_of_free (hb : b ∈ live) (hmeets : b.Meets q) : ¬(p ≤ q ∧ q < p + size) :=
  fun hin => (h.pages b hb q hmeets).2 (h.entry_of_free hrun hin.1 hin.2)

theorem not_fills_of_free (h1 : p ≤ q) (h2 : q < p + size) : ¬∃ b ∈ live, b.Fills q := by
  intro ⟨b, hb, hfills⟩
  have hmeets := (h.shaped b hb).meets_iff.2 (.inl hfills)
  exact h.not_meets_of_free hrun hb hmeets ⟨h1, h2⟩

variable (hmap : RegionMapped vm vm' p size n)

include hmap

/-- The run of free pages starts where the used pages end, or before. -/
theorem region_dense : ∃ k, 8 ≤ k ∧ k ≤ 2 ^ 20 ∧ (∀ q, 8 ≤ q → q < k → vm'.entry q ≠ 0) ∧
    ∀ q, k ≤ q → q < 2 ^ 20 → vm'.entry q = 0 := by
  have hfits := hrun.fits
  obtain ⟨k, hk, hle, hdense, hclear⟩ := h.dense
  have hpk : p ≤ k := by
    rcases hrun.behind with rfl | hbehind
    · exact Nat.zero_le k
    · by_contra hlt
      exact (h.virt (p - 1) (by omega)).1 hbehind (hclear (p - 1) (by omega) (by omega))
  refine ⟨max k (p + size), by omega, by omega, fun q h1 h2 => ?_, fun q h1 h2 => ?_⟩
  · by_cases hin : p ≤ q ∧ q < p + size
    · exact hmap.new q hin.1 hin.2
    · rw [hmap.old q (by omega) (by omega)]
      exact hdense q h1 (by omega)
  · rw [hmap.old q h2 (by omega)]
    exact hclear q (by omega) h2

omit hrun in
theorem region_virt (hq : q < 2 ^ 20) : isSet vm'.virtBitmap q = true ↔ vm'.entry q ≠ 0 := by
  rw [hmap.virt, Bool.or_eq_true, h.virt q hq, decide_eq_true_eq]
  by_cases hin : p ≤ q ∧ q < p + size
  · simp [hin, hmap.new q hin.1 hin.2]
  · simp [hin, hmap.old q hq (by omega)]

variable (hpos : 1 ≤ n) (hn : (n + 4095) / 4096 = size)

include hpos hn

omit hmap in
/-- An allocation that overlapped the region would have a byte in one of its pages. -/
theorem region_apart : ∀ b ∈ live, Apart b ⟨n, p * 4096⟩ := by
  intro b hb
  have hb0 := (h.shaped b hb).pos
  by_contra hnot
  have hx : b.Meets (max b.va (p * 4096) / 4096) ∧ p ≤ max b.va (p * 4096) / 4096 ∧
      max b.va (p * 4096) / 4096 < p + size := by
    unfold Apart at hnot
    unfold Allocation.Meets
    dsimp only at hnot
    omega
  exact h.not_meets_of_free hrun hb hx.1 hx.2

theorem region_empty : vm'.alloted q = [] ↔
    ¬vm'.Mapped q ∨ ∃ c ∈ live ++ [⟨n, p * 4096⟩], c.Fills q := by
  rw [recorded_region hn hmap q, region_mapped hrun.fits hmap]
  simp only [List.mem_append, List.mem_singleton, or_and_right, exists_or, exists_eq_left]
  by_cases hin : p ≤ q ∧ q < p + size
  · rw [h.alloted_of_free hrun hin.1 hin.2, region_fills hn hin.1 hin.2,
      or_iff_right (h.not_fills_of_free hrun hin.1 hin.2)]
    by_cases hs : Allocation.Shares ⟨n, p * 4096⟩ q <;> simp [hs, hin]
  · have hnot := mt (region_meets hn).1 hin
    rw [(region_shaped hpos).meets_iff, not_or] at hnot
    rw [if_neg hnot.2, List.append_nil, h.empty q]
    simp only [hin, or_false, hnot.1]

theorem region_distinct : (vm'.partialPages.map PartialNode.baseVa).Nodup := by
  rw [hmap.partialPages, List.map_append, List.nodup_append]
  refine ⟨h.distinct, ?_, fun x hx y hy => ?_⟩
  · split_ifs <;> simp
  · obtain ⟨node, hnode, rfl⟩ := List.mem_map.1 hx
    obtain ⟨q, hbaseVa, hlist, -⟩ := h.nodes node hnode
    split_ifs at hy with hfull
    · cases hy
    · obtain rfl := List.mem_singleton.1 hy
      dsimp only
      intro heq
      refine hlist (h.alloted_of_free hrun ?_ ?_) <;> omega

theorem region_nodes : ∀ node ∈ vm'.partialPages, ∃ q, node.baseVa = q * 4096 ∧
    vm'.alloted q ≠ [] ∧ 0 < node.spaceTaken ∧ node.spaceTaken < 4096 ∧
      ∀ b ∈ live ++ [⟨n, p * 4096⟩], b.Shares q →
        b.va % 4096 + b.numBytes % 4096 ≤ node.spaceTaken + 1 := by
  intro node hnode
  have hrec := recorded_region hn hmap
  rw [hmap.partialPages] at hnode
  rcases List.mem_append.1 hnode with hnode | hnode
  · obtain ⟨q, hbaseVa, hlist, htaken, hfull, hbehind⟩ := h.nodes node hnode
    refine ⟨q, hbaseVa, recorded_ne hrec hlist, htaken, hfull, behind_append hbehind fun hs => ?_⟩
    have hin := (region_meets hn).1 ((region_shaped hpos).meets_iff.2 (.inr hs))
    exact absurd (h.alloted_of_free hrun hin.1 hin.2) hlist
  · split_ifs at hnode with hfull
    · cases hnode
    · obtain rfl := List.mem_singleton.1 hnode
      have hs : Allocation.Shares ⟨n, p * 4096⟩ (p + size - 1) :=
        (region_shares hn).2 ⟨hfull, rfl⟩
      refine ⟨p + size - 1, rfl, ?_, by dsimp only; omega, by dsimp only; omega,
        behind_append (fun b hb hbs => ?_) fun _ => by dsimp only; omega⟩
      · rw [hrec _, if_pos hs]
        simp
      · exact absurd ⟨by omega, by omega⟩
          (h.not_meets_of_free hrun hb ((h.shaped b hb).meets_iff.2 (.inr hbs)))

/-- **A region of free pages** becomes an allocation. -/
theorem newRegion : Inv vm' (live ++ [⟨n, p * 4096⟩]) := by
  have hmapped := fun q => region_mapped (q := q) hrun.fits hmap
  refine ⟨hmap.frames, fun q hq => h.region_virt hmap hq, h.region_dense hrun hmap,
    h.shaped_append (region_shaped hpos), apart_append h.apart (h.region_apart hrun hpos hn), ?_,
    fun q hq => ?_, fun q => h.region_empty hrun hmap hpos hn,
    recorded_record (recorded_region hn hmap) h,
    recorded_known (recorded_region hn hmap) h, h.region_distinct hrun hmap hpos hn,
    h.region_nodes hrun hmap hpos hn⟩
  · rw [List.forall_mem_append]
    refine ⟨fun b hb q hbq => (hmapped q).2 (.inl (h.pages b hb q hbq)), ?_⟩
    exact List.forall_mem_singleton.2 fun q hq =>
      (hmapped q).2 (.inr ((region_meets hn).1 hq))
  · rcases (hmapped q).1 hq with hold | hin
    · exact inside_append (h.first q hold)
    · refine ⟨_, List.mem_append_right _ (List.mem_singleton.2 rfl), ?_⟩
      dsimp only
      omega

end FreePages

end Inv

/-- `t_malloc` shares a page, or maps pages. -/
theorem tMalloc_cases (henough : EnoughMemory base vm n)
    (h : tMalloc base vm n = some (vm', va)) : ∃ vm₁, ensureMemory base vm = some vm₁ ∧
      ((∃ node, firstFit vm₁.partialPages n = some node ∧
          va = (node.baseVa + node.spaceTaken + 1) % 2 ^ 32 ∧
          vm' = updatePartialList (addAllocEntry vm₁ va n) va n) ∨
        ∃ phy, getNextAvail vm₁ (pagesRequired n) = some va ∧ firstFreePage vm₁ = some phy ∧
          mapPages (pagesRequired n) vm₁ va phy n = some vm') := by
  unfold tMalloc at h
  obtain ⟨vm₁, hensure, h⟩ := Option.bind_eq_some_iff.1 h
  refine ⟨vm₁, hensure, ?_⟩
  dsimp only at h
  by_cases hshare : n < pgSize ∧ checkPartialList vm₁.partialPages n ≠ 0
  · rw [if_pos hshare.1, if_pos hshare.2, Option.some.injEq, Prod.mk.injEq] at h
    obtain ⟨rfl, hva⟩ := h
    cases hfit : firstFit vm₁.partialPages n with
    | none =>
      rw [checkPartialList, hfit] at hshare
      exact absurd rfl hshare.2
    | some node =>
      rw [hva]
      refine .inl ⟨node, rfl, ?_, rfl⟩
      rw [← hva, checkPartialList, hfit]
  · obtain ⟨hnext, hfind⟩ := henough vm₁ hensure hshare
    have hzero : ¬(if n < pgSize then checkPartialList vm₁.partialPages n else 0) ≠ 0 := by
      split_ifs with hsmall
      · exact fun hne => hshare ⟨hsmall, hne⟩
      · exact not_not.2 rfl
    obtain ⟨frames, hframes⟩ := Option.ne_none_iff_exists'.1 hfind
    obtain ⟨next, hnext⟩ := Option.ne_none_iff_exists'.1 hnext
    rw [if_neg hzero, hnext, hframes, Option.getD_some] at h
    obtain ⟨phy, hphy, h⟩ := Option.bind_eq_some_iff.1 h
    obtain ⟨vm₂, hmap, h⟩ := Option.bind_eq_some_iff.1 h
    cases h
    exact .inr ⟨phy, hnext, hphy, hmap⟩

/-- Nothing is allocated at the start. -/
theorem Fresh.inv (h : Fresh vm) : Inv vm [] where
  frames := h.frames
  virt p hp := by simp [h.virt p hp, h.entry p hp]
  dense := ⟨8, le_rfl, by decide, fun p h1 h2 => by omega, fun p _ hp => h.entry p hp⟩
  shaped := by simp
  apart := .nil
  pages := by simp
  first p hp := absurd (h.entry p hp.1) hp.2
  empty p := by
    simp only [h.alloted p, true_iff]
    exact .inl fun hp => hp.2 (h.entry p hp.1)
  record := by simp
  known p e he := by
    rw [h.alloted p] at he
    cases he
  distinct := by simp [h.partialPages]
  nodes := by simp [h.partialPages]

/-! ## Runs -/

/-- The memory is not set up yet, or in order. -/
def Sound (s : Tracked) : Prop :=
  s = .start ∨ Inv s.machine.toVm s.live ∧ TlbAgrees s.machine

/-- **A request** that leaves room in the page that it shares. -/
theorem Sound.malloc (hbase : base + memSize ≤ 2 ^ 32) (h : Sound s)
    (hroom : ¬ExactFit s.machine.toVm n) (hstep : Step μ base s (.malloc n) t) :
    Inv t.machine.toVm t.live ∧ TlbAgrees t.machine := by
  cases hstep with
  | @malloc _ va vm hpos hlt henough hcall =>
    obtain ⟨vm₁, hensure, hcases⟩ := tMalloc_cases henough hcall
    obtain ⟨hinv, htlb, hlist⟩ : Inv vm₁ s.live ∧
        TlbAgrees { s.machine with toVm := vm₁ } ∧ vm₁.partialPages = s.machine.partialPages := by
      unfold ensureMemory at hensure
      rcases h with rfl | ⟨hinv, htlb⟩
      · rw [if_pos (show Tracked.start.machine.memoryStart = 0 from rfl)] at hensure
        have hfresh := setPhysicalMem_fresh hbase hensure
        refine ⟨hfresh.inv, TlbAgrees.start.congr rfl fun p hp hne => ?_, hfresh.partialPages⟩
        exact absurd ⟨hp, hne⟩ not_mapped_start
      · rw [if_neg hinv.frames.start.ne'] at hensure
        cases hensure
        exact ⟨hinv, htlb, rfl⟩
    rcases hcases with ⟨node, hfit, hva, rfl⟩ | ⟨phy, hnext, hphy, hmap⟩
    · have hleft : node.room ≠ n := by
        intro heq
        refine hroom ?_
        rw [ExactFit, ← hlist, hfit, ← heq]
        rfl
      exact ⟨hinv.share hpos hfit hleft hva, htlb.congr rfl fun _ _ _ => rfl⟩
    · obtain ⟨p, hrun, rfl⟩ := getNextAvail_run hnext
      have hfits := hrun.fits
      have hsize : (n + 4095) / 4096 = pagesRequired n := rfl
      have hfree : ∀ q, p ≤ q → q < p + pagesRequired n → vm₁.entry q = 0 := fun q =>
        hinv.entry_of_free hrun
      have hregion := mapPages_spec hinv.frames (by omega) hfits hsize hfree hphy hmap
      refine ⟨hinv.newRegion hrun hregion hpos hsize, htlb.congr rfl fun q hq hne => ?_⟩
      exact hregion.old q hq (by
        by_contra hin
        exact hne (hfree q (by omega) (by omega)))

theorem Stored.inv {A : ℕ} {f : ℕ → UInt8} (h : Stored m m' A n f) (hinv : Inv m.toVm live) :
    Inv m'.toVm live := by
  obtain ⟨b, T, rfl⟩ := h.same
  exact hinv.congr h.frames rfl h.entry rfl rfl

/-- **A put** changes bytes of pages only, whether it is carried out or not. -/
theorem Sound.put {val : Bytes} (h : Sound s) (hstep : Step μ base s (.put va val size) t) :
    Sound t := by
  cases hstep with
  | @put _ _ _ m hva hpos hlt hcall =>
    rcases h with rfl | ⟨hinv, htlb⟩
    · cases hcall
      exact .inl rfl
    · have hready := hinv.ready htlb
      by_cases hallows : PutAllows s.machine.toVm va size
      · obtain ⟨m', hput, hstored⟩ := putValue_spec μ val hready hva hpos hallows
        cases hcall.symm.trans hput
        exact .inr ⟨hstored.inv hinv, hstored.tlb⟩
      · obtain ⟨⟨T, hT, hput⟩, -⟩ | ⟨-, -, hput⟩ := putValue_refused μ val hready hva hpos hallows
        · cases hcall.symm.trans hput
          exact .inr ⟨hinv, hT⟩
        · cases hcall.symm.trans hput

/-- **A get** changes the TLB only. -/
theorem Sound.get {val : Bytes} (h : Sound s) (hstep : Step μ base s (.get va val size) t) :
    Sound t := by
  cases hstep with
  | @get _ _ _ val' m hva hpos hlt hcall =>
    rcases h with rfl | ⟨hinv, htlb⟩
    · cases hcall
      exact .inl rfl
    · have hready := hinv.ready htlb
      by_cases hallows : GetAllows s.machine.toVm va size
      · obtain ⟨T, val', hT, hget, -⟩ := getValue_spec μ val hready hva hpos hlt hallows
        cases hcall.symm.trans hget
        exact .inr ⟨hinv, hT⟩
      · obtain ⟨T, hT, hget⟩ := getValue_refused μ val hready hva hpos hlt hallows
        cases hcall.symm.trans hget
        exact .inr ⟨hinv, hT⟩

/-! ## Runs that can be computed -/

/-- The state after some requests and frees, if they meet a condition. -/
def after (ok : Tracked → Call → Bool) (base : ℕ) : Tracked → List Call → Option Tracked
  | s, [] => some s
  | s, .malloc numBytes :: calls =>
    if 1 ≤ numBytes ∧ numBytes < 2 ^ 32 ∧ EnoughMemory base s.machine.toVm numBytes ∧
        ok s (.malloc numBytes) then
      (tMalloc base s.machine.toVm numBytes).bind fun r =>
        after ok base ⟨{ s.machine with toVm := r.1 }, s.live ++ [⟨numBytes, r.2⟩]⟩ calls
    else none
  | s, .free a :: calls =>
    if a ∈ s.live ∧ ok s (.free a) then
      (tFree s.machine a.va a.numBytes).bind fun m => after ok base ⟨m, s.live.erase a⟩ calls
    else none
  | _, .put .. :: _ => none
  | _, .get .. :: _ => none

theorem run_of_after {ok : Tracked → Call → Prop} [∀ s c, Decidable (ok s c)] {calls : List Call}
    (h : after (fun s c => decide (ok s c)) base s calls = some t) :
    Run (Guarded ok (Step μ base)) s calls t := by
  induction calls generalizing s with
  | nil =>
    cases h
    exact .nil
  | cons c calls ih =>
    cases c with
    | malloc numBytes =>
      rw [after] at h
      split at h
      next hok =>
        obtain ⟨⟨vm, va⟩, hcall, h⟩ := Option.bind_eq_some_iff.1 h
        obtain ⟨hpos, hlt, henough, hok⟩ := hok
        exact (Run.single ⟨of_decide_eq_true hok, .malloc hpos hlt henough hcall⟩).append (ih h)
      next => cases h
    | free a =>
      rw [after] at h
      split at h
      next hok =>
        obtain ⟨m, hcall, h⟩ := Option.bind_eq_some_iff.1 h
        exact (Run.single ⟨of_decide_eq_true hok.2, .free hok.1 hcall⟩).append (ih h)
      next => cases h
    | put va val size => cases h
    | get va val size => cases h

end UserOS.Fragment
