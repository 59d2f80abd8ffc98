import Mathlib.Data.List.Pairwise
import UserOS.Fragment.Ranges

/-!
# Freeing allocations of less than a page

`t_free` marks the record of the allocation as free and sets its bounds to 0. When all records of
the page are free, the list and the page go. A record with the bounds 0 still passes the test of
the first byte of the page, and `unset_bit_at_index` clears the first eight bits only.

* `freePage_spec`: what unmapping a page leaves alone.
* `Inv.freeShared`, `Inv.freeLast`: the lists after an allocation is freed.
* `frees_keep_rest`: what holds after every free that is not at the start of a page with other
  allocations, and that empties a page with a number below eight, if it empties one.
-/

namespace UserOS.Fragment

open Lib
open MyVm (TlbNode memSize pteSize isSet unsetBitAtIndex unsetBitAtIndex_bit deleteFromTlb
  deleteFromTlb_spec formVirtualAddress)

variable {μ : Malloc TlbNode} {base : ℕ} {vm vm' : Vm} {m m' : Machine} {s t : Tracked}
  {live : List Allocation} {calls : List Call} {a b : Allocation} {node : PartialNode}
  {l : List PartialNode} {p q n va offset size : ℕ}

theorem isSet_zero : isSet Bytes.zero n = false := by
  simp [isSet, bit, Bytes.zero]

/-! ## Unmapping a page -/

/-- The number of the frame of page `p`. -/
def Vm.frame (vm : Vm) (p : ℕ) : ℕ := (vm.entry p - vm.memoryStart) / pgSize

theorem FramesOk.frame_used (h : FramesOk vm) (hp : p < 2 ^ 20) (hne : vm.entry p ≠ 0) :
    isSet vm.phyBitmap (vm.frame p) = true := by
  obtain ⟨f, -, hf, hset⟩ := h.frames.used (Vm.owns_page hp hne)
  have hframe : vm.frame p = f := by
    unfold Vm.frame pgSize
    omega
  rwa [hframe]

/-- `m'` is `m` without page `p`. -/
structure PageFreed (m m' : Machine) (p : ℕ) : Prop where
  frames : FramesOk m'.toVm
  tlb : TlbAgrees m'
  same : ∃ b T v f, m' = { m with mem := b, tlb := T, virtBitmap := v, phyBitmap := f }
  entry : ∀ q < 2 ^ 20, m'.entry q = if q = p then 0 else m.entry q
  bytes : ∀ q < 2 ^ 20, q ≠ p → m.entry q ≠ 0 → ∀ k < 4096,
    m'.mem (m.entry q + k) = m.mem (m.entry q + k)
  virt : m'.virtBitmap = unsetBitAtIndex m.virtBitmap p
  phy : m'.phyBitmap = unsetBitAtIndex m.phyBitmap (m.frame p)

namespace PageFreed

theorem entry_of_ne (h : PageFreed m m' p) (hq : q < 2 ^ 20) (hqp : q ≠ p) :
    m'.entry q = m.entry q :=
  (h.entry q hq).trans (if_neg hqp)

theorem mapped_iff (h : PageFreed m m' p) : m'.Mapped q ↔ m.Mapped q ∧ q ≠ p := by
  unfold Vm.Mapped
  rw [and_assoc]
  refine and_congr_right fun hq => ?_
  rw [show m'.pte _ _ = _ from h.entry q hq]
  by_cases hqp : q = p
  · simp [hqp]
  · rw [if_neg hqp]
    exact (and_iff_left hqp).symm

/-- The virtual bytes of the other pages stay. -/
theorem byte (h : PageFreed m m' p) (hmapped : m.Mapped (va / 4096)) (hne : va / 4096 ≠ p) :
    m'.mem (m'.phys va) = m.mem (m.phys va) := by
  obtain ⟨hq, hq0⟩ := hmapped
  unfold Vm.phys
  rw [h.entry_of_ne hq hne]
  exact h.bytes _ hq hne hq0 _ (Nat.mod_lt _ (by decide))

end PageFreed

theorem pageIndex_fields : p / 1024 * layout.pageTableEntries + p % 1024 = p := by
  rw [layout_pageTableEntries]
  omega

theorem word_eq_entry (hpde : vm.pde (p / 1024) ≠ 0) :
    vm.word (vm.pde (p / 1024)) (p % 1024) = vm.entry p := (if_neg hpde).symm

/-- The stores that unmap a page: its frame is cleared, then its entry. -/
def Vm.clearPage (vm : Vm) (p : ℕ) : Vm :=
  Vm.storeEntry { vm with mem := vm.mem.fill (vm.entry p) pgSize 0 } p 0

/-- The entries and the bytes of the other pages stay. -/
theorem clearPage_spec (h : FramesOk vm) (hp : p < 2 ^ 20) (hne : vm.entry p ≠ 0) :
    (vm.clearPage p).owns = Function.update vm.owns (.page p) none ∧
      (vm.clearPage p).mem = (vm.mem.fill (vm.entry p) pgSize 0).setNat
        (vm.pde (p / 1024) + pteSize * (p % 1024)) pteSize 0 ∧
      (∀ q < 2 ^ 20, (vm.clearPage p).entry q = if q = p then 0 else vm.entry q) ∧
      ∀ q < 2 ^ 20, q ≠ p → vm.entry q ≠ 0 → ∀ k < 4096,
        (vm.clearPage p).mem (vm.entry q + k) = vm.mem (vm.entry q + k) := by
  have hpde := Vm.pde_of_entry hne
  have hout : ∀ x, x < vm.entry p ∨ vm.entry p + 4096 ≤ x →
      vm.mem.fill (vm.entry p) pgSize 0 x = vm.mem x := fun x hx =>
    Bytes.fill_of_outside (by unfold pgSize; omega)
  unfold Vm.clearPage
  generalize hmid : ({ vm with mem := vm.mem.fill (vm.entry p) pgSize 0 } : Vm) = mid
  have hmem : mid.mem = vm.mem.fill (vm.entry p) pgSize 0 := by rw [← hmid]
  obtain ⟨hpdes, hentries⟩ :
      (∀ d < 1024, mid.pde d = vm.pde d) ∧ ∀ q < 2 ^ 20, mid.entry q = vm.entry q := by
    refine h.store (by rw [← hmid]) fun x hx => ?_
    rw [hmem]
    exact hout x (hx p hp hne)
  have howns : mid.owns = vm.owns := Vm.owns_congr (by rw [← hmid]) hpdes hentries
  have hframes : FramesOk mid :=
    h.congr (by rw [← hmid]) howns fun f hset => by rw [← hmid]; exact hset
  have hmidPde : mid.pde (p / 1024) = vm.pde (p / 1024) := hpdes _ (by omega)
  obtain ⟨-, hentries', hbytes⟩ :=
    storeEntry_spec (v := 0) hframes hp (hmidPde.trans_ne hpde) (by decide)
  refine ⟨?_, ?_, fun q hq => ?_, fun q hq hqp hq0 k hk => ?_⟩
  · rw [storeEntry_owns (v := 0) hframes hp (hmidPde.trans_ne hpde) (by decide), if_pos rfl, howns]
  · unfold Vm.storeEntry
    rw [hmidPde, ← hmid]
  · rw [hentries' q hq, hentries q hq]
  · have hmidEntry : mid.entry q = vm.entry q := hentries q hq
    have hstored := hbytes q hq (hmidEntry.trans_ne hq0) k hk
    rw [hmidEntry] at hstored
    have hapart := h.entry_disjoint hq hq0 hp hne hqp
    rw [hstored, hmem]
    exact hout _ (by omega)

/-- The frames after a page is unmapped, and the bit of its frame cleared or not. -/
theorem clearPage_frames (h : FramesOk vm) (hp : p < 2 ^ 20) (hne : vm.entry p ≠ 0)
    (hstart : vm'.memoryStart = vm.memoryStart)
    (howns : vm'.owns = Function.update vm.owns (.page p) none)
    (hphy : vm'.phyBitmap = unsetBitAtIndex vm.phyBitmap (vm.frame p)) : FramesOk vm' := by
  have hsub : ∀ o r, vm'.owns o = some r → vm.owns o = some r ∧ o ≠ .page p := by
    intro o r ho
    rw [howns] at ho
    by_cases hop : o = .page p
    · rw [hop, Function.update_self] at ho
      cases ho
    · rw [Function.update_of_ne hop] at ho
      exact ⟨ho, hop⟩
  refine ⟨hstart ▸ h.start, hstart ▸ h.fits, h.frames.shrink (fun o r ho => (hsub o r ho).1) ?_⟩
  intro o r ho
  obtain ⟨hold, hop⟩ := hsub o r ho
  obtain ⟨f, hf, rfl, hset⟩ := h.frames.used hold
  have hapart := h.disjoint hold (Vm.owns_page hp hne) hop
  refine ⟨f, hf, by rw [hstart], ?_⟩
  have hfp : f ≠ vm.frame p := by
    obtain ⟨g, -, hg, -⟩ := h.frames.used (Vm.owns_page hp hne)
    unfold Vm.frame pgSize
    omega
  rw [hphy, unsetBitAtIndex_bit, hset]
  simp [hfp]

/-- **A page is unmapped.** -/
theorem freePage_spec (h : FramesOk m.toVm) (htlb : TlbAgrees m) (hp : p < 2 ^ 20)
    (hne : m.entry p ≠ 0) : ∃ m', freePage m (m.pde (p / 1024)) (p / 1024) (p % 1024) 0
      (m.frame p) = some m' ∧ PageFreed m m' p := by
  have hpde := Vm.pde_of_entry hne
  obtain ⟨hent, l, hl⟩ := htlb
  obtain ⟨T, l', hdel, hinv, hent'⟩ := deleteFromTlb_spec hl (p * 4096)
  obtain ⟨howns, hmem, hentry, hbytes⟩ := clearPage_spec h hp hne
  unfold freePage
  simp only [Nat.add_zero, word_eq_entry hpde, if_neg hne, formVirtualAddress_page hp, hdel,
    Option.bind_eq_bind, Option.bind_some, pageIndex_fields, ← hmem]
  refine ⟨_, rfl, ?_, ⟨hent'.trans hent, l', hinv.mono fun v pa hcached => ?_⟩, ⟨_, _, _, _, rfl⟩,
    hentry, hbytes, rfl, rfl⟩
  · exact clearPage_frames h hp hne rfl howns rfl
  · obtain ⟨⟨q, hq, hv, hpa, heq⟩, hva⟩ := hcached
    have hqp : q ≠ p := fun hqp => hva (by rw [hv, hqp])
    exact ⟨q, hq, hv, hpa, by rw [← heq]; exact (hentry q hq).trans (if_neg hqp)⟩

/-! ## The lists -/

theorem deleteNodes_of_forall_ne {unlinked : Bool} (h : ∀ node ∈ l, node.baseVa ≠ va) :
    deleteNodes va unlinked l = l := by
  induction l generalizing unlinked with
  | nil => rfl
  | cons temp rest ih =>
    rw [List.forall_mem_cons] at h
    rw [deleteNodes, if_neg fun hh => h.1 hh.1, ih h.2]

/-- The node of the page goes. -/
theorem deleteNodes_eq_filter (h : (l.map PartialNode.baseVa).Nodup) :
    deleteNodes va false l = l.filter fun node => node.baseVa ≠ va := by
  induction l with
  | nil => rfl
  | cons temp rest ih =>
    rw [List.map_cons, List.nodup_cons] at h
    rw [deleteNodes]
    by_cases htemp : temp.baseVa = va
    · have hrest : ∀ node ∈ rest, node.baseVa ≠ va := by
        intro node hnode heq
        exact h.1 (List.mem_map.2 ⟨node, hnode, heq.trans htemp.symm⟩)
      rw [if_pos ⟨htemp, rfl⟩, deleteNodes_of_forall_ne hrest,
        List.filter_cons_of_neg (by simpa using htemp)]
      exact (List.filter_eq_self.2 fun node hnode => by simpa using hrest node hnode).symm
    · rw [if_neg fun hh => htemp hh.1, ih h.2, List.filter_cons_of_pos (by simpa using htemp)]

/-- A live allocation of less than a page, and the page it lies in. -/
structure Small (live : List Allocation) (a : Allocation) (p : ℕ) : Prop where
  mem : a ∈ live
  lt : a.numBytes < 4096
  page : a.va / 4096 = p

namespace Small

theorem partOf (hs : Small live a p) (h : Inv vm live) : a.PartOf p := by
  obtain ⟨hpos, hshape⟩ := h.shaped a hs.mem
  have hlt := hs.lt
  exact ⟨hs.page, hpos, hlt, by omega⟩

theorem shares (hs : Small live a p) (h : Inv vm live) : a.Shares p :=
  (hs.partOf h).shares_iff.2 rfl

theorem ends (hs : Small live a p) (h : Inv vm live) :
    a.va = 4096 * p + a.va % 4096 ∧ a.va % 4096 + a.numBytes ≤ 4096 ∧ 1 ≤ a.numBytes := by
  obtain ⟨hpage, hpos, -, hfits⟩ := hs.partOf h
  omega

/-- The allocation has bytes in one page. -/
theorem meets_iff (hs : Small live a p) (h : Inv vm live) : a.Meets q ↔ q = p :=
  (hs.partOf h).meets_iff

theorem mapped (hs : Small live a p) (h : Inv vm live) : vm.Mapped p :=
  h.pages a hs.mem p ((hs.meets_iff h).2 rfl)

theorem entry_ne (hs : Small live a p) (h : Inv vm live) : p < 2 ^ 20 ∧ vm.entry p ≠ 0 :=
  hs.mapped h

theorem alloted_ne (hs : Small live a p) (h : Inv vm live) : vm.alloted p ≠ [] :=
  List.ne_nil_of_mem (h.record a hs.mem p (hs.shares h))

end Small

theorem Inv.nodup (h : Inv vm live) : live.Nodup := by
  refine h.apart.imp_of_mem fun {b c} hb _ hbc heq => ?_
  have hpos := (h.shaped b hb).pos
  subst heq
  unfold Apart at hbc
  omega

theorem Inv.mem_erase (h : Inv vm live) : b ∈ live.erase a ↔ b ≠ a ∧ b ∈ live :=
  h.nodup.mem_erase_iff

instance : Std.Symm Apart := ⟨fun _ _ => Or.symm⟩

theorem Inv.apart_of_ne (h : Inv vm live) (ha : a ∈ live) (hb : b ∈ live) (hne : b ≠ a) :
    Apart b a :=
  h.apart.forall hb ha hne

/-- The record of an allocation takes in the range of no other one. -/
theorem Inv.covers_iff (h : Inv vm live) (hs : Small live a p) (hb : b ∈ live)
    (hbs : b.Shares p) : b.record.covers (a.va % 4096) a.numBytes = true ↔ b = a := by
  obtain ⟨hva, hend, hpos⟩ := hs.ends h
  rw [(h.shaped b hb).record_covers hbs hpos (by omega), ← hva]
  constructor
  · intro hin
    by_contra hne
    have hapart := h.apart_of_ne hs.mem hb hne
    unfold Apart at hapart
    omega
  · rintro rfl
    exact ⟨le_rfl, le_rfl⟩

/-- What the loop of `free_part_page` makes of the record of an allocation. -/
theorem Inv.release_record (h : Inv vm live) (hs : Small live a p) (hb : b ∈ live)
    (hbs : b.Shares p) : b.record.release (a.va % 4096) a.numBytes =
      if b = a then ⟨0, 0, 1⟩ else b.record :=
  if_congr (h.covers_iff hs hb hbs) rfl rfl

/-- The record of an allocation that was freed stays as it is. -/
theorem release_freed : AllocNode.release offset size ⟨0, 0, 1⟩ = ⟨0, 0, 1⟩ := by
  unfold AllocNode.release
  exact ite_self _

/-- What is in the list of the page after the loop of `free_part_page`. -/
theorem Inv.mem_release (h : Inv vm live) (hs : Small live a p) {e : AllocNode} :
    e ∈ (vm.alloted p).map (AllocNode.release (a.va % 4096) a.numBytes) →
      e = ⟨0, 0, 1⟩ ∨ ∃ b ∈ live.erase a, b.Shares p ∧ e = b.record := by
  intro he
  obtain ⟨old, hold, rfl⟩ := List.mem_map.1 he
  rcases h.known p old hold with rfl | ⟨b, hb, hbs, rfl⟩
  · exact .inl release_freed
  · rw [h.release_record hs hb hbs]
    split_ifs with hba
    · exact .inl rfl
    · exact .inr ⟨b, h.mem_erase.2 ⟨hba, hb⟩, hbs, rfl⟩

theorem Inv.record_mem_release (h : Inv vm live) (hs : Small live a p) (hb : b ∈ live.erase a)
    (hbs : b.Shares p) :
    b.record ∈ (vm.alloted p).map (AllocNode.release (a.va % 4096) a.numBytes) := by
  obtain ⟨hne, hb⟩ := h.mem_erase.1 hb
  refine List.mem_map.2 ⟨b.record, h.record b hb p hbs, ?_⟩
  rw [h.release_record hs hb hbs, if_neg hne]

/-- Another allocation in the page has a part of it. -/
theorem Inv.shares_of_meets (h : Inv vm live) (hs : Small live a p) (hb : b ∈ live)
    (hmeets : b.Meets p) : b.Shares p :=
  ((h.shaped b hb).meets_iff.1 hmeets).resolve_left fun hfills =>
    hs.alloted_ne h ((h.empty p).2 (.inr ⟨b, hb, hfills⟩))

/-! ## The allocations that are left -/

theorem Inside.erase (h : Inv vm live) (hin : Inside live va n)
    (hnot : ¬(a.va ≤ va ∧ va + n ≤ a.va + a.numBytes)) : Inside (live.erase a) va n := by
  obtain ⟨b, hb, hbounds⟩ := hin
  exact ⟨b, h.mem_erase.2 ⟨fun hba => hnot (hba ▸ hbounds), hb⟩, hbounds⟩

/-- An allocation of less than a page fills none. -/
theorem Inv.fills_erase (h : Inv vm live) (hs : Small live a p) :
    (∃ b ∈ live.erase a, b.Fills q) ↔ ∃ b ∈ live, b.Fills q := by
  constructor
  · intro ⟨b, hb, hfills⟩
    exact ⟨b, (h.mem_erase.1 hb).2, hfills⟩
  · intro ⟨b, hb, hfills⟩
    have hba : b ≠ a := fun hba => Allocation.not_fills_of_lt hs.lt (hba ▸ hfills)
    exact ⟨b, h.mem_erase.2 ⟨hba, hb⟩, hfills⟩

/-- The records in the other pages are not the one of the allocation. -/
theorem Inv.known_erase (h : Inv vm live) (hs : Small live a p) (hqp : q ≠ p) {e : AllocNode}
    (he : e ∈ vm.alloted q) :
    e = ⟨0, 0, 1⟩ ∨ ∃ b ∈ live.erase a, b.Shares q ∧ e = b.record := by
  rcases h.known q e he with hfreed | ⟨b, hb, hbs, heq⟩
  · exact .inl hfreed
  · have hba : b ≠ a := by
      rintro rfl
      exact hqp ((hs.meets_iff h).1 ((h.shaped b hb).meets_iff.2 (.inr hbs)))
    exact .inr ⟨b, h.mem_erase.2 ⟨hba, hb⟩, hbs, heq⟩

/-- The globals after `free_part_page` has marked the record of the allocation in page `p`. -/
def Vm.markFreed (vm : Vm) (a : Allocation) (p : ℕ) : Vm :=
  { vm with
    alloted := Function.update vm.alloted p
      ((vm.alloted p).map (AllocNode.release (a.va % 4096) a.numBytes)) }

/-- **Others are left in the page.** The allocation is not the one at its start. -/
theorem Inv.freeShared (h : Inv vm live) (hs : Small live a p)
    (hother : ∃ b ∈ live.erase a, b.Meets p) (hoff : a.va % 4096 ≠ 0) :
    Inv (vm.markFreed a p) (live.erase a) := by
  have hlive : ∀ b ∈ live.erase a, b ∈ live := fun b hb => (h.mem_erase.1 hb).2
  have hkept : (vm.alloted p).map (AllocNode.release (a.va % 4096) a.numBytes) ≠ [] := by
    simpa using hs.alloted_ne h
  have hends := hs.ends h
  refine ⟨h.frames.congr rfl rfl fun _ hset => hset, h.virt, h.dense,
    fun b hb => h.shaped b (hlive b hb), h.apart.sublist List.erase_sublist,
    fun b hb => h.pages b (hlive b hb), fun q hq => ?_, fun q => ?_, fun b hb q hbs => ?_,
    fun q e he => ?_, h.distinct, fun node hnode => ?_⟩
  · exact (h.first q hq).erase h (by omega)
  · change Function.update vm.alloted p _ q = [] ↔ ¬vm.Mapped q ∨ _
    rw [h.fills_erase hs, ← h.empty q]
    by_cases hqp : q = p
    · rw [hqp, Function.update_self]
      exact iff_of_false hkept (hs.alloted_ne h)
    · rw [Function.update_of_ne hqp]
  · change b.record ∈ Function.update vm.alloted p _ q
    by_cases hqp : q = p
    · subst hqp
      rw [Function.update_self]
      exact h.record_mem_release hs hb hbs
    · rw [Function.update_of_ne hqp]
      exact h.record b (hlive b hb) q hbs
  · change e ∈ Function.update vm.alloted p _ q at he
    by_cases hqp : q = p
    · subst hqp
      rw [Function.update_self] at he
      exact h.mem_release hs he
    · rw [Function.update_of_ne hqp] at he
      exact h.known_erase hs hqp he
  · obtain ⟨q, hbaseVa, hlist, htaken, hfull, hbehind⟩ := h.nodes node hnode
    refine ⟨q, hbaseVa, ?_, htaken, hfull, fun b hb => hbehind b (hlive b hb)⟩
    change Function.update vm.alloted p _ q ≠ []
    by_cases hqp : q = p
    · rwa [hqp, Function.update_self]
    · rwa [Function.update_of_ne hqp]

/-- The globals after `free_part_page` has freed the list of page `p`. -/
def Vm.dropList (vm : Vm) (p : ℕ) : Vm :=
  deletePartialNode { vm with alloted := Function.update vm.alloted p [] } (p * 4096)

/-- **None is left in the page.** The bit of the page is one that is cleared. -/
theorem Inv.freeLast (h : Inv m.toVm live) (hs : Small live a p)
    (hlast : ¬∃ b ∈ live.erase a, b.Meets p) (hp : p < 8)
    (hfreed : PageFreed { m with toVm := m.dropList p } m' p) : Inv m'.toVm (live.erase a) := by
  have hlive : ∀ b ∈ live.erase a, b ∈ live := fun b hb => (h.mem_erase.1 hb).2
  have hends := hs.ends h
  obtain ⟨b, T, v, f, hsame⟩ := hfreed.same
  have halloted : m'.alloted = Function.update m.alloted p [] := by rw [hsame]; rfl
  have hnodes : m'.partialPages = m.partialPages.filter fun node => node.baseVa ≠ p * 4096 := by
    rw [hsame]
    exact deleteNodes_eq_filter h.distinct
  have hentry : ∀ q < 2 ^ 20, m'.entry q = if q = p then 0 else m.entry q := hfreed.entry
  have hmapped : ∀ q, m'.Mapped q ↔ m.Mapped q ∧ q ≠ p := fun q => hfreed.mapped_iff
  refine ⟨hfreed.frames, fun q hq => ?_, ?_, fun b hb => h.shaped b (hlive b hb),
    h.apart.sublist List.erase_sublist, fun b hb q hbq => ?_, fun q hq => ?_, fun q => ?_,
    fun b hb q hbs => ?_, fun q e he => ?_, ?_, fun node hnode => ?_⟩
  · rw [hfreed.virt, unsetBitAtIndex_bit, hentry q hq]
    have hvirt : isSet (m.dropList p).virtBitmap q = true ↔ m.entry q ≠ 0 := h.virt q hq
    by_cases hqp : q = p
    · simp [hqp, hp]
    · simpa [hqp] using hvirt
  · obtain ⟨k, hk, hle, hdense, hclear⟩ := h.dense
    refine ⟨k, hk, hle, fun q h1 h2 => ?_, fun q h1 h2 => ?_⟩
    · rw [hentry q (by omega), if_neg (by omega)]
      exact hdense q h1 h2
    · rw [hentry q h2, if_neg (by omega)]
      exact hclear q h1 h2
  · refine (hmapped q).2 ⟨h.pages b (hlive b hb) q hbq, ?_⟩
    rintro rfl
    exact hlast ⟨b, hb, hbq⟩
  · obtain ⟨hold, hqp⟩ := (hmapped q).1 hq
    exact (h.first q hold).erase h (by omega)
  · rw [halloted, hmapped, h.fills_erase hs]
    by_cases hqp : q = p
    · simp [hqp]
    · rw [Function.update_of_ne hqp, h.empty q]
      simp [hqp]
  · have hqp : q ≠ p := by
      rintro rfl
      exact hlast ⟨b, hb, (h.shaped b (hlive b hb)).meets_iff.2 (.inr hbs)⟩
    rw [halloted, Function.update_of_ne hqp]
    exact h.record b (hlive b hb) q hbs
  · rw [halloted] at he
    by_cases hqp : q = p
    · subst hqp
      rw [Function.update_self] at he
      cases he
    · rw [Function.update_of_ne hqp] at he
      exact h.known_erase hs hqp he
  · rw [hnodes]
    exact h.distinct.sublist (List.filter_sublist.map _)
  · rw [hnodes, List.mem_filter, decide_eq_true_eq] at hnode
    obtain ⟨q, hbaseVa, hlist, htaken, hfull, hbehind⟩ := h.nodes node hnode.1
    refine ⟨q, hbaseVa, ?_, htaken, hfull, fun b hb => hbehind b (hlive b hb)⟩
    have hqp : q ≠ p := fun hqp => hnode.2 (by rw [hbaseVa, hqp])
    rwa [halloted, Function.update_of_ne hqp]

/-! ## `t_free` -/

theorem freeCheck_done {fuel d pageTable i : ℕ} {size : ℤ} (h : size ≤ 0) :
    freeCheck vm pageTable d n fuel i offset size = some true := by
  cases fuel <;> exact if_pos h

theorem freeLoop_done {fuel d pageTable i phy : ℕ} {size : ℤ} (h : size ≤ 0) :
    freeLoop pageTable d n phy fuel m i offset size = some m := by
  cases fuel <;> exact if_pos h

section Small

variable (h : Inv vm live) (hs : Small live a p)

include h hs

/-- The range of an allocation passes the check. -/
theorem freeCheck_spec : freeCheck vm (vm.pde (p / 1024)) (p / 1024) (p % 1024) a.numBytes 0
    (a.va % 4096) a.numBytes = some true := by
  obtain ⟨hva, hend, hpos⟩ := hs.ends h
  obtain ⟨hp, hne⟩ := hs.entry_ne h
  have hlist := h.lt_numPages hp hne
  obtain ⟨b, hvalid, hb⟩ := isPartPageValid_eq vm (a.va % 4096) a.numBytes hlist
  obtain rfl : b = true := hb.2 (.inr ⟨_, h.record a hs.mem p (hs.shares h),
    (h.covers_iff hs hs.mem (hs.shares h)).2 rfl⟩)
  obtain ⟨fuel, hfuel⟩ := Nat.exists_eq_add_of_le' hpos
  rw [hfuel, freeCheck, ← hfuel, if_neg (by omega)]
  simp only [Nat.add_zero, word_eq_entry (Vm.pde_of_entry hne), pageIndex_fields,
    unsignedLong_natCast (show a.numBytes < 2 ^ 32 by omega)]
  rw [if_neg hne, hvalid]
  exact freeCheck_done (left_le_zero hend)

/-- Others keep the list. -/
theorem freePartPage_shared (hother : ∃ b ∈ live.erase a, b.Meets p) :
    freePartPage vm (p / 1024) (p % 1024) (a.va % 4096) a.numBytes =
      some (vm.markFreed a p, false) := by
  obtain ⟨hp, hne⟩ := hs.entry_ne h
  have hlist := h.lt_numPages hp hne
  obtain ⟨b, hb, hmeets⟩ := hother
  have hrecord := h.record_mem_release hs hb
    (h.shares_of_meets hs (h.mem_erase.1 hb).2 hmeets)
  unfold freePartPage
  rw [pageIndex_fields]
  dsimp only
  rw [if_neg (by omega), if_neg (by simpa using hs.alloted_ne h), if_neg]
  · rfl
  · intro hall
    have hfree := List.all_eq_true.1 hall _ hrecord
    simp [Allocation.record] at hfree

/-- When no other is left the list goes, with the node of the page. -/
theorem freePartPage_last (hlast : ¬∃ b ∈ live.erase a, b.Meets p) :
    freePartPage vm (p / 1024) (p % 1024) (a.va % 4096) a.numBytes =
      some (vm.dropList p, true) := by
  obtain ⟨hp, hne⟩ := hs.entry_ne h
  have hlist := h.lt_numPages hp hne
  unfold freePartPage
  rw [pageIndex_fields, formVirtualAddress_page hp]
  dsimp only
  rw [if_neg (by omega), if_neg (by simpa using hs.alloted_ne h), if_pos]
  · rfl
  · refine List.all_eq_true.2 fun e he => ?_
    rcases h.mem_release hs he with rfl | ⟨b, hb, hbs, -⟩
    · rfl
    · exact absurd ⟨b, hb, (h.shaped b (h.mem_erase.1 hb).2).meets_iff.2 (.inr hbs)⟩ hlast

end Small

/-- The loop of `t_free` for an allocation in one page. -/
theorem freeLoop_spec {d pageTable phy : ℕ} (h : Inv m.toVm live) (hs : Small live a p) :
    freeLoop pageTable d n phy a.numBytes m 0 (a.va % 4096) a.numBytes =
      (freePartPage m.toVm d n (a.va % 4096) a.numBytes).bind fun r =>
        if r.2 then freePage { m with toVm := r.1 } pageTable d n 0 phy
        else some { m with toVm := r.1 } := by
  obtain ⟨hva, hend, hpos⟩ := hs.ends h
  obtain ⟨fuel, hfuel⟩ := Nat.exists_eq_add_of_le' hpos
  rw [hfuel, freeLoop, ← hfuel, if_neg (by omega), unsignedLong_natCast (by omega), Nat.add_zero]
  cases freePartPage m.toVm d n (a.va % 4096) a.numBytes with
  | none => rfl
  | some r =>
    obtain ⟨vm, pageFree⟩ := r
    cases pageFree with
    | false => exact freeLoop_done (left_le_zero hend)
    | true =>
      simp only [Option.bind_eq_bind, Option.bind_some, if_true]
      cases freePage { m with toVm := vm } pageTable d n 0 phy with
      | none => rfl
      | some m₁ => exact freeLoop_done (left_le_zero hend)

section Free

variable (h : Inv m.toVm live) (hs : Small live a p)

include h hs

theorem tFree_eq : tFree m a.va a.numBytes =
    (freePartPage m.toVm (p / 1024) (p % 1024) (a.va % 4096) a.numBytes).bind fun r =>
      if r.2 then freePage { m with toVm := r.1 } (m.pde (p / 1024)) (p / 1024) (p % 1024) 0
        (m.frame p)
      else some { m with toVm := r.1 } := by
  obtain ⟨hva, hend, hpos⟩ := hs.ends h
  obtain ⟨hp, hne⟩ := hs.entry_ne h
  have hpde := Vm.pde_of_entry hne
  have hdir : dirIndex a.va = p / 1024 := by
    rw [dirIndex_eq]
    omega
  have htable : tableIndex a.va = p % 1024 := by
    rw [tableIndex_eq]
    omega
  unfold tFree
  rw [hdir, htable, pageOffset_eq]
  dsimp only
  rw [if_neg h.frames.start.ne', if_neg hpde, Int.toNat_natCast, freeCheck_spec h hs,
    word_eq_entry hpde]
  exact freeLoop_spec h hs

/-- **`t_free`** of an allocation with others in its page. -/
theorem tFree_shared (hother : ∃ b ∈ live.erase a, b.Meets p) :
    tFree m a.va a.numBytes = some { m with toVm := m.markFreed a p } := by
  rw [tFree_eq h hs, freePartPage_shared h hs hother]
  rfl

/-- **`t_free`** of the last allocation in its page. -/
theorem tFree_last (htlb : TlbAgrees m) (hlast : ¬∃ b ∈ live.erase a, b.Meets p) :
    ∃ m', tFree m a.va a.numBytes = some m' ∧
      PageFreed { m with toVm := m.dropList p } m' p := by
  obtain ⟨hp, hne⟩ := hs.entry_ne h
  have hframes : FramesOk (m.dropList p) := h.frames.congr rfl rfl fun _ hset => hset
  have htlb' : TlbAgrees { m with toVm := m.dropList p } := htlb.congr rfl fun _ _ _ => rfl
  rw [tFree_eq h hs, freePartPage_last h hs hlast]
  exact freePage_spec (m := { m with toVm := m.dropList p }) hframes htlb' hp hne

end Free

/-! ## After a free -/

/-- No byte is transferred: a get leaves the buffer, and a put that returns leaves the memory. -/
structure Spares (μ : Malloc TlbNode) (m : Machine) (va n : ℕ) : Prop where
  put : ∀ val m', putValue μ m va val n = some m' → m'.mem = m.mem
  get : ∀ buf, ∃ m', getValue μ m va buf n = some (m', buf) ∧ m'.mem = m.mem

/-- The transfers, the pages and the bitmaps agree with the allocations. -/
structure Agrees (μ : Malloc TlbNode) (s : Tracked) : Prop where
  inside : ∀ va n, va < 2 ^ 32 → 1 ≤ n → n < 2 ^ 31 → Inside s.live va n →
    Transfers μ s.machine va n
  outside : ∀ va n, va < 2 ^ 32 → 1 ≤ n → n < 2 ^ 31 → ¬Inside s.live va n →
    Spares μ s.machine va n
  pages : ∀ p, s.machine.Mapped p ↔ ∃ b ∈ s.live, b.Meets p
  virt : ∀ p < 2 ^ 20, isSet s.machine.virtBitmap p = true ↔ s.machine.Mapped p
  phy : ∀ p, s.machine.Mapped p → isSet s.machine.phyBitmap (s.machine.frame p) = true

/-- What a free of `a` leaves: the bytes of the other allocations, and the page of `a` exactly when
there are others in it. No allocation has a byte of `a`. -/
structure Released (s t : Tracked) (a : Allocation) : Prop where
  gone : ∀ b ∈ t.live, Apart b a
  kept : ∀ b ∈ t.live, ∀ x, b.va ≤ x → x < b.va + b.numBytes →
    t.machine.mem (t.machine.phys x) = s.machine.mem (s.machine.phys x)
  others : ∀ q < 2 ^ 20, q ≠ a.va / 4096 → (t.machine.Mapped q ↔ s.machine.Mapped q) ∧
    isSet t.machine.virtBitmap q = isSet s.machine.virtBitmap q
  shared : (∃ b ∈ t.live, b.Meets (a.va / 4096)) → t.machine.Mapped (a.va / 4096) ∧
    isSet t.machine.virtBitmap (a.va / 4096) = true ∧
    isSet t.machine.phyBitmap (s.machine.frame (a.va / 4096)) = true
  last : (¬∃ b ∈ t.live, b.Meets (a.va / 4096)) → ¬t.machine.Mapped (a.va / 4096) ∧
    isSet t.machine.virtBitmap (a.va / 4096) = false ∧
    isSet t.machine.phyBitmap (s.machine.frame (a.va / 4096)) = false

/-- An allocation with others in its page does not start the page, and the last one in its page has
a page and a frame with numbers below eight. -/
structure FreeOk (s : Tracked) (a : Allocation) : Prop where
  shared : (∃ b ∈ s.live.erase a, b.Meets (a.va / 4096)) → a.va % 4096 ≠ 0
  last : (¬∃ b ∈ s.live.erase a, b.Meets (a.va / 4096)) →
    a.va / 4096 < 8 ∧ s.machine.frame (a.va / 4096) < 8

instance {s : Tracked} {a : Allocation} : Decidable (FreeOk s a) :=
  decidable_of_iff (((∃ b ∈ s.live.erase a, b.Meets (a.va / 4096)) → a.va % 4096 ≠ 0) ∧
      ((¬∃ b ∈ s.live.erase a, b.Meets (a.va / 4096)) →
        a.va / 4096 < 8 ∧ s.machine.frame (a.va / 4096) < 8))
    ⟨fun h => ⟨h.1, h.2⟩, fun h => ⟨h.1, h.2⟩⟩

/-- A transfer, a request for less than a page that leaves room, or a free as above. -/
def Careful (s : Tracked) : Call → Prop
  | .malloc numBytes => numBytes < pgSize ∧ ¬ExactFit s.machine.toVm numBytes
  | .free a => FreeOk s a
  | .put .. => True
  | .get .. => True

instance {s : Tracked} : ∀ {c : Call}, Decidable (Careful s c)
  | .malloc numBytes =>
    inferInstanceAs (Decidable (numBytes < pgSize ∧ ¬ExactFit s.machine.toVm numBytes))
  | .free a => inferInstanceAs (Decidable (FreeOk s a))
  | .put .. => inferInstanceAs (Decidable True)
  | .get .. => inferInstanceAs (Decidable True)

/-- The state is in order, with allocations of less than a page. -/
structure SmallSound (s : Tracked) : Prop where
  sound : Sound s
  lt : ∀ a ∈ s.live, a.numBytes < 4096

theorem SmallSound.inv (h : SmallSound s) (ha : a ∈ s.live) :
    Inv s.machine.toVm s.live ∧ TlbAgrees s.machine ∧ Small s.live a (a.va / 4096) := by
  rcases h.sound with rfl | ⟨hinv, htlb⟩
  · cases ha
  · exact ⟨hinv, htlb, ha, h.lt a ha, rfl⟩

/-- No other allocation has a byte of one that is freed. -/
theorem Inv.apart_erase (h : Inv vm live) (ha : a ∈ live) : ∀ b ∈ live.erase a, Apart b a := by
  intro b hb
  obtain ⟨hba, hb⟩ := h.mem_erase.1 hb
  exact h.apart_of_ne ha hb hba

section Released

variable (hinv : Inv s.machine.toVm s.live) (hs : Small s.live a (a.va / 4096))

include hinv hs

theorem released_shared (hother : ∃ b ∈ s.live.erase a, b.Meets (a.va / 4096)) :
    Released s ⟨{ s.machine with toVm := s.machine.markFreed a (a.va / 4096) }, s.live.erase a⟩
      a where
  gone := hinv.apart_erase hs.mem
  kept _ _ _ _ _ := rfl
  others _ _ _ := ⟨.rfl, rfl⟩
  shared _ := by
    have hmapped := hs.mapped hinv
    exact ⟨hmapped, (hinv.virt _ hmapped.1).2 hmapped.2,
      hinv.frames.frame_used hmapped.1 hmapped.2⟩
  last hlast := absurd hother hlast

theorem released_last (hlast : ¬∃ b ∈ s.live.erase a, b.Meets (a.va / 4096))
    (hpage : a.va / 4096 < 8) (hframe : s.machine.frame (a.va / 4096) < 8)
    (hfreed : PageFreed { s.machine with toVm := s.machine.dropList (a.va / 4096) } m
      (a.va / 4096)) : Released s ⟨m, s.live.erase a⟩ a where
  gone := hinv.apart_erase hs.mem
  kept b hb x h1 h2 := by
    -- The byte lies in another page.
    have hold := (hinv.mem_erase.1 hb).2
    refine hfreed.byte (hinv.mapped_byte hold h1 h2) fun hpage => hlast ⟨b, hb, ?_⟩
    unfold Allocation.Meets
    omega
  others q hq hqp := by
    refine ⟨hfreed.mapped_iff.trans (and_iff_left hqp), ?_⟩
    rw [hfreed.virt, unsetBitAtIndex_bit]
    simp only [hqp, false_and, decide_false, Bool.not_false, Bool.true_and]
    rfl
  shared hother := absurd hother hlast
  last _ := by
    have hphy : m.phyBitmap = unsetBitAtIndex s.machine.phyBitmap
      (s.machine.frame (a.va / 4096)) := hfreed.phy
    refine ⟨fun hm => (hfreed.mapped_iff.1 hm).2 rfl, ?_, ?_⟩
    · rw [hfreed.virt, unsetBitAtIndex_bit]
      simp [hpage]
    · rw [hphy, unsetBitAtIndex_bit]
      simp [hframe]

end Released

/-- **A free** that is not at the start of a page with others, or empties one of the first pages. -/
theorem SmallSound.free (h : SmallSound s) (ha : a ∈ s.live) (hok : FreeOk s a) :
    ∃ m, tFree s.machine a.va a.numBytes = some m ∧ SmallSound ⟨m, s.live.erase a⟩ ∧
      Released s ⟨m, s.live.erase a⟩ a := by
  obtain ⟨hinv, htlb, hs⟩ := h.inv ha
  have hlt : ∀ b ∈ s.live.erase a, b.numBytes < 4096 := fun b hb =>
    h.lt b (hinv.mem_erase.1 hb).2
  by_cases hother : ∃ b ∈ s.live.erase a, b.Meets (a.va / 4096)
  · have hinv' := hinv.freeShared hs hother (hok.shared hother)
    exact ⟨_, tFree_shared hinv hs hother, ⟨.inr ⟨hinv', htlb.congr rfl fun _ _ _ => rfl⟩, hlt⟩,
      released_shared hinv hs hother⟩
  · obtain ⟨hpage, hframe⟩ := hok.last hother
    obtain ⟨m, hcall, hfreed⟩ := tFree_last hinv hs htlb hother
    have hinv' := hinv.freeLast hs hother hpage hfreed
    exact ⟨m, hcall, ⟨.inr ⟨hinv', hfreed.tlb⟩, hlt⟩,
      released_last hinv hs hother hpage hframe hfreed⟩

/-- **A step** of a careful run. -/
theorem SmallSound.step {c : Call} (hbase : base + memSize ≤ 2 ^ 32) (h : SmallSound s)
    (hstep : Guarded Careful (Step μ base) s c t) : SmallSound t := by
  obtain ⟨hok, hstep⟩ := hstep
  cases c with
  | malloc numBytes =>
    refine ⟨.inr (h.sound.malloc hbase hok.2 hstep), ?_⟩
    cases hstep
    rw [List.forall_mem_append]
    exact ⟨h.lt, List.forall_mem_singleton.2 hok.1⟩
  | free a =>
    cases hstep with
    | free ha hcall =>
      obtain ⟨m, hcall', hsmall, -⟩ := h.free ha hok
      cases hcall.symm.trans hcall'
      exact hsmall
  | put va val size =>
    refine ⟨h.sound.put hstep, ?_⟩
    cases hstep
    exact h.lt
  | get va val size =>
    refine ⟨h.sound.get hstep, ?_⟩
    cases hstep
    exact h.lt

theorem SmallSound.run (hbase : base + memSize ≤ 2 ^ 32)
    (hrun : Run (Guarded Careful (Step μ base)) .start calls s) : SmallSound s :=
  hrun.invariant ⟨.inl rfl, by simp [Tracked.start]⟩ fun _ _ _ h hstep => h.step hbase hstep

theorem agrees_start : Agrees μ .start where
  inside _ _ _ _ _ := fun ⟨_, ha, _⟩ => by cases ha
  outside va n _ _ _ _ := by
    refine ⟨fun val m' hput => ?_, fun buf => ⟨_, rfl, rfl⟩⟩
    cases hput
    rfl
  pages p := iff_of_false not_mapped_start fun ⟨_, ha, _⟩ => by cases ha
  virt p _ := iff_of_false (by simp [Tracked.start, Machine.start, Vm.start, isSet_zero])
    not_mapped_start
  phy p hp := absurd hp not_mapped_start

/-- **The state of a careful run** agrees with the allocations. -/
theorem SmallSound.agrees (h : SmallSound s) : Agrees μ s := by
  rcases h.sound with rfl | ⟨hinv, htlb⟩
  · exact agrees_start
  have hready := hinv.ready htlb
  have hfilled : ∀ p, ¬Filled s.live p := fun p ⟨a, ha, hfills⟩ =>
    Allocation.not_fills_of_lt (h.lt a ha) hfills
  refine ⟨fun va n hva hn hlt hin => ?_, fun va n hva hn hlt hout => ?_, fun p => ?_,
    fun p hp => ?_, fun p hp => hinv.frames.frame_used hp.1 hp.2⟩
  · have hshort : va % 4096 + n ≤ 4096 := by
      obtain ⟨a, ha, h1, h2⟩ := hin
      obtain ⟨-, -, hs⟩ := h.inv ha
      have hends := hs.ends hinv
      omega
    exact transfers_of_allows hready hva hn hlt (fun k hk => hinv.mapped_range hin hk)
      ((putAllows_short hinv hn hlt hshort).2 hin) ((getAllows_short hinv hn hshort).2 hin)
  · have hput : ¬PutAllows s.machine.toVm va n := by
      intro hall
      by_cases hlong : 4096 < va % 4096 + n
      · have hpieces := (putAllows_long hinv hn hlt hlong).1 hall
        exact hfilled _ (hpieces.before _ le_rfl (by omega))
      · exact hout ((putAllows_short hinv hn hlt (by omega)).1 hall)
    have hget : ¬GetAllows s.machine.toVm va n := by
      intro hall
      by_cases hlong : 4096 < va % 4096 + n
      · exact hfilled _ ((getAllows_long hinv hn hlt hlong).1 hall _ le_rfl (by omega))
      · exact hout ((getAllows_short hinv hn (by omega)).1 hall)
    refine ⟨fun val m' hcall => ?_, fun buf => ?_⟩
    · obtain ⟨⟨T, -, hcall'⟩, -⟩ | ⟨-, -, hnone⟩ :=
        putValue_refused μ val hready hva hn hput
      · cases hcall.symm.trans hcall'
        rfl
      · cases hcall.symm.trans hnone
    · obtain ⟨T, -, hcall⟩ := getValue_refused μ buf hready hva hn hlt hget
      exact ⟨_, hcall, rfl⟩
  · refine ⟨fun hp => ?_, fun ⟨b, hb, hmeets⟩ => hinv.pages b hb p hmeets⟩
    obtain ⟨b, hb, h1, h2⟩ := hinv.first p hp
    exact ⟨b, hb, by unfold Allocation.Meets; omega⟩
  · exact (hinv.virt p hp).trans (and_iff_right hp).symm

/-- **Frees.** In every state reached by careful calls the transfers, the pages and the bitmaps
agree with the allocations, so that no byte is transferred between a free and the request that
returns it again. A careful free returns, keeps the bytes of the other allocations, and unmaps the
page exactly when it was the last one there. -/
theorem frees_keep_rest (hbase : base + memSize ≤ 2 ^ 32)
    (hrun : Run (Guarded Careful (Step μ base)) .start calls s) :
    Agrees μ s ∧ ∀ a ∈ s.live, FreeOk s a → ∃ m, tFree s.machine a.va a.numBytes = some m ∧
      Agrees μ ⟨m, s.live.erase a⟩ ∧ Released s ⟨m, s.live.erase a⟩ a := by
  have hsmall := SmallSound.run hbase hrun
  refine ⟨hsmall.agrees, fun a ha hok => ?_⟩
  obtain ⟨m, hcall, hsmall', hreleased⟩ := hsmall.free ha hok
  exact ⟨m, hcall, hsmall'.agrees, hreleased⟩

/-- The second of two allocations in a page is freed. -/
theorem frees_keep_rest_second : ∃ s m, s.live = [⟨100, 0⟩, ⟨200, 101⟩] ∧
    tFree s.machine 101 200 = some m ∧ Agrees (.bump _) ⟨m, s.live.erase ⟨200, 101⟩⟩ ∧
    Released s ⟨m, s.live.erase ⟨200, 101⟩⟩ ⟨200, 101⟩ := by
  have hlive : (after (fun s c => decide (Careful s c)) 4096 .start
      [.malloc 100, .malloc 200]).map Tracked.live = some [⟨100, 0⟩, ⟨200, 101⟩] := by
    decide +kernel
  obtain ⟨s, hafter, hlive⟩ := Option.map_eq_some_iff.1 hlive
  have hrun : Run (Guarded Careful (Step (.bump _) 4096)) .start [.malloc 100, .malloc 200] s :=
    run_of_after hafter
  have hok : FreeOk s ⟨200, 101⟩ := by
    refine ⟨fun _ => by decide, fun hlast => absurd ?_ hlast⟩
    exact ⟨⟨100, 0⟩, by simp [hlive], by decide, by decide⟩
  obtain ⟨m, hcall, hfree⟩ :=
    (frees_keep_rest (by decide) hrun).2 ⟨200, 101⟩ (by simp [hlive]) hok
  exact ⟨s, m, hlive, hcall, hfree⟩

/-- The first of two allocations in a page is freed, and its first byte can still be read. -/
theorem free_keeps_first_byte : ¬∀ (μ : Malloc TlbNode) (base : ℕ) (calls : List Call)
    (s : Tracked) (a : Allocation) (m : Machine) (va : ℕ), base + memSize ≤ 2 ^ 32 →
    (∀ c ∈ calls, (∃ numBytes < pgSize, c = .malloc numBytes) ∨ ∃ b, c = .free b) →
    Run (Step μ base) .start calls s → a ∈ s.live → tFree s.machine a.va a.numBytes = some m →
    a.va ≤ va → va < a.va + a.numBytes → Spares μ m va 1 := by
  intro hall
  have hread : ((after (fun _ _ => decide True) 4096 .start
      [.malloc 4095, .malloc 100, .malloc 200]).bind fun s =>
      (tFree s.machine 4096 100).bind fun m =>
        (getValue (.bump _) m 4096 (fun _ => 1) 1).map fun r => (s.live, r.2 0)) =
      some ([⟨4095, 0⟩, ⟨100, 4096⟩, ⟨200, 4197⟩], 0) := by decide +kernel
  obtain ⟨s, hafter, hread⟩ := Option.bind_eq_some_iff.1 hread
  obtain ⟨m, hfree, hread⟩ := Option.bind_eq_some_iff.1 hread
  obtain ⟨⟨m', buf⟩, hget, hread⟩ := Option.map_eq_some_iff.1 hread
  obtain ⟨hlive, hbyte⟩ := Prod.mk.inj hread
  have hspares := hall (.bump _) 4096 _ s ⟨100, 4096⟩ m 4096 (by decide) (by simp [pgSize])
    ((run_of_after hafter).mono fun _ _ _ h => h.2) (by simp [hlive]) hfree (by decide) (by decide)
  obtain ⟨m'', hget', -⟩ := hspares.get fun _ => 1
  cases hget.symm.trans hget'
  cases hbyte

end UserOS.Fragment
