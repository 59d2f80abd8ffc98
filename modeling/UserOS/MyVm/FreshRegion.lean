import Mathlib.Data.Finset.Card
import UserOS.MyVm.Malloc

/-!
# What `t_malloc` needs and what it maps

A region of `n` pages takes `n` frames, and one more for each page table that is missing. The loop
of `t_malloc` looks for one frame more than that.

* `mapPages_total`: the loop ends with the region mapped when there are enough free frames, and
  reads through a null pointer otherwise.
* `tMalloc_fresh`: what `t_malloc` maps and marks.
-/

namespace UserOS.MyVm

open Lib

/-- The frames whose bits are clear. -/
def Vm.freeFrames (vm : Vm) : Finset ℕ :=
  (Finset.range numFrames).filter fun f => isSet vm.phyBitmap f = false

/-- The directory slots of the pages from `p` on, `n` of them, that have no page table. -/
def Vm.emptySlots (vm : Vm) (p n : ℕ) : Finset ℕ :=
  (Finset.range 4).filter fun d => (∃ i < n, (p + i) / 16384 = d) ∧ vm.pde d = 0

/-- The number of frames that `t_malloc` looks for when it maps the pages from `p` on, `n` of them.
-/
def Vm.framesNeeded (vm : Vm) (p n : ℕ) : ℕ := n + (vm.emptySlots p n).card + 1

variable {vm vm' mid : Vm} {va phy p n f d : ℕ} {tables : List ℕ}

/-! ## Counting -/

theorem mem_freeFrames : f ∈ vm.freeFrames ↔ f < numFrames ∧ isSet vm.phyBitmap f = false := by
  simp [Vm.freeFrames]

theorem card_freeFrames : vm.freeFrames.card =
    ((List.range numFrames).filter fun f => !isSet vm.phyBitmap f).length := by
  have hfilter : ((List.range numFrames).filter fun f => !isSet vm.phyBitmap f) =
      (List.range numFrames).filter fun f => decide (isSet vm.phyBitmap f = false) := by
    refine List.filter_congr fun f _ => ?_
    cases isSet vm.phyBitmap f <;> rfl
  rw [hfilter]
  rfl

/-- There is a result when enough frames are free. -/
theorem findFreePhysicalPage_isSome (hn : 0 < n) :
    (findFreePhysicalPage vm n).isSome ↔ n ≤ vm.freeFrames.card := by
  rw [findFreePhysicalPage_eq hn, card_freeFrames]
  simp only
  split_ifs with h <;> simp [h]

theorem firstFreePage_isSome : (firstFreePage vm).isSome ↔ 1 ≤ vm.freeFrames.card := by
  rw [← findFreePhysicalPage_isSome Nat.one_pos]
  unfold firstFreePage
  cases hfind : findFreePhysicalPage vm 1 with
  | none => rfl
  | some pages =>
    rw [findFreePhysicalPage_eq Nat.one_pos] at hfind
    simp only at hfind
    split_ifs at hfind with hle
    rw [Option.some.injEq] at hfind
    cases hfree : (List.range numFrames).filter fun f => !isSet vm.phyBitmap f with
    | nil => simp [hfree] at hle
    | cons g gs =>
      rw [hfree] at hfind
      simp [← hfind]

theorem mem_emptySlots : d ∈ vm.emptySlots p n ↔
    d < 4 ∧ (∃ i < n, (p + i) / 16384 = d) ∧ vm.pde d = 0 := by
  simp [Vm.emptySlots]

/-- Setting a bit that was clear. -/
theorem card_freeFrames_set (hf : f ∈ vm.freeFrames)
    (hphy : ∀ x, isSet vm'.phyBitmap x = (decide (x = f) || isSet vm.phyBitmap x)) :
    vm'.freeFrames.card + 1 = vm.freeFrames.card := by
  have herase : vm'.freeFrames = vm.freeFrames.erase f := by
    ext x
    rw [mem_freeFrames, Finset.mem_erase, mem_freeFrames, hphy, Bool.or_eq_false_iff,
      decide_eq_false_iff_not]
    exact and_left_comm
  rw [herase, Finset.card_erase_add_one hf]

namespace PageStep

theorem freeFrames (hs : PageStep vm mid p f tables) :
    mid.freeFrames.card + tables.length + 1 = vm.freeFrames.card := by
  have hf : f ∈ vm.freeFrames := mem_freeFrames.2 ⟨hs.lt, hs.free⟩
  obtain ⟨-, htables, -⟩ | ⟨-, g, htables, hg, hfree, hne, -⟩ := hs.table
  · have hphy : ∀ x, isSet mid.phyBitmap x = (decide (x = f) || isSet vm.phyBitmap x) := fun x => by
      simp [hs.phy, htables]
    rw [htables, List.length_nil, Nat.add_zero]
    exact card_freeFrames_set hf hphy
  · -- The table takes a second frame.
    have hg' : g ∈ vm.freeFrames.erase f :=
      Finset.mem_erase.2 ⟨hne, mem_freeFrames.2 ⟨hg, hfree⟩⟩
    have herase : mid.freeFrames = (vm.freeFrames.erase f).erase g := by
      ext x
      simp only [mem_freeFrames, Finset.mem_erase, hs.phy, htables, List.mem_singleton,
        Bool.or_eq_false_iff, decide_eq_false_iff_not, not_or]
      exact ⟨fun ⟨hx, ⟨hxf, hxg⟩, hb⟩ => ⟨hxg, hxf, hx, hb⟩,
        fun ⟨hxg, hxf, hx, hb⟩ => ⟨hx, ⟨hxf, hxg⟩, hb⟩⟩
    have hcount := Finset.card_erase_add_one hg'
    rw [← herase] at hcount
    rw [htables, List.length_singleton, hcount]
    exact Finset.card_erase_add_one hf

theorem pde_ne_zero (hs : PageStep vm mid p f tables) (h : 0 < vm.memoryStart) :
    mid.pde (p / 16384) ≠ 0 := by
  obtain ⟨hne, -, heq⟩ | ⟨-, g, -, -, -, -, heq⟩ := hs.table
  · rwa [heq]
  · rw [heq]
    unfold frameAddr
    omega

/-- The slot of the page is empty no more, and the others are as before. -/
theorem emptySlots_iff (hs : PageStep vm mid p f tables) (h : 0 < vm.memoryStart) :
    d ∈ mid.emptySlots (p + 1) n ↔ d ∈ vm.emptySlots p (n + 1) ∧ d ≠ p / 16384 := by
  rw [mem_emptySlots, mem_emptySlots]
  constructor
  · rintro ⟨hd, ⟨i, hi, rfl⟩, h0⟩
    have hne : (p + 1 + i) / 16384 ≠ p / 16384 := fun heq => by
      rw [heq] at h0
      exact hs.pde_ne_zero h h0
    rw [hs.pde _ hd hne] at h0
    exact ⟨⟨hd, ⟨i + 1, by omega, by congr 1; omega⟩, h0⟩, hne⟩
  · rintro ⟨⟨hd, ⟨i, hi, rfl⟩, h0⟩, hne⟩
    rcases i with - | i
    · exact absurd rfl hne
    · rw [← hs.pde _ hd hne] at h0
      exact ⟨hd, ⟨i, by omega, by congr 1; omega⟩, h0⟩

theorem emptySlots (hs : PageStep vm mid p f tables) (h : 0 < vm.memoryStart) (hp : p < 65536) :
    (vm.emptySlots p (n + 1)).card = (mid.emptySlots (p + 1) n).card + tables.length := by
  have herase : mid.emptySlots (p + 1) n = (vm.emptySlots p (n + 1)).erase (p / 16384) := by
    ext d
    rw [hs.emptySlots_iff h, Finset.mem_erase, and_comm]
  rw [herase]
  obtain ⟨hne, htables, -⟩ | ⟨h0, g, htables, -⟩ := hs.table
  · rw [htables, Finset.erase_eq_of_notMem fun hmem => hne (mem_emptySlots.1 hmem).2.2]
    rfl
  · rw [htables, List.length_singleton, Finset.card_erase_add_one]
    exact mem_emptySlots.2 ⟨by omega, ⟨0, Nat.succ_pos n, rfl⟩, h0⟩

end PageStep

/-! ## The loop -/

/-- `vm'` is `vm` with the pages from `p` on, `n` of them, mapped to free frames, and with page
tables in free frames for the slots that had none. -/
structure Extended (vm vm' : Vm) (p n : ℕ) : Prop where
  frames : FramesOk vm'
  start : vm'.memoryStart = vm.memoryStart
  dir : vm'.pageDir = vm.pageDir
  tlb : vm'.tlb = vm.tlb
  new : ∀ i < n, ∃ f < numFrames, isSet vm.phyBitmap f = false ∧
    vm'.pteAt (p + i) = frameAddr vm.memoryStart f
  old : ∀ i < 65536, i < p ∨ p + n ≤ i → vm'.pteAt i = vm.pteAt i
  table : ∀ d ∈ vm.emptySlots p n, ∃ g < numFrames, isSet vm.phyBitmap g = false ∧
    vm'.pde d = frameAddr vm.memoryStart g
  slot : ∀ d < 4, d ∉ vm.emptySlots p n → vm'.pde d = vm.pde d
  virt : ∀ i, isSet vm'.virtBitmap i = (decide (p ≤ i ∧ i < p + n) || isSet vm.virtBitmap i)
  phy : ∀ x, isSet vm'.phyBitmap x = true ↔ isSet vm.phyBitmap x = true ∨
    (∃ i < n, vm'.pteAt (p + i) = frameAddr vm.memoryStart x) ∨
      ∃ d ∈ vm.emptySlots p n, vm'.pde d = frameAddr vm.memoryStart x

theorem emptySlots_zero : vm.emptySlots p 0 = ∅ := by
  ext d
  simp [mem_emptySlots]

theorem Extended.none (h : FramesOk vm) : Extended vm vm p 0 where
  frames := h
  start := rfl
  dir := rfl
  tlb := rfl
  new i hi := absurd hi (Nat.not_lt_zero i)
  old _ _ _ := rfl
  table d hd := by
    rw [emptySlots_zero] at hd
    exact absurd hd (Finset.notMem_empty d)
  slot _ _ _ := rfl
  virt i := by rw [decide_eq_false (by omega), Bool.false_or]
  phy x := by simp [emptySlots_zero]

theorem or_rearrange {P Q S A B : Prop} : ((P ∨ Q) ∨ S) ∨ A ∨ B ↔ S ∨ (P ∨ A) ∨ Q ∨ B := by tauto

/-- One page more at the front. -/
theorem PageStep.extended (hs : PageStep vm mid p f tables) (h : 0 < vm.memoryStart)
    (hp : p + n < 65536) (hfree : vm.pteAt p = 0) (he : Extended mid vm' (p + 1) n) :
    Extended vm vm' p (n + 1) := by
  have hmono : ∀ x, isSet mid.phyBitmap x = false → isSet vm.phyBitmap x = false := fun x hx => by
    rw [hs.phy, Bool.or_eq_false_iff] at hx
    exact hx.2
  have hfirst : vm'.pteAt p = frameAddr vm.memoryStart f := by
    rw [he.old p (by omega) (.inl (Nat.lt_succ_self p)), hs.pte p (by omega), if_pos ⟨rfl, hfree⟩]
  have hslot : p / 16384 < 4 := by omega
  have hkeep : vm'.pde (p / 16384) = mid.pde (p / 16384) :=
    he.slot _ hslot fun hmem => ((hs.emptySlots_iff h).1 hmem).2 rfl
  refine {
    frames := he.frames
    start := he.start.trans hs.start
    dir := he.dir.trans hs.dir
    tlb := he.tlb.trans hs.tlb
    new := fun i hi => ?_
    old := fun i hi hout => ?_
    table := fun d hd => ?_
    slot := fun d hd hnot => ?_
    virt := fun i => ?_
    phy := fun x => ?_ }
  · rcases i with - | i
    · exact ⟨f, hs.lt, hs.free, hfirst⟩
    · obtain ⟨g, hg, hgfree, heq⟩ := he.new i (by omega)
      rw [hs.start, show p + 1 + i = p + (i + 1) by omega] at heq
      exact ⟨g, hg, hmono g hgfree, heq⟩
  · rw [he.old i hi (by omega), hs.pte i hi, if_neg (by omega)]
  · by_cases hne : d = p / 16384
    · obtain ⟨h0, -⟩ | ⟨-, g, -, hg, hgfree, -, heq⟩ := hs.table
      · exact absurd (mem_emptySlots.1 (hne ▸ hd)).2.2 h0
      · exact ⟨g, hg, hgfree, by rw [hne, hkeep, heq]⟩
    · obtain ⟨g, hg, hgfree, heq⟩ := he.table d ((hs.emptySlots_iff h).2 ⟨hd, hne⟩)
      exact ⟨g, hg, hmono g hgfree, by rw [heq, hs.start]⟩
  · by_cases hne : d = p / 16384
    · obtain ⟨-, -, heq⟩ | ⟨h0, -⟩ := hs.table
      · rw [hne, hkeep, heq]
      · exact absurd (mem_emptySlots.2 ⟨hd, ⟨0, Nat.succ_pos n, hne.symm⟩, hne ▸ h0⟩) hnot
    · rw [he.slot d hd fun hmem => hnot ((hs.emptySlots_iff h).1 hmem).1, hs.pde d hd hne]
  · rw [he.virt, hs.virt, ← Bool.or_assoc, ← Bool.decide_or]
    exact congrArg (· || _) (decide_eq_decide.2 (by omega))
  · -- The frame of a table that was installed now is that of the slot of the page.
    have htable : x ∈ tables ↔ p / 16384 ∈ vm.emptySlots p (n + 1) ∧
        vm'.pde (p / 16384) = frameAddr vm.memoryStart x := by
      rw [hkeep]
      obtain ⟨h0, htables, -⟩ | ⟨h0, g, htables, -, -, -, heq⟩ := hs.table
      · rw [htables]
        exact iff_of_false List.not_mem_nil fun hh => h0 (mem_emptySlots.1 hh.1).2.2
      · rw [htables, List.mem_singleton, heq, frameAddr_inj]
        exact ⟨fun hx => ⟨mem_emptySlots.2 ⟨hslot, ⟨0, Nat.succ_pos n, rfl⟩, h0⟩, hx.symm⟩,
          fun hh => hh.2.symm⟩
    have hpages : (∃ i < n + 1, vm'.pteAt (p + i) = frameAddr vm.memoryStart x) ↔
        x = f ∨ ∃ i < n, vm'.pteAt (p + 1 + i) = frameAddr vm.memoryStart x := by
      constructor
      · rintro ⟨i, hi, heq⟩
        rcases i with - | i
        · rw [Nat.add_zero, hfirst, frameAddr_inj] at heq
          exact .inl heq.symm
        · exact .inr ⟨i, by omega, by rwa [show p + 1 + i = p + (i + 1) by omega]⟩
      · rintro (rfl | ⟨i, hi, heq⟩)
        · exact ⟨0, Nat.succ_pos n, hfirst⟩
        · exact ⟨i + 1, by omega, by rwa [show p + (i + 1) = p + 1 + i by omega]⟩
    have hslots : (∃ d ∈ vm.emptySlots p (n + 1), vm'.pde d = frameAddr vm.memoryStart x) ↔
        x ∈ tables ∨ ∃ d ∈ mid.emptySlots (p + 1) n, vm'.pde d = frameAddr vm.memoryStart x := by
      constructor
      · rintro ⟨d, hd, heq⟩
        by_cases hne : d = p / 16384
        · subst hne
          exact .inl (htable.2 ⟨hd, heq⟩)
        · exact .inr ⟨d, (hs.emptySlots_iff h).2 ⟨hd, hne⟩, heq⟩
      · rintro (hx | ⟨d, hd, heq⟩)
        · exact ⟨_, htable.1 hx⟩
        · exact ⟨d, ((hs.emptySlots_iff h).1 hd).1, heq⟩
    rw [he.phy, hs.phy, hs.start, hpages, hslots, Bool.or_eq_true, decide_eq_true_iff]
    exact or_rearrange

/-- A frame is marked, so that one less is free. -/
theorem freeFrames_marked (hva : va < 2 ^ 32) (hphy : firstFreePage vm = some phy) :
    (vm.marked va phy).freeFrames.card + 1 = vm.freeFrames.card := by
  obtain ⟨f, hf, rfl, hfree⟩ := firstFreePage_eq_some hphy
  rw [Vm.marked_eq hva]
  exact card_freeFrames_set (mem_freeFrames.2 ⟨hf, hfree⟩) fun x => setBitAtIndex_bit

/-- `page_map` returns when the table is there or a frame is free. -/
theorem pageMap_isSome {pa : ℕ} (h : TablesOk vm) :
    (pageMap vm va pa).isSome ↔ vm.pde (dirIndex va) ≠ 0 ∨ 1 ≤ vm.freeFrames.card := by
  have htable : (ensureTable vm (dirIndex va)).isSome ↔
      vm.pde (dirIndex va) ≠ 0 ∨ 1 ≤ vm.freeFrames.card := by
    rw [← firstFreePage_isSome]
    unfold ensureTable
    split_ifs with h0
    · unfold installTable
      cases firstFreePage vm <;> simp [h0]
    · simp [h0]
  rw [← htable]
  unfold pageMap
  simp only [if_neg h.apart.pageDir_pos.ne']
  cases ensureTable vm (dirIndex va) with
  | none => rfl
  | some u =>
    simp only [Option.bind_eq_bind, Option.bind_some]
    split_ifs <;> rfl

/-- **The loop of `t_malloc`** maps the pages when the frames that it looks for are free, and reads
through a null pointer otherwise. -/
theorem mapPages_total (n : ℕ) : ∀ {vm : Vm} {va phy : ℕ}, FramesOk vm → va < 2 ^ 32 →
    pageNumber va + n ≤ 65536 → (∀ i < n, vm.pteAt (pageNumber va + i) = 0) →
    firstFreePage vm = some phy →
    (vm.framesNeeded (pageNumber va) n ≤ vm.freeFrames.card →
      ∃ vm', mapPages n vm va phy = some vm' ∧ Extended vm vm' (pageNumber va) n) ∧
    (vm.freeFrames.card < vm.framesNeeded (pageNumber va) n → mapPages n vm va phy = none) := by
  induction n with
  | zero =>
    intro vm va phy h hva hfits hfree hphy
    have hone : 1 ≤ vm.freeFrames.card := firstFreePage_isSome.1 (by rw [hphy]; rfl)
    have hneeded : vm.framesNeeded (pageNumber va) 0 = 1 := by
      rw [Vm.framesNeeded, emptySlots_zero, Finset.card_empty]
    refine ⟨fun _ => ⟨vm, rfl, .none h⟩, fun hlt => ?_⟩
    rw [hneeded] at hlt
    exact absurd hone (Nat.not_le.2 hlt)
  | succ n ih =>
    intro vm va phy h hva hfits hfree hphy
    have hmarked := freeFrames_marked hva hphy
    have hd := dirIndex_lt va
    have hunfold : mapPages (n + 1) vm va phy =
        (pageMap (vm.marked va phy) va phy).bind fun r => (firstFreePage r.1).bind fun phy' =>
          mapPages n r.1 (if n = 0 then va else getNextPage va) phy' := rfl
    rw [hunfold]
    cases hmap : pageMap (vm.marked va phy) va phy with
    | none =>
      -- There is no frame for the page table.
      have hok : FramesOk (vm.marked va phy) := by
        obtain ⟨f, -, rfl, -⟩ := firstFreePage_eq_some hphy
        rw [Vm.marked_eq hva]
        exact h.mark
      have hnone : ¬(pageMap (vm.marked va phy) va phy).isSome := by simp [hmap]
      have hnot := mt (pageMap_isSome hok.tablesOk).2 hnone
      rw [not_or] at hnot
      refine ⟨fun hle => ?_, fun _ => rfl⟩
      unfold Vm.framesNeeded at hle
      omega
    | some r =>
      obtain ⟨mid, status⟩ := r
      obtain ⟨f, tables, hs⟩ := mapPage_step h hva hphy hmap
      have hcount := hs.freeFrames
      have hslots := hs.emptySlots h.start (n := n) (by omega)
      have hfirst := hfree 0 (Nat.succ_pos n)
      rw [Nat.add_zero] at hfirst
      have hneeded : vm.framesNeeded (pageNumber va) (n + 1) + mid.freeFrames.card =
          mid.framesNeeded (pageNumber va + 1) n + vm.freeFrames.card := by
        unfold Vm.framesNeeded
        omega
      have hrest : ∀ i < n, mid.pteAt (pageNumber va + 1 + i) = 0 := fun i hi => by
        rw [hs.pte _ (by omega), if_neg (by omega), Nat.add_assoc, Nat.add_comm 1 i]
        exact hfree (i + 1) (by omega)
      rw [Option.bind_some]
      cases hphy' : firstFreePage mid with
      | none =>
        have hnone := mt firstFreePage_isSome.2 (by simp [hphy'] : ¬(firstFreePage mid).isSome)
        refine ⟨fun hle => ?_, fun _ => rfl⟩
        unfold Vm.framesNeeded at hneeded hle
        omega
      | some phy' =>
        rw [Option.bind_some]
        -- The loop goes on with the next page, which is read when one is left.
        have hih : (mid.framesNeeded (pageNumber va + 1) n ≤ mid.freeFrames.card →
              ∃ vm', mapPages n mid (if n = 0 then va else getNextPage va) phy' = some vm' ∧
                Extended mid vm' (pageNumber va + 1) n) ∧
            (mid.freeFrames.card < mid.framesNeeded (pageNumber va + 1) n →
              mapPages n mid (if n = 0 then va else getNextPage va) phy' = none) := by
          by_cases hn : n = 0
          · subst hn
            have hone : 1 ≤ mid.freeFrames.card := firstFreePage_isSome.1 (by rw [hphy']; rfl)
            refine ⟨fun _ => ⟨mid, rfl, .none hs.frames⟩, fun hlt => ?_⟩
            rw [Vm.framesNeeded, emptySlots_zero, Finset.card_empty] at hlt
            omega
          · have hnext : pageNumber (getNextPage va) = pageNumber va + 1 :=
              getNextPage_page (by omega)
            rw [if_neg hn, ← hnext]
            exact ih hs.frames (getNextPage_lt hva) (by omega) (hnext.symm ▸ hrest) hphy'
        refine ⟨fun hle => ?_, fun hlt => hih.2 (by omega)⟩
        obtain ⟨vm', hmaps, he⟩ := hih.1 (by omega)
        exact ⟨vm', hmaps, hs.extended h.start (by omega) hfirst he⟩

/-! ## `t_malloc` -/

/-- A region as `t_malloc` should map it: its pages were free and unmapped, and have frames of their
own now. -/
structure FreshRegion (vm vm' : Vm) (p n : ℕ) : Prop extends Extended vm vm' p n where
  fits : p + n ≤ 65536
  unmapped : ∀ i < n, isSet vm.virtBitmap (p + i) = false ∧ vm.pteAt (p + i) = 0
  apart : ∀ i < n, ∀ j < n, vm'.pteAt (p + i) = vm'.pteAt (p + j) → i = j
  virtOk : VirtOk vm'

theorem Extended.virtOk (he : Extended vm vm' p n) (hv : VirtOk vm) : VirtOk vm' := by
  intro i hi hne
  rw [he.virt]
  by_cases hin : p ≤ i ∧ i < p + n
  · simp [hin]
  · rw [he.old i hi (by omega)] at hne
    simp [hv i hi hne]

theorem Extended.freshRegion (he : Extended vm vm' p n) (h : FramesOk vm) (hv : VirtOk vm)
    (hfits : p + n ≤ 65536) (hbits : ∀ i, p ≤ i → i < p + n → isSet vm.virtBitmap i = false) :
    FreshRegion vm vm' p n where
  toExtended := he
  fits := hfits
  unmapped i hi := by
    have hbit := hbits (p + i) (by omega) (by omega)
    exact ⟨hbit, hv.pteAt_eq_zero (by omega) hbit⟩
  apart i hi j hj heq := by
    obtain ⟨f, -, -, hf⟩ := he.new i hi
    have hpos := h.start
    have hne : vm'.pteAt (p + i) ≠ 0 := by
      rw [hf]
      unfold frameAddr
      omega
    have := he.frames.apart.page_unique (by omega) (by omega) hne heq
    omega
  virtOk := he.virtOk hv

theorem FreshRegion.withMutex {b c : Bool} (hr : FreshRegion { vm with mutex := b } vm' p n) :
    FreshRegion vm { vm' with mutex := c } p n :=
  ⟨⟨⟨⟨hr.frames.start, hr.frames.fits⟩, hr.frames.frames⟩, hr.start, hr.dir, hr.tlb, hr.new, hr.old,
    hr.table, hr.slot, hr.virt, hr.phy⟩, hr.fits, hr.unmapped, hr.apart, hr.virtOk⟩

/-- `t_malloc` after the memory is set up. -/
theorem tMalloc_eq {base numBytes : ℕ} {vm₁ : Vm}
    (he : (vm.lock >>= ensureMemory base) = some vm₁) : tMalloc base vm numBytes =
      if (findFreePhysicalPage vm₁ (pagesRequired numBytes)).isSome then
        (firstFreePage vm₁).bind fun phy => (mapPages (pagesRequired numBytes) vm₁
          ((getNextAvail vm₁ (pagesRequired numBytes)).getD 0) phy).map fun vm' =>
            (vm'.unlock, (getNextAvail vm₁ (pagesRequired numBytes)).getD 0)
      else some (vm₁.unlock, 0) := by
  obtain ⟨vm₀, hlock, hens⟩ := Option.bind_eq_some_iff.1 he
  unfold tMalloc
  simp only [hlock, hens, Option.bind_eq_bind, Option.bind_some]
  cases findFreePhysicalPage vm₁ (pagesRequired numBytes) with
  | none => rfl
  | some pages =>
    simp only [Option.isSome_some, if_true]
    refine congrArg _ (funext fun phy => ?_)
    cases mapPages (pagesRequired numBytes) vm₁
      ((getNextAvail vm₁ (pagesRequired numBytes)).getD 0) phy <;> rfl

/-- The memory is there. -/
theorem ensureMemory_of_start {base : ℕ} (hlock : vm.mutex = false) (h : 0 < vm.memoryStart) :
    (vm.lock >>= ensureMemory base) = some { vm with mutex := true } := by
  simp [Vm.lock, hlock, ensureMemory, h.ne']

theorem pagesRequired_pos {numBytes : ℕ} (hn : 1 ≤ numBytes) : 0 < pagesRequired numBytes := by
  rw [pagesRequired_eq]
  omega

/-- What becomes of a request for which a free run was found. -/
theorem tMalloc_of_run {base numBytes : ℕ} {vm₁ : Vm}
    (he : (vm.lock >>= ensureMemory base) = some vm₁) (h : FramesOk vm₁) (hv : VirtOk vm₁)
    (hn : 1 ≤ numBytes) (hrun : getNextAvail vm₁ (pagesRequired numBytes) = some va)
    (hle : pagesRequired numBytes ≤ vm₁.freeFrames.card) :
    (vm₁.framesNeeded (pageNumber va) (pagesRequired numBytes) ≤ vm₁.freeFrames.card →
      ∃ vm', tMalloc base vm numBytes = some (vm'.unlock, va) ∧
        FreshRegion vm₁ vm' (pageNumber va) (pagesRequired numBytes)) ∧
    (vm₁.freeFrames.card < vm₁.framesNeeded (pageNumber va) (pagesRequired numBytes) →
      tMalloc base vm numBytes = none) := by
  have hk := pagesRequired_pos hn
  obtain ⟨p, rfl, hp, hbits⟩ := getNextAvail_spec hk hrun
  have hpn : pageNumber (p * pgSize) = p := Nat.mul_div_cancel p (by decide)
  obtain ⟨phy, hphy⟩ := Option.isSome_iff_exists.1 (firstFreePage_isSome.2 (hk.trans_le hle))
  have hfree : ∀ i < pagesRequired numBytes, vm₁.pteAt (p + i) = 0 := fun i hi =>
    hv.pteAt_eq_zero (by omega) (hbits (p + i) (by omega) (by omega))
  have hva : p * pgSize < 2 ^ 32 := by
    unfold pgSize
    omega
  have htotal := mapPages_total (pagesRequired numBytes) h hva (by rwa [hpn]) (by rwa [hpn]) hphy
  rw [tMalloc_eq he, if_pos ((findFreePhysicalPage_isSome hk).2 hle), hrun, hphy, Option.bind_some,
    Option.getD_some, hpn]
  rw [hpn] at htotal
  refine ⟨fun hneeded => ?_, fun hfew => ?_⟩
  · obtain ⟨vm', hmaps, hext⟩ := htotal.1 hneeded
    exact ⟨vm', by rw [hmaps]; rfl, hext.freshRegion h hv hp hbits⟩
  · rw [htotal.2 hfew]
    rfl

/-- **A fresh region.** When `get_next_avail` finds a run and one frame more than the pages and the
missing page tables take is free, `t_malloc` returns the run, mapped to free frames. -/
theorem tMalloc_fresh {base numBytes : ℕ} (h : FramesOk vm) (hv : VirtOk vm)
    (hlock : vm.mutex = false) (hn : 1 ≤ numBytes)
    (hrun : getNextAvail vm (pagesRequired numBytes) = some va)
    (hfree : pagesRequired numBytes +
      (vm.emptySlots (pageNumber va) (pagesRequired numBytes)).card + 1 ≤ vm.freeFrames.card) :
    ∃ vm', tMalloc base vm numBytes = some (vm', va) ∧ pageNumber va * pgSize = va ∧
      FreshRegion vm vm' (pageNumber va) (pagesRequired numBytes) := by
  have hens : (vm.lock >>= ensureMemory base) = some { vm with mutex := true } :=
    ensureMemory_of_start hlock h.start
  have hle : pagesRequired numBytes ≤ vm.freeFrames.card := by omega
  obtain ⟨vm', hm, hregion⟩ :=
    (tMalloc_of_run hens ⟨⟨h.start, h.fits⟩, h.frames⟩ hv hn hrun hle).1 hfree
  obtain ⟨p, rfl, -, -⟩ := getNextAvail_spec (pagesRequired_pos hn) hrun
  exact ⟨_, hm, congrArg (· * pgSize) (Nat.mul_div_cancel p (by decide)), hregion.withMutex⟩


/-- A region of two pages in memory that was just set up. The page table takes a third frame. -/
theorem tMalloc_fresh_two_pages : ∃ vm vm', setPhysicalMem 4096 Vm.start = some vm ∧
    tMalloc 4096 vm 131072 = some (vm', 0) ∧ FreshRegion vm vm' 0 2 := by
  have hvalue : (setPhysicalMem 4096 Vm.start).any fun vm => getNextAvail vm 2 = some 0 &&
      (findFreePhysicalPage vm 4).isSome && (vm.emptySlots 0 2).card = 1 := by decide +kernel
  obtain ⟨vm, hset, hvalue⟩ := (Option.any_eq_true _ _).1 hvalue
  simp only [Bool.and_eq_true, decide_eq_true_eq] at hvalue
  obtain ⟨⟨hrun, hfree⟩, hslots⟩ := hvalue
  have hfresh := setPhysicalMem_spec (by decide) hset
  have hok := hfresh.memOk rfl
  have hcard := (findFreePhysicalPage_isSome (by decide)).1 hfree
  have htwo : pagesRequired ((131072 : ℕ) : ℤ) = 2 := by decide
  obtain ⟨vm', hm, -, hregion⟩ := @tMalloc_fresh vm 0 4096 131072 hok.frames hok.virt
    hfresh.mutex (by decide) (htwo ▸ hrun) (by
      rw [htwo, show pageNumber 0 = 0 from rfl, hslots]
      exact hcard)
  rw [htwo] at hregion
  exact ⟨vm, vm', hset, hm, hregion⟩

end UserOS.MyVm
