import Mathlib.Data.Finset.Card
import Mathlib.Order.Interval.Finset.Nat
import UserOS.MyVm.Regions

/-!
# What `t_free` releases

`t_free` should unmap the pages of a region, drop their translations, zero their frames and clear
their bits. It clears the bits of the frames that follow the first page's, and only those below 8,
and a deletion from the TLB may cut off more than one translation.

* `deletePages_spec`: what is left of the TLB.
* `freePages_mem`: which bytes the loop changes.
* `tFree_exact`: when the call releases exactly its region.
-/

namespace UserOS.MyVm

open Lib

/-! ## The TLB -/

/-- The translation is in the list read from `head`. -/
def Tlb.Translates (T : Tlb) (va pa : ℕ) : Prop :=
  ∃ l, Chain T.nodes TlbNode.next T.head l ∧ ∃ a ∈ l, T.entryAt a = some (va, pa)

/-- The node translates the page of slot `d` of one of the indices from `t` on, `n` of them. -/
def Tlb.InRange (T : Tlb) (d t n a : ℕ) : Prop :=
  ∃ i < n, T.vaAt a = some (formVirtualAddress layout d (t + i))

instance {T : Tlb} {d t n a : ℕ} : Decidable (T.InRange d t n a) :=
  inferInstanceAs (Decidable (∃ i < n, _))

/-- When `tail` names a node of the range, all nodes after it are nodes of the range. -/
def Tlb.TailOk (T : Tlb) (d t n : ℕ) : Prop :=
  ∀ l b c, Chain T.nodes TlbNode.next T.head l → T.tail = some b → List.Sublist [b, c] l →
    T.InRange d t n b → T.InRange d t n c

/-- The calls of `delete_from_tlb` in the loop of `t_free`. -/
def deletePages (d : ℕ) : ℕ → Tlb → ℕ → Option Tlb
  | 0, T, _ => some T
  | n + 1, T, t => do
    let T ← deleteFromTlb T (formVirtualAddress layout d t)
    deletePages d n T (t + 1)

variable {T T' : Tlb} {P : ℕ → ℕ → Prop} {l l' : List ℕ} {d t n a b c va pa : ℕ}

/-- The list of nodes outside the range. -/
def Tlb.outside (T : Tlb) (d t n : ℕ) (l : List ℕ) : List ℕ := l.filter fun a => !T.InRange d t n a

theorem vaAt_of_entryAt (h : T'.entryAt a = T.entryAt a) : T'.vaAt a = T.vaAt a := by
  have hfst := congrArg (Option.map Prod.fst) h
  rw [Tlb.entryAt, Tlb.entryAt, Option.map_map, Option.map_map] at hfst
  exact hfst

theorem inRange_succ : T.InRange d t (n + 1) a ↔
    T.vaAt a = some (formVirtualAddress layout d t) ∨ T.InRange d (t + 1) n a := by
  constructor
  · rintro ⟨i, hi, heq⟩
    rcases i with - | i
    · exact .inl heq
    · exact .inr ⟨i, by omega, by rwa [show t + 1 + i = t + (i + 1) by omega]⟩
  · rintro (heq | ⟨i, hi, heq⟩)
    · exact ⟨0, Nat.succ_pos n, heq⟩
    · exact ⟨i + 1, by omega, by rwa [show t + (i + 1) = t + 1 + i by omega]⟩

theorem inRange_congr (h : T'.entryAt a = T.entryAt a) :
    T'.InRange d t n a ↔ T.InRange d t n a := by
  unfold Tlb.InRange
  rw [vaAt_of_entryAt h]

theorem tailOk_iff (hc : Chain T.nodes TlbNode.next T.head l) : T.TailOk d t n ↔
    ∀ b c, T.tail = some b → List.Sublist [b, c] l → T.InRange d t n b → T.InRange d t n c := by
  constructor
  · exact fun h b c => h l b c hc
  · intro h l' b c hc'
    rw [hc'.unique hc]
    exact h b c

/-- Nothing comes after the last element. -/
theorem not_after_last (hnd : l.Nodup) (hb : l.getLast? = some b) : ¬List.Sublist [b, c] l := by
  intro hsub
  obtain ⟨x, rfl⟩ := List.getLast?_eq_some_iff.1 hb
  obtain ⟨u, v, huv, hu, hv⟩ := List.sublist_append_iff.1 hsub
  rcases u with - | ⟨w, u⟩
  · rw [List.nil_append] at huv
    rw [← huv] at hv
    exact absurd hv.length_le (by simp)
  · obtain ⟨rfl, -⟩ := List.cons.inj huv
    exact (List.nodup_append.1 hnd).2.2 b (hu.subset List.mem_cons_self) b
      (List.mem_singleton_self b) rfl

/-- What comes after an element. -/
theorem after_iff {x y : List ℕ} (ha : a ∉ x) : List.Sublist [a, c] (x ++ a :: y) ↔ c ∈ y := by
  constructor
  · intro hsub
    obtain ⟨u, v, huv, hu, hv⟩ := List.sublist_append_iff.1 hsub
    rcases u with - | ⟨w, u⟩
    · rw [List.nil_append] at huv
      rw [← huv] at hv
      exact List.singleton_sublist.1 (List.cons_sublist_cons.1 hv)
    · obtain ⟨rfl, -⟩ := List.cons.inj huv
      exact absurd (hu.subset List.mem_cons_self) ha
  · intro hc
    exact ((List.singleton_sublist.2 hc).cons_cons a).trans (List.sublist_append_right x _)

/-- The order without an element. -/
theorem after_of_ne {x y : List ℕ} (hnd : (x ++ a :: y).Nodup) (hb : b ≠ a) (hc : c ≠ a)
    (hsub : List.Sublist [b, c] (x ++ a :: y)) : List.Sublist [b, c] (x ++ y) := by
  have hnot := (List.nodup_cons.1 (List.perm_middle.nodup_iff.1 hnd)).1
  have hpair : [b, c].filter (fun z => decide (z ≠ a)) = [b, c] := by simp [hb, hc]
  have hlist : (x ++ a :: y).filter (fun z => decide (z ≠ a)) = x ++ y := by
    rw [List.filter_append, List.filter_cons_of_neg (by simp), ← List.filter_append]
    exact List.filter_eq_self.2 fun z hz => decide_eq_true (ne_of_mem_of_not_mem hz hnot)
  have hfilter := hsub.filter fun z => decide (z ≠ a)
  rwa [hpair, hlist] at hfilter

/-- **The range is deleted.** Nothing else is if and only if the node that `tail` names, if it is in
the range, has only nodes of the range after it. -/
theorem deletePages_spec (n : ℕ) :
    ∀ {T : Tlb} {P : ℕ → ℕ → Prop} {l : List ℕ} {t : ℕ}, TlbInv T P l →
    ∃ T' l', deletePages d n T t = some T' ∧ TlbInv T' P l' ∧
      (∀ b ∈ l', T'.entryAt b = T.entryAt b) ∧ l'.Sublist (T.outside d t n l) ∧
      (l' = T.outside d t n l ↔ T.TailOk d t n) := by
  induction n with
  | zero =>
    intro T P l t h
    have hnone : ∀ a, ¬T.InRange d t 0 a := fun a ⟨i, hi, _⟩ => Nat.not_lt_zero i hi
    have hall : T.outside d t 0 l = l := List.filter_eq_self.2 fun a _ => by simp [hnone a]
    rw [hall]
    exact ⟨T, l, rfl, h, fun _ _ => rfl, List.Sublist.refl l,
      iff_of_true rfl fun _ _ _ _ _ _ hb => absurd hb (hnone _)⟩
  | succ n ih =>
    intro T P l t h
    obtain ⟨T₁, l₁, hdel, hinv, -, ⟨hkept, hcases⟩, -⟩ :=
      deleteFromTlb_cut h (formVirtualAddress layout d t)
    obtain ⟨T', l', hrest, hinv', hkept', hsub, hiff⟩ := ih (t := t + 1) hinv
    -- The nodes that are left do not translate the page deleted.
    have hvaAt : ∀ b ∈ l₁, T.vaAt b ≠ some (formVirtualAddress layout d t) := by
      intro b hb hva
      obtain ⟨m, hm⟩ := hinv.chain.exists_of_mem hb
      rw [← vaAt_of_entryAt (hkept b hb), Tlb.vaAt, hm] at hva
      exact (hinv.holds b hb m hm).2 (Option.some.inj hva)
    have hrange : ∀ b ∈ l₁, T₁.InRange d (t + 1) n b ↔ T.InRange d t (n + 1) b := by
      intro b hb
      rw [inRange_congr (hkept b hb), inRange_succ]
      exact (or_iff_right (hvaAt b hb)).symm
    have hout : T₁.outside d (t + 1) n l₁ = T.outside d t (n + 1) l₁ :=
      List.filter_congr fun b hb => by simp [hrange b hb]
    have hmem' : ∀ b ∈ l', b ∈ l₁ := fun b hb => (List.mem_filter.1 (hsub.subset hb)).1
    rw [hout] at hsub hiff
    rw [tailOk_iff hinv.chain] at hiff
    refine ⟨T', l', ?_, hinv'.mono fun _ _ hp => hp.1,
      fun b hb => (hkept' b hb).trans (hkept b (hmem' b hb)), ?_, ?_⟩
    · rw [deletePages, hdel]
      exact hrest
    · refine hsub.trans (List.Sublist.filter _ ?_)
      obtain ⟨-, rfl, -⟩ | ⟨x, a, y, rfl, -, ⟨-, rfl, -⟩ | ⟨-, rfl, -⟩⟩ := hcases
      · exact List.Sublist.refl _
      · exact (List.Sublist.refl x).append (List.sublist_cons_self a y)
      · exact List.sublist_append_left ..
    · rw [tailOk_iff h.chain]
      obtain ⟨-, rfl, htail⟩ | ⟨x, a, y, rfl, hva, hcut⟩ := hcases
      · rw [hiff, htail]
        refine forall_congr' fun b => forall_congr' fun c => forall_congr' fun _ =>
          forall_congr' fun hbc => ?_
        rw [hrange b (hbc.subset (by simp)), hrange c (hbc.subset (by simp))]
      have ha : T.InRange d t (n + 1) a := inRange_succ.2 (.inl hva)
      have hnd := h.chain.nodup
      have hnot := (List.nodup_cons.1 (List.perm_middle.nodup_iff.1 hnd)).1
      obtain ⟨hne, rfl, htail⟩ | ⟨heq, rfl, htail⟩ := hcut
      · have hsame : T.outside d t (n + 1) (x ++ a :: y) = T.outside d t (n + 1) (x ++ y) := by
          unfold Tlb.outside
          rw [List.filter_append, List.filter_cons_of_neg (by simp [ha]), List.filter_append]
        rw [hsame, hiff, htail]
        constructor
        · intro hall b c hb hbc hbr
          by_cases hca : c = a
          · exact hca ▸ ha
          · have hba : b ≠ a := fun hba => hne (hba ▸ hb)
            have hbc' := after_of_ne hnd hba hca hbc
            have hbr' := (hrange b (hbc'.subset (by simp))).2 hbr
            exact (hrange c (hbc'.subset (by simp))).1 (hall b c hb hbc' hbr')
        · intro hall b c hb hbc hbr
          have hbc' : List.Sublist [b, c] (x ++ a :: y) :=
            hbc.trans ((List.Sublist.refl x).append (List.sublist_cons_self a y))
          have hbr' := (hrange b (hbc.subset (by simp))).1 hbr
          exact (hrange c (hbc.subset (by simp))).2 (hall b c hb hbc' hbr')
      · -- The rest of the list is cut off.
        have hl₁ : l' = T.outside d t (n + 1) l₁ := hiff.2 fun b c hb hbc _ => by
          rw [htail] at hb
          exact absurd hbc (not_after_last (List.nodup_append.1 hnd).1 hb)
        have hax : a ∉ l₁ := fun hm => hnot (List.mem_append_left _ hm)
        have hsplit : T.outside d t (n + 1) (l₁ ++ a :: y) =
            T.outside d t (n + 1) l₁ ++ T.outside d t (n + 1) y := by
          unfold Tlb.outside
          rw [List.filter_append, List.filter_cons_of_neg (by simp [ha])]
        rw [hsplit, ← hl₁, eq_comm, List.append_right_eq_self, Tlb.outside, List.filter_eq_nil_iff]
        constructor
        · intro hall b c hb hbc _
          obtain rfl := Option.some.inj (heq.symm.trans hb)
          have hc := hall c ((after_iff hax).1 hbc)
          simpa using hc
        · intro hall c hc
          simpa using hall a c heq ((after_iff hax).2 hc) ha

/-! ## The loop -/

variable {vm vm' : Vm} {f k p phy pageTable : ℕ} {size : ℤ}

/-- The loop deletes the translations of its pages. -/
theorem freePages_tlb (n : ℕ) : ∀ {vm : Vm} {t phy : ℕ},
    freePages pageTable d n vm t phy = some vm' → deletePages d n vm.tlb t = some vm'.tlb := by
  induction n with
  | zero =>
    intro vm t phy hf
    rw [freePages, Option.some.injEq] at hf
    exact congrArg _ (congrArg Vm.tlb hf)
  | succ n ih =>
    intro vm t phy hf
    obtain ⟨mid, hfree, hf⟩ := Option.bind_eq_some_iff.1 hf
    obtain ⟨T, hdel, hmid⟩ := Option.bind_eq_some_iff.1 hfree
    obtain rfl := Option.some.inj hmid
    rw [deletePages, hdel]
    exact ih hf

/-- The rest of what the loop does is the same for all TLBs. -/
theorem freePages_withTlb (n : ℕ) : ∀ {vm : Vm} {T T' : Tlb} {t phy : ℕ},
    freePages pageTable d n vm t phy = some vm' → deletePages d n T t = some T' →
    freePages pageTable d n { vm with tlb := T } t phy = some { vm' with tlb := T' } := by
  induction n with
  | zero =>
    intro vm T T' t phy hf hd
    rw [freePages, Option.some.injEq] at hf
    rw [deletePages, Option.some.injEq] at hd
    rw [freePages, hf, hd]
  | succ n ih =>
    intro vm T T' t phy hf hd
    obtain ⟨mid, hfree, hf⟩ := Option.bind_eq_some_iff.1 hf
    obtain ⟨U, -, hmid⟩ := Option.bind_eq_some_iff.1 hfree
    obtain rfl := Option.some.inj hmid
    obtain ⟨T₁, hdel, hd⟩ := Option.bind_eq_some_iff.1 hd
    unfold freePages freePage
    rw [hdel]
    exact ih hf hd

/-- Only bits below 8 are cleared. -/
theorem freePages_bits (n : ℕ) : ∀ {vm : Vm} {t phy : ℕ},
    freePages pageTable d n vm t phy = some vm' →
    (∀ g, isSet vm'.phyBitmap g =
      (!decide (phy ≤ g ∧ g < phy + n ∧ g < 8) && isSet vm.phyBitmap g)) ∧
    ∀ i, isSet vm'.virtBitmap i =
      (!decide (d * 16384 + t ≤ i ∧ i < d * 16384 + t + n ∧ i < 8) && isSet vm.virtBitmap i) := by
  induction n with
  | zero =>
    intro vm t phy hf
    rw [freePages, Option.some.injEq] at hf
    subst hf
    refine ⟨fun g => ?_, fun i => ?_⟩
    · rw [decide_eq_false (by omega)]
      rfl
    · rw [decide_eq_false (by omega)]
      rfl
  | succ n ih =>
    intro vm t phy hf
    obtain ⟨mid, hfree, hf⟩ := Option.bind_eq_some_iff.1 hf
    obtain ⟨T, -, hmid⟩ := Option.bind_eq_some_iff.1 hfree
    obtain rfl := Option.some.inj hmid
    obtain ⟨hphy, hvirt⟩ := ih hf
    refine ⟨fun g => ?_, fun i => ?_⟩
    · rw [hphy, unsetBitAtIndex_bit, ← Bool.and_assoc, ← Bool.not_or, ← Bool.decide_or]
      exact congrArg (fun b => !b && _) (decide_eq_decide.2 (by omega))
    · rw [hvirt, unsetBitAtIndex_bit, layout_pageTableEntries, ← Bool.and_assoc, ← Bool.not_or,
        ← Bool.decide_or]
      exact congrArg (fun b => !b && _) (decide_eq_decide.2 (by omega))

/-- The address lies in the frame or the entry of a page. -/
def Vm.InPage (vm : Vm) (d t x : ℕ) : Prop :=
  vm.pte d t ≤ x ∧ x < vm.pte d t + pgSize ∨
    vm.pde d + pteSize * t ≤ x ∧ x < vm.pde d + pteSize * t + pteSize

/-- One page: its frame and its entry are zero after it, and nothing else changed. -/
theorem freePage_mem (hpde : vm.pde d ≠ 0) (hf : freePage vm (vm.pde d) d t phy = some vm')
    (x : ℕ) :
    (vm.InPage d t x → vm'.mem x = 0) ∧ (¬vm.InPage d t x → vm'.mem x = vm.mem x) := by
  obtain ⟨T, -, hvm'⟩ := Option.bind_eq_some_iff.1 hf
  obtain rfl := Option.some.inj hvm'
  dsimp only
  rw [Vm.word_eq_pte hpde]
  by_cases hword : vm.pde d + pteSize * t ≤ x ∧ x < vm.pde d + pteSize * t + pteSize
  · exact ⟨fun _ => Bytes.setNat_zero hword.1 hword.2, fun hnot => absurd (.inr hword) hnot⟩
  · have hset : ∀ b : Bytes, b.setNat (vm.pde d + pteSize * t) pteSize 0 x = b x := fun b =>
      Bytes.setNat_of_outside (by omega)
    rw [hset]
    refine ⟨fun hin => ?_, fun hout => ?_⟩
    · have hframe := hin.resolve_right hword
      exact Bytes.fill_of_inside hframe.1 hframe.2
    · exact Bytes.fill_of_outside (by
        unfold Vm.InPage at hout
        omega)

/-- The bytes that the loop changes. -/
theorem freePages_mem (n : ℕ) : ∀ {vm : Vm} {t phy : ℕ}, FramesApart vm → TlbAgrees vm → d < 4 →
    t + n ≤ 16384 → pageTable = vm.pde d → vm.pde d ≠ 0 → (∀ i < n, vm.pte d (t + i) ≠ 0) →
    freePages pageTable d n vm t phy = some vm' → ∀ x,
      ((∃ i < n, vm.InPage d (t + i) x) → vm'.mem x = 0) ∧
        ((∀ i < n, ¬vm.InPage d (t + i) x) → vm'.mem x = vm.mem x) := by
  induction n with
  | zero =>
    intro vm t phy _ _ _ _ _ _ _ hf x
    rw [freePages, Option.some.injEq] at hf
    constructor
    · rintro ⟨i, hi, -⟩
      exact absurd hi (Nat.not_lt_zero i)
    · intro
      rw [hf]
  | succ n ih =>
    intro vm t phy h htlb hd ht htable hpde hne hf x
    subst htable
    obtain ⟨mid, hcall, hmid⟩ := freePage_spec (t := t) (f := phy) h htlb hd (by omega) hpde
      (hne 0 (Nat.succ_pos n))
    have hone := freePage_mem hpde hcall x
    rw [freePages, hcall] at hf
    have hpte : ∀ i < n, mid.pte d (t + 1 + i) = vm.pte d (t + (i + 1)) := fun i hi => by
      rw [hmid.pte d hd _ (by omega), if_neg (by omega), show t + 1 + i = t + (i + 1) by omega]
    have hin : ∀ i < n, mid.InPage d (t + 1 + i) x ↔ vm.InPage d (t + (i + 1)) x := fun i hi => by
      unfold Vm.InPage
      rw [hpte i hi, hmid.pde d hd, show t + 1 + i = t + (i + 1) by omega]
    have hrest := ih hmid.apart hmid.tlb hd (by omega) (hmid.pde d hd).symm
      (by rwa [hmid.pde d hd]) (fun i hi => by
        rw [hpte i hi]
        exact hne (i + 1) (by omega)) hf x
    constructor
    · rintro ⟨i, hi, hpage⟩
      by_cases hlater : ∃ j < n, mid.InPage d (t + 1 + j) x
      · exact hrest.1 hlater
      · -- It is in the first page, and stays zero.
        have hnot : ∀ j < n, ¬mid.InPage d (t + 1 + j) x := fun j hj hj' => hlater ⟨j, hj, hj'⟩
        rw [hrest.2 hnot]
        rcases i with - | i
        · exact hone.1 hpage
        · exact absurd ((hin i (by omega)).2 hpage) (hnot i (by omega))
    · intro hnot
      rw [hrest.2 fun i hi hi' => hnot (i + 1) (by omega) ((hin i hi).1 hi')]
      exact hone.2 (hnot 0 (Nat.succ_pos n))

/-! ## `t_free` -/

/-- The pages from `p` on, `k` of them, are released, and nothing else changed: their entries are 0,
their translations are gone, their frames are zero and their bits are clear. -/
structure FreesExactly (vm vm' : Vm) (p k : ℕ) : Prop where
  start : vm'.memoryStart = vm.memoryStart
  dir : vm'.pageDir = vm.pageDir
  tables : ∀ d < 4, vm'.pde d = vm.pde d
  entries : ∀ i < 65536, vm'.pteAt i = if p ≤ i ∧ i < p + k then 0 else vm.pteAt i
  tlb : ∀ va pa, vm'.tlb.Translates va pa ↔
    vm.tlb.Translates va pa ∧ ∀ i < k, va ≠ (p + i) * pgSize
  zeroed : ∀ i < k, ∀ j < pgSize, vm'.mem (vm.pteAt (p + i) + j) = 0
  bytes : ∀ x, (∀ i < k, ¬vm.InPage ((p + i) / 16384) ((p + i) % 16384) x) →
    vm'.mem x = vm.mem x
  phy : ∀ f, isSet vm'.phyBitmap f = true ↔ isSet vm.phyBitmap f = true ∧
    ∀ i < k, vm.pteAt (p + i) ≠ frameAddr vm.memoryStart f
  virt : ∀ i, isSet vm'.virtBitmap i = true ↔
    isSet vm.virtBitmap i = true ∧ ¬(p ≤ i ∧ i < p + k)

/-- The pages are below 8, and so are their frames, which are those from the first page's frame on,
in any order; and the TLB has no other translation after one of the region that `tail` names. -/
structure FreeExactOk (vm : Vm) (va : ℕ) (size : ℤ) : Prop where
  pages : pageNumber va + pagesRequired size ≤ 8
  frames : ∀ i < pagesRequired size, ∃ f, vm.pteAt (pageNumber va + i) =
    frameAddr vm.memoryStart f ∧ firstFrame vm va ≤ f ∧
      f < firstFrame vm va + pagesRequired size ∧ f < 8
  tail : vm.tlb.TailOk (dirIndex va) (tableIndex va) (pagesRequired size)

/-- The call is refused, or runs its loop. -/
theorem tFree_loop (hlock : vm.mutex = false) (hf : tFree vm va size = some vm') :
    vm' = vm ∨ vm.pde (dirIndex va) ≠ 0 ∧ ∃ vm₁, vm' = vm₁.unlock ∧
      freePages (vm.pde (dirIndex va)) (dirIndex va) (pagesRequired size)
        { vm with mutex := true } (tableIndex va) (firstFrame vm va) = some vm₁ := by
  have hunlock : Vm.unlock { vm with mutex := true } = vm := by
    unfold Vm.unlock
    rw [← hlock]
  unfold tFree at hf
  simp only [Vm.lock, hlock, Bool.false_eq_true, if_false, Option.bind_eq_bind, Option.bind_some]
    at hf
  split_ifs at hf with h0 hrefused
  · exact .inl ((Option.some.inj hf).symm.trans hunlock)
  · exact .inl ((Option.some.inj hf).symm.trans hunlock)
  · obtain ⟨vm₁, hloop, heq⟩ := Option.bind_eq_some_iff.1 hf
    exact .inr ⟨fun hpde => h0 (.inr hpde), vm₁, (Option.some.inj heq).symm, hloop⟩

/-- The nodes that are left, and those that should be. -/
theorem translates_iff (h : TlbInv T P l) :
    T.Translates va pa ↔ ∃ a ∈ l, T.entryAt a = some (va, pa) := by
  constructor
  · rintro ⟨l', hc, a, ha, heq⟩
    rw [hc.unique h.chain] at ha
    exact ⟨a, ha, heq⟩
  · rintro ⟨a, ha, heq⟩
    exact ⟨l, h.chain, a, ha, heq⟩

/-- The translations left are those outside the range exactly when no other node is cut off. -/
theorem translates_outside {Q : ℕ → ℕ → Prop} (h : TlbInv T P l) (h' : TlbInv T' Q l')
    (hkept : ∀ b ∈ l', T'.entryAt b = T.entryAt b) (hsub : l'.Sublist (T.outside d t n l)) :
    (∀ va pa, T'.Translates va pa ↔ T.Translates va pa ∧
      ∀ i < n, va ≠ formVirtualAddress layout d (t + i)) ↔ l' = T.outside d t n l := by
  have hentry : ∀ a va pa, T.entryAt a = some (va, pa) → (T.InRange d t n a ↔
      ∃ i < n, va = formVirtualAddress layout d (t + i)) := by
    intro a va pa ha
    have hvaAt : T.vaAt a = some va := by
      obtain ⟨m, hm, heq⟩ := Option.map_eq_some_iff.1 ha
      rw [Prod.mk.injEq] at heq
      simp [Tlb.vaAt, hm, heq.1]
    unfold Tlb.InRange
    rw [hvaAt]
    simp
  constructor
  · intro hall
    -- A node outside the range has a translation, which is found again at the same node.
    have hsuper : ∀ a ∈ T.outside d t n l, a ∈ l' := by
      intro a ha
      obtain ⟨hal, hout⟩ := List.mem_filter.1 ha
      obtain ⟨m, hm⟩ := h.chain.exists_of_mem hal
      have hm' : T.entryAt a = some (m.va, m.pa) := by simp [Tlb.entryAt, hm]
      have hnot : ∀ i < n, m.va ≠ formVirtualAddress layout d (t + i) := fun i hi heq => by
        have hin := (hentry a _ _ hm').2 ⟨i, hi, heq⟩
        simp [hin] at hout
      obtain ⟨b, hb, heq⟩ := (translates_iff h').1
        ((hall m.va m.pa).2 ⟨(translates_iff h).2 ⟨a, hal, hm'⟩, hnot⟩)
      rw [hkept b hb] at heq
      have hbl : b ∈ l := (List.mem_filter.1 (hsub.subset hb)).1
      have hva : T.vaAt b = T.vaAt a := by
        obtain ⟨m', hb', heq'⟩ := Option.map_eq_some_iff.1 heq
        rw [Prod.mk.injEq] at heq'
        simp [Tlb.vaAt, hb', hm, heq'.1]
      exact List.inj_on_of_nodup_map h.distinct hbl hal hva ▸ hb
    have hnd : (T.outside d t n l).Nodup := h.chain.nodup.filter _
    exact hsub.eq_of_length_le (hnd.subperm hsuper).length_le
  · rintro rfl va pa
    rw [translates_iff h', translates_iff h]
    constructor
    · rintro ⟨a, ha, heq⟩
      rw [hkept a ha] at heq
      obtain ⟨hal, hout⟩ := List.mem_filter.1 ha
      refine ⟨⟨a, hal, heq⟩, fun i hi hva => ?_⟩
      have hin := (hentry a _ _ heq).2 ⟨i, hi, hva⟩
      simp [hin] at hout
    · rintro ⟨⟨a, hal, heq⟩, hnot⟩
      have hout : ¬T.InRange d t n a := fun hin => by
        obtain ⟨i, hi, hva⟩ := (hentry a _ _ heq).1 hin
        exact hnot i hi hva
      have ha : a ∈ T.outside d t n l := List.mem_filter.2 ⟨hal, by simp [hout]⟩
      exact ⟨a, ha, by rw [hkept a ha, heq]⟩

theorem freePages_dir (n : ℕ) : ∀ {vm : Vm} {t phy : ℕ},
    freePages pageTable d n vm t phy = some vm' → vm'.pageDir = vm.pageDir := by
  induction n with
  | zero =>
    intro vm t phy hf
    rw [freePages, Option.some.injEq] at hf
    exact (congrArg Vm.pageDir hf).symm
  | succ n ih =>
    intro vm t phy hf
    obtain ⟨mid, hfree, hf⟩ := Option.bind_eq_some_iff.1 hf
    obtain ⟨T, -, hmid⟩ := Option.bind_eq_some_iff.1 hfree
    obtain rfl := Option.some.inj hmid
    have hrest := ih hf
    exact hrest

/-- As many distinct numbers as an interval has are those of the interval. -/
theorem exists_of_interval {g : ℕ → ℕ} (hinj : ∀ i < k, ∀ j < k, g i = g j → i = j)
    (hmem : ∀ i < k, f ≤ g i ∧ g i < f + k) {x : ℕ} (hx : f ≤ x) (hx' : x < f + k) :
    ∃ i < k, g i = x := by
  have hmaps : Finset.image g (Finset.range k) ⊆ Finset.Ico f (f + k) := by
    intro y hy
    obtain ⟨i, hi, rfl⟩ := Finset.mem_image.1 hy
    exact Finset.mem_Ico.2 (hmem i (Finset.mem_range.1 hi))
  have hcard : (Finset.image g (Finset.range k)).card = k := by
    rw [Finset.card_image_of_injOn, Finset.card_range]
    intro i hi j hj heq
    exact hinj i (Finset.mem_range.1 hi) j (Finset.mem_range.1 hj) heq
  have heq := Finset.eq_of_subset_of_card_le hmaps (by
    rw [Nat.card_Ico, hcard]
    omega)
  have hin : x ∈ Finset.image g (Finset.range k) := by
    rw [heq]
    exact Finset.mem_Ico.2 ⟨hx, hx'⟩
  obtain ⟨i, hi, hgi⟩ := Finset.mem_image.1 hin
  exact ⟨i, Finset.mem_range.1 hi, hgi⟩

/-- The frames of the region are those whose bits are cleared. -/
theorem FreeExactOk.frame_iff (hok : FreeExactOk vm va size) (h : FramesApart vm)
    (hfits : pageNumber va + pagesRequired size ≤ 65536)
    (hmap : ∀ i < pagesRequired size, vm.pteAt (pageNumber va + i) ≠ 0) :
    (firstFrame vm va ≤ f ∧ f < firstFrame vm va + pagesRequired size ∧ f < 8) ↔
      ∃ i < pagesRequired size, vm.pteAt (pageNumber va + i) = frameAddr vm.memoryStart f := by
  constructor
  · rintro ⟨h1, h2, -⟩
    choose! g hg using hok.frames
    have hinj : ∀ i < pagesRequired size, ∀ j < pagesRequired size, g i = g j → i = j := by
      intro i hi j hj heq
      have hsame : vm.pteAt (pageNumber va + i) = vm.pteAt (pageNumber va + j) := by
        rw [(hg i hi).1, (hg j hj).1, heq]
      have := h.page_unique (by omega) (by omega) (hmap i hi) hsame
      omega
    obtain ⟨i, hi, rfl⟩ := exists_of_interval hinj
      (fun i hi => ⟨(hg i hi).2.1, (hg i hi).2.2.1⟩) h1 h2
    exact ⟨i, hi, (hg i hi).1⟩
  · rintro ⟨i, hi, heq⟩
    obtain ⟨g, hg, h1, h2, h3⟩ := hok.frames i hi
    rw [hg, frameAddr_inj] at heq
    exact heq ▸ ⟨h1, h2, h3⟩

/-- The virtual address of a page of the region, when it lies in one page table. -/
theorem form_page {i : ℕ} (hva : va < 2 ^ 32) (hi : tableIndex va + i < 16384) :
    formVirtualAddress layout (dirIndex va) (tableIndex va + i) =
      (pageNumber va + i) * pgSize := by
  have hd := dirIndex_lt va
  rw [formVirtualAddress_layout, pageNumber_eq hva, Nat.mod_eq_of_lt hd, Nat.mod_eq_of_lt hi,
    pgSize]
  ring

/-- **Release.** Under the condition, the call frees exactly its region. -/
theorem FreeExactOk.frees {P : ℕ → ℕ → Prop} (hok : FreeExactOk vm va size) (h : FramesApart vm)
    (htlb : TlbInv vm.tlb P l) (hlock : vm.mutex = false) (hva : va < 2 ^ 32)
    (hmap : ∀ i < pagesRequired size, vm.pteAt (pageNumber va + i) ≠ 0)
    (hpde : vm.pde (dirIndex va) ≠ 0) :
    ∃ vm', tFree vm va size = some vm' ∧
      FreesExactly vm vm' (pageNumber va) (pagesRequired size) := by
  have hd := dirIndex_lt va
  have hpage := pageNumber_eq hva
  have hpages := hok.pages
  have ht : tableIndex va + pagesRequired size ≤ 16384 := by omega
  have hpte : ∀ i < pagesRequired size,
      vm.pte (dirIndex va) (tableIndex va + i) = vm.pteAt (pageNumber va + i) := fun i hi => by
    rw [hpage, Nat.add_assoc, Vm.pteAt_fields (by omega)]
  -- The loop with an empty TLB, which does the same to the memory.
  have hempty : FramesApart { vm with mutex := true, tlb := Tlb.empty } :=
    ⟨⟨h.start, h.fits⟩, h.frames⟩
  have hne : ∀ i < pagesRequired size, vm.pte (dirIndex va) (tableIndex va + i) ≠ 0 := by
    intro i hi
    rw [hpte i hi]
    exact hmap i hi
  obtain ⟨vm₂, hloop, hfreed⟩ := freePages_spec (f := firstFrame vm va) hempty (.empty rfl) hd ht
    rfl hpde hne
  have hdir := freePages_dir _ hloop
  have hmem := freePages_mem _ hempty (.empty rfl) hd ht rfl hpde hne hloop
  obtain ⟨T', l', hdel, hinv, hkept, hsub, hiff⟩ :=
    deletePages_spec (d := dirIndex va) (pagesRequired size) (t := tableIndex va) htlb
  have hcall := freePages_withTlb (T := vm.tlb) _ hloop hdel
  have hword : ∀ i, vm.word (vm.pde (dirIndex va)) (tableIndex va + i) =
      vm.pte (dirIndex va) (tableIndex va + i) := fun i => Vm.word_eq_pte hpde
  refine ⟨Vm.unlock { vm₂ with tlb := T' }, ?_, {
    start := hfreed.start
    dir := hdir
    tables := hfreed.pde
    entries := fun i hi => ?_
    tlb := ?_
    zeroed := fun i hi j hj => ?_
    bytes := fun x hx => ?_
    phy := fun f => ?_
    virt := fun i => ?_ }⟩
  · unfold tFree
    simp only [Vm.lock, hlock, Bool.false_eq_true, if_false, Option.bind_eq_bind, Option.bind_some]
    have h0 : ¬(vm.memoryStart = 0 ∨ vm.pde (dirIndex va) = 0) :=
      not_or.2 ⟨h.start.ne', hpde⟩
    have hall : ¬∃ i < pagesRequired size,
        vm.word (vm.pde (dirIndex va)) (tableIndex va + i) = 0 := by
      rintro ⟨i, hi, hz⟩
      exact hne i hi ((hword i).symm.trans hz)
    refine (if_neg h0).trans ((if_neg hall).trans ?_)
    exact (congrArg (Option.bind · _) hcall).trans rfl
  · have hentry := hfreed.pte (i / 16384) (by omega) (i % 16384) (by omega)
    refine hentry.trans (if_congr (by omega) rfl rfl)
  · have hexact := (translates_outside htlb hinv hkept hsub).2 (hiff.2 hok.tail)
    intro v q
    rw [show Vm.tlb (Vm.unlock { vm₂ with tlb := T' }) = T' from rfl, hexact]
    refine and_congr_right fun _ => forall_congr' fun i => forall_congr' fun hi => ?_
    rw [form_page hva (by omega)]
  · refine (hmem _).1 ⟨i, hi, .inl ?_⟩
    have hsame : Vm.pte { vm with mutex := true, tlb := Tlb.empty } (dirIndex va)
        (tableIndex va + i) = vm.pteAt (pageNumber va + i) := hpte i hi
    rw [hsame]
    omega
  · refine (hmem x).2 fun i hi => ?_
    have hnot := hx i hi
    rw [show (pageNumber va + i) / 16384 = dirIndex va by omega,
      show (pageNumber va + i) % 16384 = tableIndex va + i by omega] at hnot
    exact hnot
  · have hbit := hfreed.phy f
    have hiff := hok.frame_iff (f := f) h (by omega) hmap
    change isSet vm₂.phyBitmap f = true ↔ _
    rw [hbit, Bool.and_eq_true, Bool.not_eq_true', decide_eq_false_iff_not, hiff, and_comm]
    push Not
    rfl
  · have hbit := hfreed.virt i
    change isSet vm₂.virtBitmap i = true ↔ _
    rw [hbit, Bool.and_eq_true, Bool.not_eq_true', decide_eq_false_iff_not, and_comm]
    refine and_congr_right fun _ => not_congr ?_
    omega

/-- **When `t_free` releases exactly its region.** -/
theorem tFree_exact {P : ℕ → ℕ → Prop} (h : FramesApart vm) (htlb : TlbInv vm.tlb P l)
    (hlock : vm.mutex = false) (hva : va < 2 ^ 32) (hsize : 1 ≤ size)
    (hfits : pageNumber va + pagesRequired size ≤ 65536)
    (hmap : ∀ i < pagesRequired size, vm.pteAt (pageNumber va + i) ≠ 0)
    (hphy : ∀ i < pagesRequired size, ∃ f, vm.pteAt (pageNumber va + i) =
      frameAddr vm.memoryStart f ∧ isSet vm.phyBitmap f = true)
    (hvirt : ∀ i < pagesRequired size, isSet vm.virtBitmap (pageNumber va + i) = true) :
    (∃ vm', tFree vm va size = some vm' ∧
      FreesExactly vm vm' (pageNumber va) (pagesRequired size)) ↔ FreeExactOk vm va size := by
  have hk : 0 < pagesRequired size := by
    unfold pagesRequired pgSize
    omega
  have hpage := pageNumber_eq hva
  have hp0 : vm.pteAt (pageNumber va) ≠ 0 := hmap 0 hk
  have hpde : vm.pde (dirIndex va) ≠ 0 := fun h0 => hp0 (by
    rw [hpage, Vm.pteAt_fields (tableIndex_lt va)]
    exact pte_of_pde_zero h0)
  refine ⟨?_, fun hok => hok.frees h htlb hlock hva hmap hpde⟩
  rintro ⟨vm', hf, he⟩
  obtain rfl | ⟨-, vm₁, rfl, hloop⟩ := tFree_loop hlock hf
  · -- The call was refused.
    have hentry := he.entries (pageNumber va) (by omega)
    rw [if_pos ⟨le_rfl, by omega⟩] at hentry
    exact absurd hentry hp0
  obtain ⟨hphys, hvirts⟩ := freePages_bits _ hloop
  have hpages : pageNumber va + pagesRequired size ≤ 8 := by
    have hlast := hvirts (pageNumber va + (pagesRequired size - 1))
    have hclear := he.virt (pageNumber va + (pagesRequired size - 1))
    change isSet vm₁.virtBitmap _ = true ↔ _ at hclear
    rw [hlast] at hclear
    have hset := hvirt (pagesRequired size - 1) (by omega)
    rw [Bool.and_eq_true, Bool.not_eq_true', decide_eq_false_iff_not] at hclear
    by_contra hbig
    exact (hclear.1 ⟨by omega, hset⟩).2 (by omega)
  refine ⟨hpages, fun i hi => ?_, ?_⟩
  · obtain ⟨f, heq, hset⟩ := hphy i hi
    refine ⟨f, heq, ?_⟩
    have hclear := he.phy f
    change isSet vm₁.phyBitmap f = true ↔ _ at hclear
    rw [hphys, Bool.and_eq_true, Bool.not_eq_true', decide_eq_false_iff_not] at hclear
    by_contra hout
    exact (hclear.1 ⟨hout, hset⟩).2 i hi heq
  · obtain ⟨T', l', hdel, hinv, hkept, hsub, hiff⟩ :=
      deletePages_spec (d := dirIndex va) (pagesRequired size) (t := tableIndex va) htlb
    have hleft := freePages_tlb _ hloop
    obtain rfl := Option.some.inj (hdel.symm.trans hleft)
    refine hiff.1 ((translates_outside htlb hinv hkept hsub).1 fun v q => ?_)
    refine (he.tlb v q).trans (and_congr_right fun _ => ?_)
    refine forall_congr' fun i => forall_congr' fun hi => ?_
    rw [form_page hva (by omega)]

/-- A region of two pages whose frames follow each other, freed after it was allocated. -/
theorem tFree_exact_two_pages : ∃ vm vm' vm'', tMalloc 4096 Vm.start 1 = some (vm, 0) ∧
    tMalloc 4096 vm 131072 = some (vm', 65536) ∧ tFree vm' 65536 131072 = some vm'' ∧
    FreesExactly vm' vm'' 1 2 := by
  have hserved : served 4096 Vm.start 1 := by decide +kernel
  have hvalue : (tMalloc 4096 Vm.start 1).any fun r => r.2 = 0 && r.1.memoryStart = 4096 &&
      served 4096 r.1 131072 && (tMalloc 4096 r.1 131072).any fun r' => r'.2 = 65536 &&
        r'.1.memoryStart = 4096 && r'.1.mutex = false && r'.1.pteAt 1 = frameAddr 4096 3 &&
        r'.1.pteAt 2 = frameAddr 4096 4 && isSet r'.1.phyBitmap 3 && isSet r'.1.phyBitmap 4 &&
        isSet r'.1.virtBitmap 1 && isSet r'.1.virtBitmap 2 && firstFrame r'.1 65536 = 3 &&
        r'.1.tlb.head = none := by decide +kernel
  obtain ⟨⟨vm, va⟩, hm, hvalue⟩ := (Option.any_eq_true _ _).1 hvalue
  simp only [Bool.and_eq_true, decide_eq_true_eq] at hvalue
  obtain ⟨⟨⟨rfl, hstart₀⟩, hserved'⟩, hvalue⟩ := hvalue
  obtain ⟨⟨vm', va'⟩, hm', hvalue⟩ := (Option.any_eq_true _ _).1 hvalue
  simp only [Bool.and_eq_true, decide_eq_true_eq] at hvalue
  obtain ⟨⟨⟨⟨⟨⟨⟨⟨⟨⟨rfl, hstart⟩, hmutex⟩, hpte₁⟩, hpte₂⟩, hphy₁⟩, hphy₂⟩, hvirt₁⟩, hvirt₂⟩, hfirst⟩,
    hhead⟩ := hvalue
  have htwo : Run (Guarded MemOp.Ok MemOp.Step) ⟨Vm.start, []⟩
      ([.malloc 4096 1] ++ [.malloc 4096 131072]) ⟨vm', [(65536, 131072), (0, 1)]⟩ :=
    (Run.single ⟨trivial, .malloc (by decide) (fun _ => by decide) hserved hm⟩).snoc
      ⟨trivial, .malloc (by decide)
        (fun h0 => absurd (hstart₀.symm.trans h0) (by decide)) hserved' hm'⟩
  have hok : MemOk vm' :=
    (RegionsOk.run ⟨rfl, rfl, rfl⟩ htwo).memOk (r := (65536, 131072)) (by simp)
  obtain ⟨-, l, htlb⟩ := hok.tlb
  have hk : pagesRequired (131072 : ℤ) = 2 := by decide
  have hpage : pageNumber 65536 = 1 := by decide
  have hframe : ∀ i < pagesRequired (131072 : ℤ),
      vm'.pteAt (pageNumber 65536 + i) = frameAddr vm'.memoryStart (3 + i) ∧
      isSet vm'.phyBitmap (3 + i) = true ∧ isSet vm'.virtBitmap (pageNumber 65536 + i) = true := by
    intro i hi
    rw [hk] at hi
    rw [hpage, hstart]
    obtain rfl | rfl : i = 0 ∨ i = 1 := by omega
    · exact ⟨hpte₁, hphy₁, hvirt₁⟩
    · exact ⟨hpte₂, hphy₂, hvirt₂⟩
  have hexact := tFree_exact hok.frames.apart htlb hmutex (show 65536 < 2 ^ 32 by decide)
    (show (1 : ℤ) ≤ 131072 by decide) (by decide)
    (fun i hi => by
      rw [(hframe i hi).1, hstart]
      unfold frameAddr pgSize
      rw [hk] at hi
      omega)
    (fun i hi => ⟨3 + i, (hframe i hi).1, (hframe i hi).2.1⟩)
    (fun i hi => (hframe i hi).2.2)
  obtain ⟨vm'', hf, hfrees⟩ := hexact.2 {
    pages := by decide
    frames := fun i hi => by
      refine ⟨3 + i, (hframe i hi).1, ?_⟩
      rw [hfirst]
      rw [hk] at hi ⊢
      omega
    tail := fun l b c hc _ hbc => by
      rw [hhead] at hc
      rw [hc.eq_nil_iff.2 rfl] at hbc
      exact absurd (hbc.subset List.mem_cons_self) List.not_mem_nil }
  rw [hk, hpage] at hfrees
  exact ⟨vm, vm', vm'', hm, hm', hf, hfrees⟩

/-- **The defect.** A region of two pages has the frames 1 and 3, and the page table between them
frame 2. Freeing it clears the bit of frame 2 and leaves the bit of frame 3 set. -/
theorem tFree_clears_other : ∃ vm vm', tMalloc 4096 Vm.start 131072 = some (vm, 0) ∧
    vm.pteAt 0 = frameAddr vm.memoryStart 1 ∧ vm.pteAt 1 = frameAddr vm.memoryStart 3 ∧
    tFree vm 0 131072 = some vm' ∧ isSet vm'.phyBitmap 2 = false ∧ isSet vm'.phyBitmap 3 = true ∧
    ¬∃ vm', tFree vm 0 131072 = some vm' ∧ FreesExactly vm vm' 0 2 := by
  have hvalue : ((tMalloc 4096 Vm.start 131072).bind fun r => (tFree r.1 r.2 131072).map fun vm' =>
      (r.2, r.1.memoryStart, r.1.pteAt 0, r.1.pteAt 1, isSet vm'.phyBitmap 2,
        isSet vm'.phyBitmap 3)) =
        some (0, 4096, frameAddr 4096 1, frameAddr 4096 3, false, true) := by decide +kernel
  obtain ⟨⟨vm, va⟩, hm, hvalue⟩ := Option.bind_eq_some_iff.1 hvalue
  obtain ⟨vm', hf, hvalue⟩ := Option.map_eq_some_iff.1 hvalue
  simp only [Prod.mk.injEq] at hvalue
  obtain ⟨rfl, hstart, hpte0, hpte1, hbit2, hbit3⟩ := hvalue
  refine ⟨vm, vm', hm, hstart ▸ hpte0, hstart ▸ hpte1, hf, hbit2, hbit3, ?_⟩
  rintro ⟨u, hu, he⟩
  obtain rfl := Option.some.inj (hu.symm.trans hf)
  -- The frame of the second page keeps its bit.
  have hclear := ((he.phy 3).1 hbit3).2 1 (by decide)
  exact hclear (by rw [hpte1, hstart])

end UserOS.MyVm
