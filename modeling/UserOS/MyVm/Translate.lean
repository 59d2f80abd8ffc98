import UserOS.Lib.Run
import UserOS.MyVm.Tables

/-!
# The TLB agrees with the page walk

`translate` asks the TLB first and walks the page tables on a miss. `pageWalk` is the walk alone.
The TLB agrees with the tables when every translation it holds is a non-zero entry of the tables
under the address of its page (`TlbAgrees`): each kind of step keeps this.

* `translate_spec`: a translation yields what the walk yields.
* `TlbOp.step_agrees`: each step keeps the agreement.
* `translate_refines_walk`: the agreement, and the shape of the list, over whole runs.
-/

namespace UserOS.MyVm

open Lib

/-! ## Translation and release -/

/-- `translate`. The result is the entry that the pointer returned points to. -/
def translate (μ : Malloc TlbNode) (vm : Vm) (va : ℕ) : Option (Vm × Option ℕ) :=
  let d := dirIndex va
  let t := tableIndex va
  do
    let (tlb, physicalAddress) ← checkTlb vm.tlb (formVirtualAddress layout d t)
    let vm := { vm with tlb := tlb }
    match physicalAddress with
    | some pa => some (vm, some pa)
    | none =>
      if vm.pageDir = 0 then none
      else if vm.pde d = 0 then some (vm, none)
      else
        let entry := vm.mem.getNat (vm.pde d + pteSize * t) pteSize
        if entry = 0 then some (vm, none)
        else do
          let tlb ← addTlb μ vm.tlb (formVirtualAddress layout d t) entry
          some ({ vm with tlb := tlb }, some entry)

/-- The walk of the page directory and the page table, without the TLB. -/
def pageWalk (vm : Vm) (va : ℕ) : Option ℕ :=
  let entry := vm.pte (dirIndex va) (tableIndex va)
  if entry = 0 then none else some entry

/-- The part of `t_free` that unmaps the page `t` of directory slot `d`: its translation leaves
the TLB, then its entry is cleared. -/
def releasePage (vm : Vm) (d t : ℕ) : Option Vm := do
  let tlb ← deleteFromTlb vm.tlb (formVirtualAddress layout d t)
  let vm := { vm with tlb := tlb }
  if vm.pde d = 0 then none else some (vm.storePte d t 0)

/-! ## Agreement -/

/-- `pa` is the non-zero entry of the page at `va`. -/
def Cached (pte : ℕ → ℕ → ℕ) (va pa : ℕ) : Prop :=
  formVirtualAddress layout (dirIndex va) (tableIndex va) = va ∧ pa ≠ 0 ∧
    pte (dirIndex va) (tableIndex va) = pa

/-- The list read from the head of the TLB is well formed, and every translation in it is an entry
of the page tables. -/
def TlbAgrees (vm : Vm) : Prop :=
  vm.tlb.entries = tlbEntries ∧ ∃ l, TlbInv vm.tlb (Cached vm.pte) l

variable {μ : Malloc TlbNode} {vm vm' : Vm} {d t va pa : ℕ}

theorem pte_eq_getNat (h : vm.pde d ≠ 0) :
    vm.pte d t = vm.mem.getNat (vm.pde d + pteSize * t) pteSize := if_neg h

theorem pte_of_pde_zero (h : vm.pde d = 0) : vm.pte d t = 0 := if_pos h

theorem dirIndex_form (hd : d < 4) :
    dirIndex (formVirtualAddress layout d t) = d := by
  rw [formVirtualAddress_layout, dirIndex_eq]
  omega

theorem tableIndex_form (ht : t < 16384) :
    tableIndex (formVirtualAddress layout d t) = t := by
  rw [formVirtualAddress_layout, tableIndex_eq]
  omega

/-- The address that stands for a page in the TLB has the fields of every address of the page. -/
theorem cached_form {pte : ℕ → ℕ → ℕ} : Cached pte (formVirtualAddress layout (dirIndex va)
    (tableIndex va)) pa ↔ pa ≠ 0 ∧ pte (dirIndex va) (tableIndex va) = pa := by
  unfold Cached
  rw [dirIndex_form (dirIndex_lt va), tableIndex_form (tableIndex_lt va)]
  simp

theorem pageWalk_eq_some : pageWalk vm va = some pa ↔
    pa ≠ 0 ∧ vm.pte (dirIndex va) (tableIndex va) = pa := by
  unfold pageWalk
  grind

theorem TlbAgrees.empty (h : vm.tlb = Tlb.empty) : TlbAgrees vm := by
  rw [TlbAgrees, h]
  refine ⟨rfl, [], rfl, by simp, by simp, ?_, ?_, fun _ => ?_⟩ <;> decide

/-- Entries that are the same on the cached pages keep the agreement. -/
theorem TlbAgrees.congr (h : TlbAgrees vm) (htlb : vm'.tlb = vm.tlb)
    (hpte : ∀ d < 4, ∀ t < 16384, vm.pte d t ≠ 0 → vm'.pte d t = vm.pte d t) : TlbAgrees vm' := by
  obtain ⟨hent, l, hl⟩ := h
  rw [TlbAgrees, htlb]
  refine ⟨hent, l, hl.mono fun v p hp => ?_⟩
  obtain ⟨hform, hp0, hpte'⟩ := hp
  refine ⟨hform, hp0, ?_⟩
  rw [hpte _ (dirIndex_lt v) _ (tableIndex_lt v) (by rwa [hpte'])]
  exact hpte'

/-- **Translation.** It always returns, with the result of the page walk, and changes the TLB
only. -/
theorem translate_spec (μ : Malloc TlbNode) (h : TlbAgrees vm) (hdir : vm.pageDir ≠ 0) (va : ℕ) :
    ∃ T, translate μ vm va = some ({ vm with tlb := T }, pageWalk vm va) ∧
      TlbAgrees { vm with tlb := T } := by
  obtain ⟨hent, l, hl⟩ := h
  unfold translate
  obtain ⟨T, l', pa, hcheck, hinv, hent', hP⟩ | ⟨T, hcheck, hinv, hent'⟩ :=
    checkTlb_spec hl (formVirtualAddress layout (dirIndex va) (tableIndex va))
  · refine ⟨T, ?_, hent'.trans hent, l', hinv⟩
    simp only [hcheck, Option.bind_eq_bind, Option.bind_some]
    rw [pageWalk_eq_some.2 (cached_form.1 hP)]
  · simp only [hcheck, Option.bind_eq_bind, Option.bind_some, if_neg hdir]
    have hkeep : TlbAgrees { vm with tlb := T } :=
      ⟨hent'.trans hent, l, hinv.mono fun _ _ hp => hp.1⟩
    by_cases hpde : vm.pde (dirIndex va) = 0
    · refine ⟨T, ?_, hkeep⟩
      rw [if_pos (show Vm.pde { vm with tlb := T } _ = 0 from hpde)]
      simp [pageWalk, pte_of_pde_zero hpde]
    · rw [if_neg (show ¬ Vm.pde { vm with tlb := T } _ = 0 from hpde)]
      have hentry := pte_eq_getNat (t := tableIndex va) hpde
      by_cases hz : vm.pte (dirIndex va) (tableIndex va) = 0
      · refine ⟨T, ?_, hkeep⟩
        rw [if_pos (by rw [← hz, hentry]; rfl)]
        simp [pageWalk, hz]
      · rw [if_neg (by rw [hentry] at hz; exact hz)]
        obtain ⟨T', l', hadd, hinv', hent''⟩ := addTlb_spec μ hinv
          (cached_form.2 ⟨hz, rfl⟩ : Cached vm.pte _ (vm.pte (dirIndex va) (tableIndex va)))
        refine ⟨T', ?_, hent''.trans (hent'.trans hent), l', hinv'⟩
        rw [hentry] at hadd
        rw [pageWalk_eq_some.2 ⟨hz, rfl⟩, hentry]
        exact (congrArg (Option.bind · _) hadd).trans rfl

/-- **Release.** The page is no longer mapped, and the other entries are the old ones. -/
theorem releasePage_spec (h : TablesOk vm) (htlb : TlbAgrees vm) (hd : d < 4) (ht : t < 16384)
    (hr : releasePage vm d t = some vm') :
    ∃ T, vm.pde d ≠ 0 ∧ vm' = Vm.storePte { vm with tlb := T } d t 0 ∧ TlbAgrees vm' := by
  obtain ⟨hent, l, hl⟩ := htlb
  obtain ⟨T, l', hdel, hinv, hent'⟩ := deleteFromTlb_spec hl (formVirtualAddress layout d t)
  unfold releasePage at hr
  rw [hdel] at hr
  simp only [Option.bind_eq_bind, Option.bind_some, Option.ite_none_left_eq_some,
    Option.some.injEq] at hr
  obtain ⟨hpde, rfl⟩ := hr
  refine ⟨T, hpde, rfl, hent'.trans hent, l', hinv.mono fun v p hp => ?_⟩
  obtain ⟨⟨hform, hp0, hpte⟩, hne⟩ := hp
  refine ⟨hform, hp0, ?_⟩
  have hmid : TablesOk { vm with tlb := T } := ⟨⟨h.start, h.fits⟩, h.tables⟩
  rw [Vm.pte_storePte hmid.apart hd ht hpde (by decide) (dirIndex_lt v) (tableIndex_lt v), if_neg]
  · exact hpte
  · rintro ⟨rfl, rfl⟩
    exact hne hform.symm

/-! ## Runs -/

/-- Stores elsewhere: outside the frames of the page directory and the page tables, with no frame
unmarked. -/
structure Elsewhere (vm vm' : Vm) : Prop where
  start : vm'.memoryStart = vm.memoryStart
  dir : vm'.pageDir = vm.pageDir
  tlb : vm'.tlb = vm.tlb
  mem : ∀ o a, vm.tableOwns o = some a → ∀ k < pgSize, vm'.mem (a + k) = vm.mem (a + k)
  marked : ∀ f, isSet vm.phyBitmap f = true → isSet vm'.phyBitmap f = true

theorem Elsewhere.pde (he : Elsewhere vm vm') (hd : d < 4) : vm'.pde d = vm.pde d :=
  Vm.pde_congr he.dir hd fun k hk => he.mem .dir _ rfl k (by unfold pgSize; omega)

theorem Elsewhere.pte (he : Elsewhere vm vm') (hd : d < 4) (ht : t < 16384) :
    vm'.pte d t = vm.pte d t :=
  Vm.pte_congr (he.pde hd) fun h0 k hk => by
    rw [Nat.add_assoc]
    exact he.mem _ _ (TablesApart.tableOwns_table hd h0) _ (by unfold pgSize; omega)

theorem Elsewhere.owns (he : Elsewhere vm vm') : vm'.owns = vm.owns :=
  Vm.owns_congr he.dir (fun _ => he.pde) fun _ hd _ => he.pte hd

theorem Elsewhere.tablesOk (he : Elsewhere vm vm') (h : TablesOk vm) : TablesOk vm' where
  start := he.start ▸ h.start
  fits := he.start ▸ h.fits
  tables := by
    have htables : vm'.tableOwns = vm.tableOwns := by unfold Vm.tableOwns; rw [he.owns]
    rw [htables]
    refine h.tables.mono fun a ha => ?_
    obtain ⟨f, hf, rfl, hset⟩ := ha
    exact ⟨f, hf, by rw [he.start], he.marked f hset⟩

/-- The steps: calls of `translate` and `page_map`, releases of a page inside one page table, and
stores elsewhere. -/
inductive TlbOp
  | translate (va : ℕ)
  | pageMap (va pa : ℕ)
  | release (d t : ℕ)
  | elsewhere
  deriving DecidableEq, Repr

/-- One step. A call that reads through a null pointer has no step. -/
inductive TlbOp.Step (μ : Malloc TlbNode) : Vm → TlbOp → Vm → Prop
  | translate {vm vm' : Vm} {va : ℕ} {entry : Option ℕ} :
    MyVm.translate μ vm va = some (vm', entry) → Step μ vm (.translate va) vm'
  | pageMap {vm vm' : Vm} {va pa : ℕ} {status : ℤ} :
    pa < 2 ^ 32 → MyVm.pageMap vm va pa = some (vm', status) → Step μ vm (.pageMap va pa) vm'
  | release {vm vm' : Vm} {d t : ℕ} :
    d < layout.pageDirEntries → t < layout.pageTableEntries → releasePage vm d t = some vm' →
    Step μ vm (.release d t) vm'
  | elsewhere {vm vm' : Vm} : Elsewhere vm vm' → Step μ vm .elsewhere vm'

theorem TablesOk.withTlb (h : TablesOk vm) (T : Tlb) : TablesOk { vm with tlb := T } :=
  ⟨⟨h.start, h.fits⟩, h.tables⟩

theorem TlbOp.step_agrees {op : TlbOp} (h : TablesOk vm) (htlb : TlbAgrees vm)
    (hstep : Step μ vm op vm') : TablesOk vm' ∧ TlbAgrees vm' := by
  cases hstep with
  | translate hcall =>
    obtain ⟨T, hspec, hagrees⟩ := translate_spec μ htlb h.apart.pageDir_pos.ne' _
    rw [hspec, Option.some.injEq, Prod.mk.injEq] at hcall
    rw [← hcall.1]
    exact ⟨h.withTlb T, hagrees⟩
  | pageMap hpa hcall =>
    obtain ⟨hok, heq, hpte⟩ := pageMap_spec h hpa hcall
    refine ⟨hok, htlb.congr heq fun d hd t ht h0 => ?_⟩
    rw [hpte d hd t ht, if_neg fun hh => h0 hh.2]
  | release hd ht hcall =>
    rw [layout_pageDirEntries] at hd
    rw [layout_pageTableEntries] at ht
    obtain ⟨T, hpde, rfl, hagrees⟩ := releasePage_spec h htlb hd ht hcall
    exact ⟨Vm.storePte_tablesOk (h.withTlb T) hd ht hpde (by decide), hagrees⟩
  | elsewhere he =>
    exact ⟨he.tablesOk h, htlb.congr he.tlb fun d hd t ht _ => he.pte hd ht⟩

theorem TlbOp.run_agrees {ops : List TlbOp} (h : TablesOk vm) (htlb : TlbAgrees vm)
    (hrun : Run (TlbOp.Step μ) vm ops vm') : TablesOk vm' ∧ TlbAgrees vm' :=
  hrun.invariant (I := fun vm => TablesOk vm ∧ TlbAgrees vm) ⟨h, htlb⟩
    fun _ _ _ hI hs => TlbOp.step_agrees hI.1 hI.2 hs

/-- **The TLB agrees with the page walk.** In every state reached from an empty TLB the list is a
finite chain of distinct nodes with distinct addresses, within the capacity, each holding the
current entry of its page; so `translate` always returns what the walk returns. -/
theorem translate_refines_walk {ops : List TlbOp} (h : TablesOk vm) (hempty : vm.tlb = Tlb.empty)
    (hrun : Run (TlbOp.Step μ) vm ops vm') :
    (∃ l, Chain vm'.tlb.nodes TlbNode.next vm'.tlb.head l ∧ l.Nodup ∧ l.length ≤ tlbEntries ∧
      (l.map vm'.tlb.vaAt).Nodup ∧ ∀ a ∈ l, ∀ n, vm'.tlb.nodes a = some n →
        n.pa = vm'.pte (dirIndex n.va) (tableIndex n.va)) ∧
    ∀ va, ∃ vm'', translate μ vm' va = some (vm'', pageWalk vm' va) := by
  obtain ⟨hok, hagrees⟩ := TlbOp.run_agrees h (.empty hempty) hrun
  refine ⟨?_, fun va => ?_⟩
  · obtain ⟨hent, l, hl⟩ := hagrees
    exact ⟨l, hl.chain, hl.chain.nodup, hent ▸ hl.length_le, hl.distinct,
      fun a ha n hn => (hl.holds a ha n hn).2.2.symm⟩
  · obtain ⟨T, hspec, -⟩ := translate_spec μ hagrees hok.apart.pageDir_pos.ne' va
    exact ⟨_, hspec⟩

/-- A page that was mapped is translated, first on a miss. -/
theorem translate_refines_walk_mapped : ∃ vm₀ vm,
    Run (TlbOp.Step (.bump _)) vm₀ [.pageMap 65536 131072, .translate 65536] vm ∧
      pageWalk vm 65536 = some 131072 ∧
      ∃ vm', translate (.bump _) vm 65536 = some (vm', pageWalk vm 65536) := by
  have hsome : ((setPhysicalMem 4096 Vm.start).bind fun vm => pageMap vm 65536 131072).isSome := rfl
  obtain ⟨⟨vm₁, status⟩, hmap⟩ := Option.isSome_iff_exists.1 hsome
  obtain ⟨vm₀, hset, hmap⟩ := Option.bind_eq_some_iff.1 hmap
  have hfresh := setPhysicalMem_spec (by decide) hset
  obtain ⟨hok, htlb, hpte⟩ := pageMap_spec hfresh.frames.tablesOk (by decide) hmap
  obtain ⟨T, htr, -⟩ := translate_spec (.bump _) (.empty (htlb.trans hfresh.tlb))
    hok.apart.pageDir_pos.ne' 65536
  have hrun : Run (TlbOp.Step (.bump _)) vm₀ [.pageMap 65536 131072, .translate 65536] _ :=
    (Run.single (.pageMap (by decide) hmap)).append (Run.single (.translate htr))
  have hwalk : pageWalk vm₁ 65536 = some 131072 := by
    rw [pageWalk_eq_some, hpte _ (dirIndex_lt _) _ (tableIndex_lt _),
      pte_of_pde_zero (hfresh.pde _ (dirIndex_lt _))]
    simp
  exact ⟨vm₀, _, hrun, hwalk,
    (translate_refines_walk hfresh.frames.tablesOk hfresh.tlb hrun).2 65536⟩

end UserOS.MyVm
