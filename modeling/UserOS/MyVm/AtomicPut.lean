import UserOS.MyVm.Access

/-!
# `put_value` is all or nothing

On ranges that reach the end of their first page, `put_value` walks the pages twice and copies
only when the first walk finds every page mapped. The walk has no test for the null pointer that
`get_next_page` returns at the last page: it goes on at page 0.

* `Wraps`: a range past the last page whose bytes, counted on from address 0, are all mapped.
* `putLoop_const`: what a copy of one byte repeated leaves behind, whatever it overwrites.
* `put_atomic_iff`: ranges that wrap are the only unmapped ranges that are written to.
-/

namespace UserOS.MyVm

open Lib

variable {μ : Malloc TlbNode} {vm : Vm} {va n : ℕ}

/-- The range ends past the last page, and all of its bytes are mapped in an address space that
goes on from the last page to page 0. -/
structure Wraps (vm : Vm) (va n : ℕ) : Prop where
  past : 2 ^ 32 < va + n
  mapped : ∀ k < n, vm.Mapped ((va + k) % 2 ^ 32)

/-- Whatever bytes are put, the call returns and no byte of physical memory is changed. -/
def PutsNothing (μ : Malloc TlbNode) (vm : Vm) (va n : ℕ) : Prop :=
  ∀ data, ∃ vm', putValue μ vm va data n = some vm' ∧ vm'.mem = vm.mem

/-! ## Ranges that are refused -/

/-- A byte that the walk finds unmapped stops the call. -/
theorem putsNothing_of_unmapped (htlb : TlbAgrees vm) (hlock : vm.mutex = false)
    (hdir : vm.memoryStart ≠ 0 → vm.pageDir ≠ 0) (hva : va < 2 ^ 32) {k : ℕ} (hk : k < n)
    (hun : ¬ vm.Mapped ((va + k) % 2 ^ 32)) : PutsNothing μ vm va n := by
  intro data
  have hoff : pageOffset va < pgSize := by rw [pageOffset_eq]; exact Nat.mod_lt _ (by decide)
  unfold putValue
  simp only [Vm.lock_of_free hlock, Option.bind_eq_bind, Option.bind_some]
  split_ifs with hstart hshort
  · exact ⟨_, rfl, rfl⟩
  · -- The range is inside one page.
    obtain ⟨T, htr, -⟩ := @translate_spec { vm with mutex := true } μ htlb (hdir hstart) va
    have hpage : pageNumber ((va + k) % 2 ^ 32) = pageNumber va := by
      have := cursor_wrap hva (show pageOffset va + k < pgSize by omega)
      rwa [cursor_pageOffset] at this
    have hnone : pageWalk { vm with mutex := true } va = none := by
      unfold Vm.Mapped at hun
      rw [Vm.entry_of_page hpage, not_not] at hun
      exact if_pos hun
    rw [htr, hnone]
    exact ⟨_, rfl, rfl⟩
  · obtain ⟨T, b, hcheck, -, hb⟩ := @checkLoop_eq { vm with mutex := true } va μ n _ n (hdir hstart)
      htlb hva hoff (le_refl n)
    rw [cursor_pageOffset] at hb
    have hfalse : b = false := by
      rw [← Bool.not_eq_true, hb]
      exact fun h => hun (h k hk)
    rw [Int.toNat_natCast, hcheck, hfalse]
    exact ⟨_, rfl, rfl⟩

/-! ## Ranges that are written to -/

/-- `translate` returns, whatever the tables hold by now. -/
theorem translate_returns (μ : Malloc TlbNode) (va : ℕ) {l : List ℕ}
    (h : TlbInv vm.tlb (fun _ _ => True) l) (hdir : vm.pageDir ≠ 0) :
    ∃ T l' entry, translate μ vm va = some ({ vm with tlb := T }, entry) ∧
      TlbInv T (fun _ _ => True) l' := by
  unfold translate
  rcases checkTlb_spec h (formVirtualAddress layout (dirIndex va) (tableIndex va)) with
    ⟨T, l', pa, hcheck, hinv, -⟩ | ⟨T, hcheck, hinv, -⟩
  · exact ⟨T, l', some pa, by simp [hcheck], hinv⟩
  · have hkeep : TlbInv T (fun _ _ => True) l := hinv.mono fun _ _ _ => trivial
    simp only [hcheck, Option.bind_eq_bind, Option.bind_some, if_neg hdir]
    split_ifs with hpde hz
    · exact ⟨T, l, none, rfl, hkeep⟩
    · exact ⟨T, l, none, rfl, hkeep⟩
    · obtain ⟨T', l', hadd, hinv', -⟩ := addTlb_spec μ hinv trivial
      exact ⟨T', l', _, by rw [hadd]; rfl, hinv'⟩

/-- The loop copies bytes `d` only, so that a byte `d` stays `d`. -/
theorem putLoop_const {val : Bytes} {d : UInt8} (hval : ∀ k, val k = d) {x fuel offset n pos : ℕ}
    {l : List ℕ} (h : TlbInv vm.tlb (fun _ _ => True) l) (hdir : vm.pageDir ≠ 0)
    (hoff : offset < pgSize) (hfuel : n ≤ fuel) (hx : vm.mem x = d) :
    ∃ vm', putLoop μ fuel vm va val pos offset n = some vm' ∧ vm'.mem x = d := by
  induction fuel generalizing vm va offset n pos l with
  | zero => exact ⟨vm, putLoop_done (by omega), hx⟩
  | succ fuel ih =>
    by_cases hn : n = 0
    · exact ⟨vm, putLoop_done (by omega), hx⟩
    obtain ⟨T, l', entry, htr, hinv⟩ := translate_returns μ va h hdir
    cases entry with
    | none =>
      refine ⟨{ vm with tlb := T }, ?_, hx⟩
      rw [putLoop, if_neg (by omega), htr]
      rfl
    | some pa =>
      rw [putLoop_succ (by omega) htr]
      refine ih hinv hdir (by decide) (by omega) ?_
      simp only [Bytes.copy]
      split_ifs
      · exact hval _
      · exact hx

/-- The first round of the loop reaches the first byte, and the other rounds leave it. -/
theorem putLoop_first {val : Bytes} {d : UInt8} (hval : ∀ k, val k = d) {fuel offset pos : ℕ}
    (htlb : TlbAgrees vm) (hdir : vm.pageDir ≠ 0) (hoff : offset < pgSize) (hn : 0 < n)
    (hfuel : n ≤ fuel) (hmap : vm.Mapped va) :
    ∃ vm', putLoop μ fuel vm va val pos offset n = some vm' ∧
      vm'.mem (vm.entry va + offset) = d := by
  obtain ⟨T, htr, -, l, hl⟩ := translate_spec μ htlb hdir va
  rw [Vm.pageWalk_of_mapped hmap] at htr
  obtain ⟨fuel, rfl⟩ : ∃ m, fuel = m + 1 := ⟨fuel - 1, by omega⟩
  rw [putLoop_succ hn htr]
  refine putLoop_const hval (hl.mono fun _ _ _ => trivial) hdir (by decide) (by omega) ?_
  exact (Bytes.copy_of_inside le_rfl (by omega)).trans (hval _)

/-- Every page that the walk visits is mapped, and the first byte gets the value put. -/
theorem putValue_wraps (htlb : TlbAgrees vm) (hlock : vm.mutex = false)
    (hstart : vm.memoryStart ≠ 0) (hdir : vm.pageDir ≠ 0) (hva : va < 2 ^ 32) (hw : Wraps vm va n)
    (d : UInt8) :
    ∃ vm', putValue μ vm va (fun _ => d) n = some vm' ∧ vm'.mem (vm.phys va) = d := by
  have hoff : pageOffset va < pgSize := by rw [pageOffset_eq]; exact Nat.mod_lt _ (by decide)
  have hlong : pgSize - pageOffset va < n := by
    have hpast := hw.past
    rw [pageOffset_eq]
    unfold pgSize
    omega
  have hmap : vm.Mapped va := by
    have := hw.mapped 0 (by omega)
    rwa [Nat.add_zero, Nat.mod_eq_of_lt hva] at this
  obtain ⟨T, b, hcheck, hagrees, hb⟩ := @checkLoop_eq { vm with mutex := true } va μ n _ n hdir
    htlb hva hoff (le_refl n)
  rw [cursor_pageOffset] at hb
  obtain ⟨vm', hput, hmem⟩ := @putLoop_first μ _ _ _ (fun _ => d) d (fun _ => rfl) _ _ 0 hagrees
    hdir hoff (show 0 < n by omega) le_rfl hmap
  unfold putValue
  simp only [Vm.lock_of_free hlock, Option.bind_eq_bind, Option.bind_some, if_neg hstart,
    if_neg (show ¬ ((pgSize - pageOffset va : ℕ) : ℤ) > (n : ℤ) by omega)]
  rw [Int.toNat_natCast, hcheck, hb.2 hw.mapped]
  simp only [Option.bind_some, if_true, hput]
  refine ⟨vm'.unlock, rfl, ?_⟩
  rw [pageOffset_eq] at hmem
  exact hmem

theorem not_putsNothing_of_wraps (htlb : TlbAgrees vm) (hlock : vm.mutex = false)
    (hstart : vm.memoryStart ≠ 0) (hdir : vm.pageDir ≠ 0) (hva : va < 2 ^ 32)
    (hw : Wraps vm va n) : ¬ PutsNothing μ vm va n := by
  intro hputs
  let d : UInt8 := vm.mem (vm.phys va) + 1
  obtain ⟨vm', hcall, hd⟩ := putValue_wraps (μ := μ) htlb hlock hstart hdir hva hw d
  obtain ⟨vm'', hcall', hmem⟩ := hputs fun _ => d
  rw [hcall, Option.some.injEq] at hcall'
  rw [hcall', hmem] at hd
  exact absurd hd (by simp [d])

/-- **All or nothing.** A range that is not entirely mapped is written to exactly when the memory
is set up and the range wraps. -/
theorem put_atomic_iff (μ : Malloc TlbNode) (htlb : TlbAgrees vm) (hlock : vm.mutex = false)
    (hdir : vm.memoryStart ≠ 0 → vm.pageDir ≠ 0) (hva : va < 2 ^ 32)
    (hun : ¬ MappedRange vm va n) :
    PutsNothing μ vm va n ↔ vm.memoryStart = 0 ∨ ¬ Wraps vm va n := by
  constructor
  · intro hputs
    by_contra hnot
    push Not at hnot
    obtain ⟨hstart, hw⟩ := hnot
    exact not_putsNothing_of_wraps htlb hlock hstart (hdir hstart) hva hw hputs
  · rintro (hstart | hnw)
    · intro data
      refine ⟨({ vm with mutex := true } : Vm).unlock, ?_, rfl⟩
      unfold putValue
      simp [Vm.lock_of_free hlock, hstart]
    · have hex : ∃ k < n, ¬ vm.Mapped ((va + k) % 2 ^ 32) := by
        by_contra hall
        push Not at hall
        have hfits : va + n ≤ 2 ^ 32 := by
          by_contra hpast
          exact hnw ⟨by omega, hall⟩
        refine hun ⟨hfits, fun b h1 h2 => ?_⟩
        have hb := hall (b - va) (by omega)
        rwa [Nat.add_sub_cancel' h1, Nat.mod_eq_of_lt (by omega)] at hb
      obtain ⟨k, hk, hk'⟩ := hex
      exact putsNothing_of_unmapped htlb hlock hdir hva hk hk'

/-! ## The last page and page 0 -/

/-- `page_map` maps the pages 0 and 65535 to frames of their own. -/
theorem exists_edges_mapped : ∃ vm, TlbAgrees vm ∧ vm.mutex = false ∧ vm.memoryStart ≠ 0 ∧
    vm.pageDir ≠ 0 ∧ Wraps vm (65535 * pgSize) (pgSize + 1) := by
  have hvalue : ((setPhysicalMem 4096 Vm.start).bind fun vm => (pageMap vm 0 659456).bind
      fun r => pageMap r.1 (65535 * pgSize) 724992).any
        fun r => r.1.mutex = false && r.1.memoryStart = 4096 := rfl
  obtain ⟨⟨vm₂, status₂⟩, hcalls, hvalue⟩ := (Option.any_eq_true _ _).1 hvalue
  simp only [Bool.and_eq_true, decide_eq_true_eq] at hvalue
  obtain ⟨vm₀, hset, hcalls⟩ := Option.bind_eq_some_iff.1 hcalls
  obtain ⟨⟨vm₁, status₁⟩, hmap₁, hmap₂⟩ := Option.bind_eq_some_iff.1 hcalls
  have hfresh := setPhysicalMem_spec (by decide) hset
  obtain ⟨hok₁, htlb₁, hpte₁⟩ := pageMap_spec hfresh.frames.tablesOk (by decide) hmap₁
  obtain ⟨hok₂, htlb₂, hpte₂⟩ := pageMap_spec hok₁ (by decide) hmap₂
  have hzero : ∀ d < 4, ∀ t, vm₀.pte d t = 0 := fun d hd t => pte_of_pde_zero (hfresh.pde d hd)
  have hfirst : vm₂.Mapped 0 := by
    unfold Vm.Mapped Vm.entry
    rw [hpte₂ _ (dirIndex_lt _) _ (tableIndex_lt _), hpte₁ _ (dirIndex_lt _) _ (tableIndex_lt _),
      hzero _ (dirIndex_lt _), dirIndex_eq, dirIndex_eq, tableIndex_eq, tableIndex_eq]
    decide
  have hlast : vm₂.Mapped (65535 * pgSize) := by
    unfold Vm.Mapped Vm.entry
    rw [hpte₂ _ (dirIndex_lt _) _ (tableIndex_lt _), hpte₁ _ (dirIndex_lt _) _ (tableIndex_lt _),
      hzero _ (dirIndex_lt _), dirIndex_eq, dirIndex_eq, tableIndex_eq, tableIndex_eq]
    decide
  refine ⟨vm₂, .empty ((htlb₂.trans htlb₁).trans hfresh.tlb), hvalue.1, by rw [hvalue.2]; decide,
    hok₂.apart.pageDir_pos.ne', by decide, fun k hk => ?_⟩
  unfold Vm.Mapped at *
  by_cases hk' : k < pgSize
  · rw [Vm.entry_of_page (b := 65535 * pgSize) (by unfold pageNumber pgSize at *; omega)]
    exact hlast
  · rw [Vm.entry_of_page (b := 0) (by unfold pageNumber pgSize at *; omega)]
    exact hfirst

/-- A range from the last page on wraps when page 0 is mapped. -/
theorem put_atomic_edges : ∃ vm va n, ¬ MappedRange vm va n ∧
    (PutsNothing (.bump _) vm va n ↔ vm.memoryStart = 0 ∨ ¬ Wraps vm va n) := by
  obtain ⟨vm, htlb, hlock, -, hdir, hw⟩ := exists_edges_mapped
  have hun : ¬ MappedRange vm (65535 * pgSize) (pgSize + 1) := fun h =>
    absurd h.fits (by decide)
  exact ⟨vm, _, _, hun, put_atomic_iff (.bump _) htlb hlock (fun _ => hdir) (by decide) hun⟩

/-- **The defect.** A range past the last page overwrites the last page and page 0. -/
theorem put_wraps_to_page_zero : ¬ ∀ vm va n, TlbAgrees vm → vm.mutex = false →
    (vm.memoryStart ≠ 0 → vm.pageDir ≠ 0) → va < 2 ^ 32 → 1 ≤ n → ¬ MappedRange vm va n →
      PutsNothing (.bump _) vm va n := by
  intro hall
  obtain ⟨vm, htlb, hlock, hstart, hdir, hw⟩ := exists_edges_mapped
  exact not_putsNothing_of_wraps htlb hlock hstart hdir (by decide) hw
    (hall vm (65535 * pgSize) (pgSize + 1) htlb hlock (fun _ => hdir) (by decide) (by decide)
      fun h => absurd h.fits (by decide))

end UserOS.MyVm
