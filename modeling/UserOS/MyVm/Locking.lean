import UserOS.Lib.Run
import UserOS.MyVm.Release

/-!
# The lock of the allocator

`t_malloc`, `t_free`, `put_value` and `get_value` take the global lock first and release it before
they return. The failure of the short path of `put_value` and `get_value`, for a range that ends
before the end of its first page, is the one exit without the release.

* `translate_resolves`: a translation fails exactly when the TLB and the page table have no entry.
* `checkLoop_returns`, `putLoop_returns`, `getLoop_returns`: the loops end with the lock as it was.
* `VmCall.step_unlocks`: which calls leave the lock free.
* `lock_released`: the lock over every run.
-/

namespace UserOS.MyVm

open Lib

/-! ## Calls -/

/-- The calls. `base` is what `malloc` returns when the memory is set up. -/
inductive VmCall
  | malloc (base numBytes : ℕ)
  | free (va size : ℕ)
  | put (va : ℕ) (val : Bytes) (size : ℕ)
  | get (va : ℕ) (val : Bytes) (size : ℕ)

/-- The state in which the call returns. -/
def VmCall.exec (μ : Malloc TlbNode) (vm : Vm) : VmCall → Option Vm
  | .malloc base numBytes => (tMalloc base vm numBytes).map Prod.fst
  | .free va size => tFree vm va size
  | .put va val size => putValue μ vm va val size
  | .get va val size => (getValue μ vm va val size).map Prod.fst

/-- A call that returns. -/
def VmCall.Step (μ : Malloc TlbNode) (vm : Vm) (c : VmCall) (vm' : Vm) : Prop :=
  c.exec μ vm = some vm'

/-- The TLB or the page table has an entry for the page. -/
def Vm.Resolves (vm : Vm) (va : ℕ) : Prop :=
  (∃ pa, vm.tlb.Translates (formVirtualAddress layout (dirIndex va) (tableIndex va)) pa) ∨
    vm.Mapped va

/-- On the short path the page has an entry. -/
def ShortOk (vm : Vm) (va size : ℕ) : Prop :=
  vm.memoryStart ≠ 0 → size < pgSize - pageOffset va → vm.Resolves va

/-- The condition on the state before a call. -/
def VmCall.Ok (vm : Vm) : VmCall → Prop
  | .put va _ size => ShortOk vm va size
  | .get va _ size => ShortOk vm va size
  | _ => True

variable {μ : Malloc TlbNode} {vm vm' : Vm} {va offset pos fuel : ℕ} {val : Bytes}

/-! ## The parts of a call -/

/-- The TLB is a list, and there is a page directory once the memory is set up. -/
structure Steady (vm : Vm) : Prop where
  list : ∃ l, TlbInv vm.tlb (fun _ _ => True) l
  dir : vm.memoryStart ≠ 0 → vm.pageDir ≠ 0

/-- `vm'` may differ from `vm` in the TLB, the bitmaps and the bytes. -/
structure Alike (vm vm' : Vm) : Prop where
  start : vm'.memoryStart = vm.memoryStart
  dir : vm'.pageDir = vm.pageDir
  mutex : vm'.mutex = vm.mutex

theorem Alike.refl (vm : Vm) : Alike vm vm := ⟨rfl, rfl, rfl⟩

theorem Alike.trans {vm'' : Vm} (h : Alike vm vm') (h' : Alike vm' vm'') : Alike vm vm'' :=
  ⟨h'.start.trans h.start, h'.dir.trans h.dir, h'.mutex.trans h.mutex⟩

theorem Steady.alike (h : Steady vm) (ha : Alike vm vm')
    (hlist : ∃ l, TlbInv vm'.tlb (fun _ _ => True) l) : Steady vm' :=
  ⟨hlist, by rw [ha.start, ha.dir]; exact h.dir⟩

theorem Steady.withMutex (h : Steady vm) (b : Bool) : Steady { vm with mutex := b } :=
  ⟨h.list, h.dir⟩

/-- Of the state, a translation changes the TLB only. It fails when there is no entry. -/
theorem translate_resolves (μ : Malloc TlbNode) (va : ℕ)
    (h : ∃ l, TlbInv vm.tlb (fun _ _ => True) l) (hdir : vm.pageDir ≠ 0) :
    ∃ T entry, translate μ vm va = some ({ vm with tlb := T }, entry) ∧
      (∃ l, TlbInv T (fun _ _ => True) l) ∧ (entry = none ↔ ¬vm.Resolves va) := by
  obtain ⟨l, h⟩ := h
  simp only [translate, Vm.Resolves, Vm.Mapped, Vm.entry, Vm.pte]
  set key := formVirtualAddress layout (dirIndex va) (tableIndex va)
  rcases checkTlb_cases h key with ⟨a, ha, n, T, l', hn, hva, hcheck, hinv, -⟩ | ⟨hne, hcheck⟩
  · have htr : ∃ pa, vm.tlb.Translates key pa :=
      ⟨n.pa, l, h.chain, a, ha, by rw [Tlb.entryAt, hn, Option.map_some, hva]⟩
    exact ⟨T, some n.pa, by simp [hcheck], ⟨l', hinv⟩, by simp [htr]⟩
  · have hno : ¬∃ pa, vm.tlb.Translates key pa := by
      rintro ⟨pa, l', hc, a, ha, hentry⟩
      rw [hc.unique h.chain] at ha
      obtain ⟨n, hn, heq⟩ := Option.map_eq_some_iff.1 hentry
      exact hne a ha n hn (congrArg Prod.fst heq)
    have hmiss : TlbInv { vm.tlb with misses := vm.tlb.misses + 1 } (fun v _ => True ∧ v ≠ key) l :=
      { h.holds_ne hne with }
    have hkeep : ∃ l, TlbInv { vm.tlb with misses := vm.tlb.misses + 1 } (fun _ _ => True) l :=
      ⟨l, hmiss.mono fun _ _ _ => trivial⟩
    simp only [hcheck, Option.bind_eq_bind, Option.bind_some, if_neg hdir, hno, false_or]
    by_cases hpde : vm.pde (dirIndex va) = 0
    · exact ⟨_, none, if_pos hpde, hkeep, by simp [hpde]⟩
    · rw [if_neg (by exact hpde), if_neg hpde]
      by_cases hz : vm.mem.getNat (vm.pde (dirIndex va) + pteSize * tableIndex va) pteSize = 0
      · exact ⟨_, none, if_pos hz, hkeep, by simp [hz]⟩
      · obtain ⟨T, l', hadd, hinv, -⟩ := @addTlb_spec _ _ _ _
          (vm.mem.getNat (vm.pde (dirIndex va) + pteSize * tableIndex va) pteSize) μ hmiss trivial
        refine ⟨T, some (vm.mem.getNat (vm.pde (dirIndex va) + pteSize * tableIndex va) pteSize),
          ?_, ⟨l', hinv⟩, by simp [hz]⟩
        rw [if_neg (by exact hz)]
        exact (congrArg (Option.bind · _) hadd).trans rfl

/-- The check ends, with one page less to go at each round. -/
theorem checkLoop_returns (μ : Malloc TlbNode) (va : ℕ)
    (h : ∃ l, TlbInv vm.tlb (fun _ _ => True) l) (hdir : vm.pageDir ≠ 0)
    (hoff : offset < pgSize) {size : ℤ} (hfuel : size ≤ fuel) :
    ∃ T b, checkLoop μ fuel vm va offset size = some ({ vm with tlb := T }, b) ∧
      ∃ l, TlbInv T (fun _ _ => True) l := by
  induction fuel generalizing vm va offset size with
  | zero => exact ⟨vm.tlb, true, checkLoop_done (by omega), h⟩
  | succ fuel ih =>
    by_cases hsize : size ≤ 0
    · exact ⟨vm.tlb, true, checkLoop_done hsize, h⟩
    obtain ⟨T, entry, htr, hlist, -⟩ := translate_resolves μ va h hdir
    rw [checkLoop, if_neg hsize]
    simp only [htr, Option.bind_eq_bind, Option.bind_some]
    cases entry with
    | none => exact ⟨T, false, rfl, hlist⟩
    | some pa =>
      obtain ⟨T', b, hrec, hlist'⟩ := @ih { vm with tlb := T } 0 (getNextPage va)
        hlist hdir (by decide) (size - (pgSize - offset : ℕ)) (by omega)
      exact ⟨T', b, hrec, hlist'⟩

/-- The copy to memory ends. -/
theorem putLoop_returns (h : ∃ l, TlbInv vm.tlb (fun _ _ => True) l) (hdir : vm.pageDir ≠ 0)
    (hoff : offset < pgSize) {size : ℤ} (hfuel : size ≤ fuel) :
    ∃ vm', putLoop μ fuel vm va val pos offset size = some vm' ∧ Alike vm vm' ∧
      ∃ l, TlbInv vm'.tlb (fun _ _ => True) l := by
  induction fuel generalizing vm va offset pos size with
  | zero => exact ⟨vm, putLoop_done (by omega), .refl vm, h⟩
  | succ fuel ih =>
    by_cases hsize : size ≤ 0
    · exact ⟨vm, putLoop_done hsize, .refl vm, h⟩
    obtain ⟨T, entry, htr, hlist, -⟩ := translate_resolves μ va h hdir
    cases entry with
    | none =>
      refine ⟨{ vm with tlb := T }, ?_, ⟨rfl, rfl, rfl⟩, hlist⟩
      rw [putLoop, if_neg hsize]
      simp only [htr, Option.bind_eq_bind, Option.bind_some]
    | some pa =>
      obtain ⟨n, rfl⟩ := Int.eq_ofNat_of_zero_le (show 0 ≤ size by omega)
      rw [putLoop_succ (by omega) htr]
      obtain ⟨vm', hrec, halike, hlist'⟩ := @ih { vm with
          tlb := T
          mem := vm.mem.copy (pa + offset) val pos (min n (pgSize - offset)) } (getNextPage va) 0
        (pos + min n (pgSize - offset)) hlist hdir (by decide) (n - (pgSize - offset) : ℕ)
        (by omega)
      exact ⟨vm', hrec, ⟨halike.start, halike.dir, halike.mutex⟩, hlist'⟩

/-- The copy from memory ends. -/
theorem getLoop_returns (h : ∃ l, TlbInv vm.tlb (fun _ _ => True) l) (hdir : vm.pageDir ≠ 0)
    (hoff : offset < pgSize) {size : ℤ} (hfuel : size ≤ fuel) :
    ∃ T val', getLoop μ fuel vm va val pos offset size = some ({ vm with tlb := T }, val') ∧
      ∃ l, TlbInv T (fun _ _ => True) l := by
  induction fuel generalizing vm va offset pos size val with
  | zero => exact ⟨vm.tlb, val, getLoop_done (by omega), h⟩
  | succ fuel ih =>
    by_cases hsize : size ≤ 0
    · exact ⟨vm.tlb, val, getLoop_done hsize, h⟩
    obtain ⟨T, entry, htr, hlist, -⟩ := translate_resolves μ va h hdir
    rw [getLoop, if_neg hsize]
    simp only [htr, Option.bind_eq_bind, Option.bind_some]
    cases entry with
    | none => exact ⟨T, val, rfl, hlist⟩
    | some pa =>
      obtain ⟨T', val', hrec, hlist'⟩ := @ih { vm with tlb := T } (getNextPage va) 0 _ _ hlist hdir
        (by decide) (size - (pgSize - offset : ℕ)) (by omega)
      exact ⟨T', val', hrec, hlist'⟩

theorem pageMap_alike {pa : ℕ} {status : ℤ} (hm : pageMap vm va pa = some (vm', status)) :
    Alike vm vm' ∧ vm'.tlb = vm.tlb := by
  unfold pageMap at hm
  split_ifs at hm
  obtain ⟨mid, hensure, hm⟩ := Option.bind_eq_some_iff.1 hm
  have hmid : Alike vm mid ∧ mid.tlb = vm.tlb := by
    unfold ensureTable at hensure
    split_ifs at hensure
    · obtain ⟨frame, -, hinstall⟩ := Option.bind_eq_some_iff.1 hensure
      obtain rfl := Option.some.inj hinstall
      exact ⟨⟨rfl, rfl, rfl⟩, rfl⟩
    · exact Option.some.inj hensure ▸ ⟨.refl vm, rfl⟩
  split_ifs at hm <;> cases hm
  · exact hmid
  · exact ⟨⟨hmid.1.start, hmid.1.dir, hmid.1.mutex⟩, hmid.2⟩

/-- What the loop of `t_malloc` leaves alone. -/
theorem mapPages_alike {n phy : ℕ} (hm : mapPages n vm va phy = some vm') :
    Alike vm vm' ∧ vm'.tlb = vm.tlb := by
  induction n generalizing vm va phy with
  | zero =>
    rw [mapPages, Option.some.injEq] at hm
    exact hm ▸ ⟨.refl vm, rfl⟩
  | succ n ih =>
    obtain ⟨⟨mid, status⟩, hmap, hm⟩ := Option.bind_eq_some_iff.1 hm
    obtain ⟨phy', -, hm⟩ := Option.bind_eq_some_iff.1 hm
    obtain ⟨halike, htlb⟩ := ih hm
    obtain ⟨hmid, hmidtlb⟩ := pageMap_alike hmap
    have hfirst : Alike vm mid := ⟨hmid.start, hmid.dir, hmid.mutex⟩
    exact ⟨hfirst.trans halike, htlb.trans hmidtlb⟩

/-- What the loop of `t_free` leaves alone. -/
theorem freePages_alike {pageTable d n t phy : ℕ}
    (hf : freePages pageTable d n vm t phy = some vm') : Alike vm vm' := by
  induction n generalizing vm t phy with
  | zero =>
    rw [freePages, Option.some.injEq] at hf
    exact hf ▸ .refl vm
  | succ n ih =>
    obtain ⟨mid, hfree, hf⟩ := Option.bind_eq_some_iff.1 hf
    obtain ⟨T, -, hmid⟩ := Option.bind_eq_some_iff.1 hfree
    obtain rfl := Option.some.inj hmid
    have halike := ih hf
    exact ⟨halike.start, halike.dir, halike.mutex⟩

theorem setPhysicalMem_steady {base : ℕ} (h : Steady vm)
    (hset : setPhysicalMem base vm = some vm') : Steady vm' := by
  unfold setPhysicalMem at hset
  split_ifs at hset with hbase
  obtain ⟨pageDir, hdir, hset⟩ := Option.bind_eq_some_iff.1 hset
  obtain rfl := Option.some.inj hset
  obtain ⟨f, -, rfl, -⟩ := firstFreePage_eq_some hdir
  refine ⟨h.list, fun _ => ?_⟩
  dsimp only
  unfold frameAddr
  omega

/-! ## The calls -/

theorem Steady.unlock (h : Steady vm) : Steady vm.unlock := h.withMutex false

/-- `put_value` returns, and leaves the lock held exactly when its short path fails. -/
theorem putValue_unlocks (μ : Malloc TlbNode) (va : ℕ) (val : Bytes) (h : Steady vm)
    (hlock : vm.mutex = false) (size : ℕ) :
    ∃ vm', putValue μ vm va val size = some vm' ∧ Steady vm' ∧
      (vm'.mutex = false ↔ ShortOk vm va size) := by
  have hoff : pageOffset va < pgSize := by rw [pageOffset_eq]; exact Nat.mod_lt _ (by decide)
  have hheld := h.withMutex true
  unfold putValue
  simp only [Vm.lock_of_free hlock, Option.bind_eq_bind, Option.bind_some]
  split_ifs with hstart hshort
  · exact ⟨_, rfl, hheld.unlock, iff_of_true rfl fun hne => absurd hstart hne⟩
  · -- The short path.
    obtain ⟨T, entry, htr, hlist, hnone⟩ := translate_resolves μ va hheld.list (hheld.dir hstart)
    have hok : ShortOk vm va size ↔ vm.Resolves va :=
      ⟨fun hs => hs hstart (by omega), fun hr _ _ => hr⟩
    rw [hok, htr]
    cases entry with
    | none => exact ⟨_, rfl, ⟨hlist, h.dir⟩, iff_of_false (by simp) (hnone.1 rfl)⟩
    | some pa =>
      refine ⟨_, rfl, ⟨hlist, h.dir⟩, iff_of_true rfl ?_⟩
      by_contra hno
      cases hnone.2 hno
  · -- The two loops.
    have hok : ShortOk vm va size := fun _ hlt => absurd hlt (by omega)
    obtain ⟨T, b, hcheck, hlist⟩ := checkLoop_returns μ va hheld.list
      (hheld.dir hstart) hoff (show (size : ℤ) ≤ (size : ℤ).toNat by omega)
    rw [hcheck]
    cases b with
    | false => exact ⟨_, rfl, ⟨hlist, h.dir⟩, iff_of_true rfl hok⟩
    | true =>
      obtain ⟨vm', hput, halike, hlist'⟩ := @putLoop_returns μ { vm with mutex := true, tlb := T }
        va _ 0 _ val hlist (h.dir hstart) hoff size (show (size : ℤ) ≤ (size : ℤ).toNat by omega)
      simp only [Option.bind_some, if_true, hput]
      have hsteady : Steady vm' := hheld.alike ⟨halike.start, halike.dir, halike.mutex⟩ hlist'
      exact ⟨_, rfl, hsteady.unlock, iff_of_true rfl hok⟩

/-- `get_value` returns, and leaves the lock held exactly when its short path fails. -/
theorem getValue_unlocks (μ : Malloc TlbNode) (va : ℕ) (val : Bytes) (h : Steady vm)
    (hlock : vm.mutex = false) (size : ℕ) :
    ∃ vm' val', getValue μ vm va val size = some (vm', val') ∧ Steady vm' ∧
      (vm'.mutex = false ↔ ShortOk vm va size) := by
  have hoff : pageOffset va < pgSize := by rw [pageOffset_eq]; exact Nat.mod_lt _ (by decide)
  have hheld := h.withMutex true
  unfold getValue
  simp only [Vm.lock_of_free hlock, Option.bind_eq_bind, Option.bind_some,
    if_neg (show ¬(size : ℤ) < 0 by omega)]
  split_ifs with hstart hshort
  · exact ⟨_, val, rfl, hheld.unlock, iff_of_true rfl fun hne => absurd hstart hne⟩
  · -- The short path.
    obtain ⟨T, entry, htr, hlist, hnone⟩ := translate_resolves μ va hheld.list (hheld.dir hstart)
    have hok : ShortOk vm va size ↔ vm.Resolves va :=
      ⟨fun hs => hs hstart (by omega), fun hr _ _ => hr⟩
    rw [hok, htr]
    cases entry with
    | none => exact ⟨_, val, rfl, ⟨hlist, h.dir⟩, iff_of_false (by simp) (hnone.1 rfl)⟩
    | some pa =>
      refine ⟨_, _, rfl, ⟨hlist, h.dir⟩, iff_of_true rfl ?_⟩
      by_contra hno
      cases hnone.2 hno
  · -- The two loops.
    have hok : ShortOk vm va size := fun _ hlt => absurd hlt (by omega)
    obtain ⟨T, b, hcheck, hlist⟩ := checkLoop_returns μ va hheld.list
      (hheld.dir hstart) hoff (show (size : ℤ) ≤ (size : ℤ).toNat by omega)
    rw [hcheck]
    cases b with
    | false => exact ⟨_, val, rfl, ⟨hlist, h.dir⟩, iff_of_true rfl hok⟩
    | true =>
      obtain ⟨T', val', hget, hlist'⟩ := @getLoop_returns μ { vm with mutex := true, tlb := T }
        va _ 0 _ val hlist (h.dir hstart) hoff size (show (size : ℤ) ≤ (size : ℤ).toNat by omega)
      simp only [Option.bind_some, if_true, hget]
      exact ⟨_, val', rfl, ⟨hlist', h.dir⟩, iff_of_true rfl hok⟩

/-- `t_malloc` leaves the lock free. -/
theorem tMalloc_unlocks {base numBytes : ℕ} (h : Steady vm)
    (hm : tMalloc base vm numBytes = some (vm', va)) : Steady vm' ∧ vm'.mutex = false := by
  obtain ⟨held, hlocked, hm⟩ := Option.bind_eq_some_iff.1 hm
  obtain ⟨ready, hensure, hm⟩ := Option.bind_eq_some_iff.1 hm
  have hheld : Steady held := by
    unfold Vm.lock at hlocked
    split_ifs at hlocked
    exact Option.some.inj hlocked ▸ h.withMutex true
  have hready : Steady ready := by
    unfold ensureMemory at hensure
    split_ifs at hensure
    · exact setPhysicalMem_steady hheld hensure
    · exact Option.some.inj hensure ▸ hheld
  dsimp only at hm
  split at hm
  · cases hm
    exact ⟨hready.unlock, rfl⟩
  · obtain ⟨phyPage, -, hm⟩ := Option.bind_eq_some_iff.1 hm
    obtain ⟨mapped, hmap, hm⟩ := Option.bind_eq_some_iff.1 hm
    cases hm
    obtain ⟨halike, htlb⟩ := mapPages_alike hmap
    exact ⟨(hready.alike halike (htlb ▸ hready.list)).unlock, rfl⟩

/-- `t_free` leaves the lock free. -/
theorem tFree_unlocks {size : ℤ} (h : Steady vm) (hf : tFree vm va size = some vm') :
    Steady vm' ∧ vm'.mutex = false := by
  obtain ⟨held, hlocked, hf⟩ := Option.bind_eq_some_iff.1 hf
  have hheld : Steady held := by
    unfold Vm.lock at hlocked
    split_ifs at hlocked
    exact Option.some.inj hlocked ▸ h.withMutex true
  dsimp only at hf
  split_ifs at hf
  · cases hf
    exact ⟨hheld.unlock, rfl⟩
  · cases hf
    exact ⟨hheld.unlock, rfl⟩
  · obtain ⟨freed, hloop, hf⟩ := Option.bind_eq_some_iff.1 hf
    cases hf
    obtain ⟨l, hl⟩ := hheld.list
    obtain ⟨T', l', hdel, hinv, -⟩ :=
      @deletePages_spec (dirIndex va) (pagesRequired size) _ _ _ (tableIndex va) hl
    rw [freePages_tlb _ hloop, Option.some.injEq] at hdel
    exact ⟨(hheld.alike (freePages_alike hloop) ⟨l', hdel ▸ hinv⟩).unlock, rfl⟩

/-- **One call**: which calls leave the lock free. -/
theorem VmCall.step_unlocks {c : VmCall} (h : Steady vm) (hlock : vm.mutex = false)
    (hs : c.Step μ vm vm') : Steady vm' ∧ (vm'.mutex = false ↔ c.Ok vm) := by
  cases c with
  | malloc base numBytes =>
    obtain ⟨⟨mid, va⟩, hm, rfl⟩ := Option.map_eq_some_iff.1 hs
    obtain ⟨hsteady, hfree⟩ := tMalloc_unlocks h hm
    exact ⟨hsteady, iff_of_true hfree trivial⟩
  | free va size =>
    obtain ⟨hsteady, hfree⟩ := tFree_unlocks h hs
    exact ⟨hsteady, iff_of_true hfree trivial⟩
  | put va val size =>
    obtain ⟨mid, hput, hresult⟩ := putValue_unlocks _ _ _ h hlock size
    obtain rfl : mid = vm' := Option.some.inj (hput.symm.trans hs)
    exact hresult
  | get va val size =>
    obtain ⟨mid, val', hget, hresult⟩ := getValue_unlocks _ _ _ h hlock size
    obtain rfl : mid = vm' :=
      Option.some.inj ((congrArg (Option.map Prod.fst) hget).symm.trans hs)
    exact hresult

theorem Initial.steady (h : Initial vm) : Steady vm := by
  obtain ⟨-, l, hl⟩ := TlbAgrees.empty h.tlb
  exact ⟨⟨l, hl.mono fun _ _ _ => trivial⟩, fun hne => absurd h.start hne⟩

/-- **The lock.** It is free in every state reached by calls none of which is a `put_value` or
`get_value` whose short path fails, and `put_value` and `get_value` return there; and a run through
states in which the lock is free has only such calls. -/
theorem lock_released {vm₀ : Vm} {calls : List VmCall} (μ : Malloc TlbNode) (h : Initial vm₀)
    (vm : Vm) :
    (Run (Guarded VmCall.Ok (VmCall.Step μ)) vm₀ calls vm → vm.mutex = false ∧
      ∀ va val size, (∃ vm', VmCall.Step μ vm (.put va val size) vm') ∧
        ∃ vm', VmCall.Step μ vm (.get va val size) vm') ∧
    (Run (Reaching (fun vm => vm.mutex = false) (VmCall.Step μ)) vm₀ calls vm →
      Run (Guarded VmCall.Ok (VmCall.Step μ)) vm₀ calls vm) := by
  have hkeep : ∀ vm call vm', Steady vm ∧ vm.mutex = false → call.Ok vm →
      VmCall.Step μ vm call vm' → Steady vm' ∧ vm'.mutex = false := by
    rintro vm call vm' ⟨hsteady, hlock⟩ hok hs
    have hstep := call.step_unlocks hsteady hlock hs
    exact ⟨hstep.1, hstep.2.2 hok⟩
  constructor
  · intro hrun
    obtain ⟨hsteady, hlock⟩ := hrun.invariant (I := fun vm => Steady vm ∧ vm.mutex = false)
      ⟨h.steady, h.mutex⟩ fun vm call vm' hI hs => hkeep vm call vm' hI hs.1 hs.2
    refine ⟨hlock, fun va val size => ⟨?_, ?_⟩⟩
    · obtain ⟨vm', hput, -⟩ := putValue_unlocks μ va val hsteady hlock size
      exact ⟨vm', hput⟩
    · obtain ⟨vm', val', hget, -⟩ := getValue_unlocks μ va val hsteady hlock size
      exact ⟨vm', congrArg (Option.map Prod.fst) hget⟩
  · refine Run.guarded_of_reaching (I := fun vm => Steady vm ∧ vm.mutex = false)
      ⟨h.steady, h.mutex⟩ hkeep ?_
    rintro vm call vm' ⟨hsteady, hlock⟩ hs hfree
    exact (call.step_unlocks hsteady hlock hs).2.1 hfree

theorem initial_start : Initial Vm.start := ⟨rfl, rfl, rfl⟩

/-- The first page is allocated, and a byte is put to it. -/
theorem lock_released_first : ∃ vm, Run (Guarded VmCall.Ok (VmCall.Step (.bump _))) Vm.start
    [.malloc 4096 1, .put 0 Bytes.zero 1] vm ∧ vm.mutex = false := by
  have hvalue : ((VmCall.malloc 4096 1).exec (.bump _) Vm.start).any
      (fun vm => vm.pte 0 0 ≠ 0 ∧ ((VmCall.put 0 Bytes.zero 1).exec (.bump _) vm).isSome) := rfl
  obtain ⟨vm₁, hmalloc, hvalue⟩ := (Option.any_eq_true _ _).1 hvalue
  obtain ⟨hentry, hput⟩ := of_decide_eq_true hvalue
  obtain ⟨vm₂, hput⟩ := Option.isSome_iff_exists.1 hput
  have hok : VmCall.Ok vm₁ (.put 0 Bytes.zero 1) := fun _ _ => .inr hentry
  have hrun : Run (Guarded VmCall.Ok (VmCall.Step (.bump _))) Vm.start
      [.malloc 4096 1, .put 0 Bytes.zero 1] vm₂ :=
    (Run.single ⟨trivial, hmalloc⟩).snoc ⟨hok, hput⟩
  exact ⟨vm₂, hrun, ((lock_released (.bump _) initial_start vm₂).1 hrun).1⟩

/-- **The defect.** A byte is put to a page that is not mapped. -/
theorem put_keeps_lock : ¬∀ (vm₀ : Vm) (calls : List VmCall) (vm : Vm), Initial vm₀ →
    Run (VmCall.Step (.bump _)) vm₀ calls vm → vm.mutex = false := by
  intro hall
  have hvalue : (((VmCall.malloc 4096 1).exec (.bump _) Vm.start).bind
      ((VmCall.put 65536 Bytes.zero 1).exec (.bump _))).any Vm.mutex := rfl
  obtain ⟨vm₂, hcalls, hheld⟩ := (Option.any_eq_true _ _).1 hvalue
  obtain ⟨vm₁, hmalloc, hput⟩ := Option.bind_eq_some_iff.1 hcalls
  have hrun : Run (VmCall.Step (.bump _)) Vm.start
      [.malloc 4096 1, .put 65536 Bytes.zero 1] vm₂ := (Run.single hmalloc).snoc hput
  rw [hall _ _ _ initial_start hrun] at hheld
  cases hheld

end UserOS.MyVm
