import UserOS.MyVm.Malloc

/-!
# `put_value` and `get_value`: virtual memory as a byte array

Both functions have a path for ranges that end before the end of their first page, and a path that
walks the pages twice: once to check that all are mapped, once to copy. The walk passes a virtual
address of which only the page counts (`get_next_page` may keep the offset in the page), and the
offset on its own.

The virtual byte at `a` is the physical byte at `vm.phys a`. The loops are specified by what they
do to these bytes.

* `putLoop_spec`, `getLoop_spec`: one chunk for each page.
* `putValue_spec`, `getValue_spec`: on either path.
* `getValue_putValue`: a read after a write.
-/

namespace UserOS.MyVm

open Lib

/-! ## The functions -/

/-- `memcpy` of `n` bytes to simulated memory. A negative count is out of bounds. -/
def Vm.memcpy (vm : Vm) (dst : ℕ) (src : Bytes) (off : ℕ) (n : ℤ) : Option Vm :=
  if n < 0 then none else some { vm with mem := vm.mem.copy dst src off n.toNat }

/-- The loop of both functions that checks that every page is mapped. -/
def checkLoop (μ : Malloc TlbNode) : ℕ → Vm → ℕ → ℕ → ℤ → Option (Vm × Bool)
  | fuel, vm, va, offset, size =>
    if size ≤ 0 then some (vm, true)
    else match fuel with
      | 0 => none
      | fuel + 1 => do
        let (vm, entry) ← translate μ vm va
        match entry with
        | none => some (vm, false)
        | some _ => checkLoop μ fuel vm (getNextPage va) 0 (size - (pgSize - offset : ℕ))

/-- The loop of `put_value` that copies. -/
def putLoop (μ : Malloc TlbNode) : ℕ → Vm → ℕ → Bytes → ℕ → ℕ → ℤ → Option Vm
  | fuel, vm, va, val, pos, offset, size =>
    if size ≤ 0 then some vm
    else match fuel with
      | 0 => none
      | fuel + 1 => do
        let (vm, entry) ← translate μ vm va
        match entry with
        | none => some vm
        | some pa =>
          let chunk : ℤ := if size > (pgSize - offset : ℕ) then (pgSize - offset : ℕ) else size
          let vm ← vm.memcpy (pa + offset) val pos chunk
          putLoop μ fuel vm (getNextPage va) val (pos + chunk.toNat) 0
            (size - (pgSize - offset : ℕ))

/-- `put_value`. The failure of the short path leaves the lock held. -/
def putValue (μ : Malloc TlbNode) (vm : Vm) (va : ℕ) (val : Bytes) (size : ℤ) : Option Vm := do
  let vm ← vm.lock
  let offset := pageOffset va
  if vm.memoryStart = 0 then some vm.unlock
  else if (pgSize - offset : ℕ) > size then
    let (vm, entry) ← translate μ vm va
    match entry with
    | none => some vm
    | some pa =>
      let vm ← vm.memcpy (pa + offset) val 0 size
      some vm.unlock
  else
    let (vm, mapped) ← checkLoop μ size.toNat vm va offset size
    if mapped then
      let vm ← putLoop μ size.toNat vm va val 0 offset size
      some vm.unlock
    else some vm.unlock

/-- The loop of `get_value` that copies. The condition of its advance is the number of bytes left
in the page. -/
def getLoop (μ : Malloc TlbNode) : ℕ → Vm → ℕ → Bytes → ℕ → ℕ → ℤ → Option (Vm × Bytes)
  | fuel, vm, va, val, pos, offset, size =>
    if size ≤ 0 then some (vm, val)
    else match fuel with
      | 0 => none
      | fuel + 1 => do
        let (vm, entry) ← translate μ vm va
        match entry with
        | none => some (vm, val)
        | some pa =>
          let chunk : ℤ := if size > (pgSize - offset : ℕ) then (pgSize - offset : ℕ) else size
          let val := val.copy pos vm.mem (pa + offset) chunk.toNat
          let advance := if pgSize - offset ≠ 0 then pgSize - offset else size.toNat
          getLoop μ fuel vm (getNextPage va) val (pos + advance) 0
            (size - (pgSize - offset : ℕ))

/-- `get_value`. The failure of the short path leaves the lock held. -/
def getValue (μ : Malloc TlbNode) (vm : Vm) (va : ℕ) (val : Bytes) (size : ℤ) :
    Option (Vm × Bytes) := do
  let vm ← vm.lock
  let offset := pageOffset va
  if vm.memoryStart = 0 then some (vm.unlock, val)
  else if (pgSize - offset : ℕ) > size then
    let (vm, entry) ← translate μ vm va
    match entry with
    | none => some (vm, val)
    | some pa =>
      if size < 0 then none
      else some (vm.unlock, val.copy 0 vm.mem (pa + offset) size.toNat)
  else
    let (vm, mapped) ← checkLoop μ size.toNat vm va offset size
    if mapped then
      let (vm, val) ← getLoop μ size.toNat vm va val 0 offset size
      some (vm.unlock, val)
    else some (vm.unlock, val)

variable {μ : Malloc TlbNode} {vm vm' : Vm} {a va : ℕ}

/-! ## One page -/

/-- `vm'` is `vm` after the virtual bytes `f 0`, …, `f (n - 1)` were stored from `A` on. -/
structure Stored (vm vm' : Vm) (A n : ℕ) (f : ℕ → UInt8) : Prop where
  pages : PagesOk vm'
  tlb : TlbAgrees vm'
  start : vm'.memoryStart = vm.memoryStart
  entry : ∀ a, vm'.entry a = vm.entry a
  byte : ∀ a < 2 ^ 32, vm.Mapped a →
    vm'.mem (vm.phys a) = if A ≤ a ∧ a < A + n then f (a - A) else vm.mem (vm.phys a)

theorem Stored.none {f : ℕ → UInt8} (h : PagesOk vm) (htlb : TlbAgrees vm) : Stored vm vm a 0 f :=
  ⟨h, htlb, rfl, fun _ => rfl, fun a _ _ => by rw [if_neg (by omega)]⟩

theorem Stored.ofTlb {T : Tlb} {n : ℕ} {f : ℕ → UInt8}
    (h : Stored { vm with tlb := T } vm' a n f) : Stored vm vm' a n f :=
  ⟨h.pages, h.tlb, h.start, h.entry, h.byte⟩

theorem Stored.append {vm'' : Vm} {A n m : ℕ} {f : ℕ → UInt8} (h : Stored vm vm' A n f)
    (h' : Stored vm' vm'' (A + n) m fun k => f (n + k)) : Stored vm vm'' A (n + m) f where
  pages := h'.pages
  tlb := h'.tlb
  start := h'.start.trans h.start
  entry a := (h'.entry a).trans (h.entry a)
  byte a ha hmap := by
    have hphys : vm'.phys a = vm.phys a := by unfold Vm.phys; rw [h.entry]
    have h1 := h.byte a ha hmap
    have h2 := h'.byte a ha (by unfold Vm.Mapped; rwa [h.entry])
    rw [hphys] at h2
    rw [h2, h1]
    by_cases hlo : A + n ≤ a ∧ a < A + n + m
    · rw [if_pos hlo, if_pos (by omega), show n + (a - (A + n)) = a - A by omega]
    · rw [if_neg hlo]
      exact if_congr (by omega) rfl rfl

/-- A copy to a page stores bytes of the page. -/
theorem stored_memcpy (src : Bytes) (pos : ℕ) {n : ℕ} (h : PagesOk vm) (htlb : TlbAgrees vm)
    (ha : a < 2 ^ 32) (hmap : vm.Mapped a) (hn : a % pgSize + n ≤ pgSize) :
    Stored vm { vm with mem := vm.mem.copy (vm.phys a) src pos n } a n fun k => src (pos + k) := by
  unfold pgSize at hn
  have hphys : ∀ c, vm.phys c = vm.entry c + c % 65536 := fun c => rfl
  have hout : ∀ x, x < vm.entry a ∨ vm.entry a + 65536 ≤ x →
      vm.mem.copy (vm.phys a) src pos n x = vm.mem x := fun x hx =>
    Bytes.copy_of_outside (by rw [hphys]; omega)
  obtain ⟨hpde, hpte⟩ := h.store_pte
    { vm with mem := vm.mem.copy (vm.phys a) src pos n }
    (dirIndex_lt a) (tableIndex_lt a) hmap rfl hout
  have hpages : PagesOk { vm with mem := vm.mem.copy (vm.phys a) src pos n } :=
    h.congr rfl (Vm.owns_congr rfl hpde hpte)
  refine ⟨hpages, htlb.congr rfl fun d hd t ht _ => hpte d hd t ht, rfl,
    fun b => hpte _ (dirIndex_lt b) _ (tableIndex_lt b), fun b hb hmapb => ?_⟩
  show vm.mem.copy (vm.phys a) src pos n (vm.phys b) = _
  by_cases hpage : pageNumber a = pageNumber b
  · have hentry : vm.entry b = vm.entry a := Vm.entry_of_page hpage.symm
    unfold pageNumber pgSize at hpage
    by_cases hin : a ≤ b ∧ b < a + n
    · rw [if_pos hin, Bytes.copy_of_inside (by rw [hphys, hphys]; omega)
        (by rw [hphys, hphys]; omega)]
      congr 1
      rw [hphys, hphys]
      omega
    · rw [if_neg hin, Bytes.copy_of_outside (by rw [hphys, hphys]; omega)]
  · have hdisj := h.entry_disjoint hmap hmapb ha hb hpage
    unfold pageNumber pgSize at hpage
    rw [hout _ (by rw [hphys]; omega), if_neg (by omega)]

/-! ## The loops -/

/-- The range of virtual addresses from `a` on, `n` long, is mapped and ends at or below `2 ^ 32`.
-/
structure MappedRange (vm : Vm) (a n : ℕ) : Prop where
  fits : a + n ≤ 2 ^ 32
  mapped : ∀ b, a ≤ b → b < a + n → vm.Mapped b

/-- A range inside mapped pages. -/
theorem MappedRange.ofPages {p k n : ℕ} (hp : p + k ≤ 65536)
    (hpte : ∀ i, p ≤ i → i < p + k → vm.pteAt i ≠ 0) (hlo : p * pgSize ≤ a)
    (hhi : a + n ≤ (p + k) * pgSize) : MappedRange vm a n where
  fits := by unfold pgSize at hhi; omega
  mapped b h1 h2 := by
    have hb : b < 2 ^ 32 := by unfold pgSize at hhi; omega
    unfold Vm.Mapped
    rw [← Vm.pteAt_pageNumber hb]
    unfold pageNumber
    refine hpte _ ?_ ?_ <;> unfold pgSize at * <;> omega

theorem MappedRange.drop {n k : ℕ} (h : MappedRange vm a n) (hk : k ≤ n) :
    MappedRange vm (a + k) (n - k) :=
  ⟨by have := h.fits; omega, fun b h1 h2 => h.mapped b (by omega) (by omega)⟩

theorem MappedRange.congr {n : ℕ} (h : MappedRange vm a n) (he : ∀ b, vm'.entry b = vm.entry b) :
    MappedRange vm' a n :=
  ⟨h.fits, fun b h1 h2 => by unfold Vm.Mapped; rw [he]; exact h.mapped b h1 h2⟩

/-- The virtual address at which the loops stand: the page of `va`, at `offset`. -/
def cursor (va offset : ℕ) : ℕ := pageNumber va * pgSize + offset

theorem cursor_pageOffset (va : ℕ) : cursor va (pageOffset va) = va := by
  rw [cursor, pageNumber, pageOffset_eq, show 65536 = pgSize from rfl]
  exact Nat.div_add_mod' va pgSize

section Cursor

variable {offset n : ℕ} (hoff : offset < pgSize)

include hoff

theorem cursor_page : pageNumber (cursor va offset) = pageNumber va := by
  unfold cursor pageNumber
  unfold pgSize at *
  omega

theorem cursor_mod : cursor va offset % pgSize = offset := by
  unfold cursor
  unfold pgSize at *
  omega

/-- A range with bytes left after the page goes on at the start of the next page. -/
theorem cursor_next (hfits : cursor va offset + n ≤ 2 ^ 32) (hn : pgSize - offset < n) :
    cursor (getNextPage va) 0 = cursor va offset + (pgSize - offset) := by
  have hp : pageNumber va < 65535 := by
    unfold cursor at hfits
    unfold pgSize at *
    omega
  unfold cursor
  rw [getNextPage_page hp]
  unfold pgSize at *
  omega

end Cursor

/-- The bytes of the range in the first page, in an address space that goes on from the last page
to page 0. -/
theorem cursor_wrap {offset k : ℕ} (hva : va < 2 ^ 32) (hk : offset + k < pgSize) :
    pageNumber ((cursor va offset + k) % 2 ^ 32) = pageNumber va := by
  unfold cursor pageNumber
  unfold pgSize at *
  omega

/-- The walk goes on from the last page to page 0. -/
theorem cursor_next_wrap {offset k : ℕ} (hva : va < 2 ^ 32) (hoff : offset < pgSize) :
    (cursor (getNextPage va) 0 + k) % 2 ^ 32 =
      (cursor va offset + (pgSize - offset) + k) % 2 ^ 32 := by
  by_cases hlast : pageNumber va = 65535
  · rw [getNextPage_last hva hlast]
    unfold cursor
    rw [hlast]
    unfold pageNumber pgSize at *
    omega
  · have hp : pageNumber va < 65535 := by
      unfold pageNumber pgSize at *
      omega
    unfold cursor
    rw [getNextPage_page hp]
    unfold pgSize at *
    omega

theorem translate_mapped (μ : Malloc TlbNode) (h : PagesOk vm) (htlb : TlbAgrees vm)
    (hmap : vm.Mapped va) :
    ∃ T, translate μ vm va = some ({ vm with tlb := T }, some (vm.entry va)) ∧
      TlbAgrees { vm with tlb := T } := by
  obtain ⟨T, htr, hagrees⟩ := translate_spec μ htlb h.dir_pos va
  exact ⟨T, Vm.pageWalk_of_mapped hmap ▸ htr, hagrees⟩

/-- In a mapped range the first page is mapped, under every address of the page. -/
theorem MappedRange.head {offset n : ℕ} (h : MappedRange vm (cursor va offset) n)
    (hoff : offset < pgSize) (hn : 0 < n) : vm.Mapped va := by
  have := h.mapped _ le_rfl (by omega)
  unfold Vm.Mapped at *
  rwa [Vm.entry_of_page (cursor_page hoff)] at this

theorem checkLoop_done {fuel offset : ℕ} {size : ℤ} (h : size ≤ 0) :
    checkLoop μ fuel vm va offset size = some (vm, true) := by
  cases fuel <;> exact if_pos h

theorem putLoop_done {fuel pos offset : ℕ} {val : Bytes} {size : ℤ} (h : size ≤ 0) :
    putLoop μ fuel vm va val pos offset size = some vm := by
  cases fuel <;> exact if_pos h

theorem getLoop_done {fuel pos offset : ℕ} {val : Bytes} {size : ℤ} (h : size ≤ 0) :
    getLoop μ fuel vm va val pos offset size = some (vm, val) := by
  cases fuel <;> exact if_pos h

/-- One round of the copy: the bytes that are left, up to the end of the page. -/
theorem putLoop_succ {fuel pos offset n pa : ℕ} {val : Bytes} (hn : 0 < n)
    (htr : translate μ vm va = some (vm', some pa)) :
    putLoop μ (fuel + 1) vm va val pos offset n =
      putLoop μ fuel
        { vm' with mem := vm'.mem.copy (pa + offset) val pos (min n (pgSize - offset)) }
        (getNextPage va) val (pos + min n (pgSize - offset)) 0 (n - (pgSize - offset) : ℕ) := by
  rw [putLoop, if_neg (by omega)]
  simp only [htr, Option.bind_eq_bind, Option.bind_some]
  by_cases hlast : n ≤ pgSize - offset
  · rw [if_neg (by omega), Vm.memcpy, if_neg (by omega), Option.bind_some, Int.toNat_natCast,
      min_eq_left hlast, putLoop_done (by omega), putLoop_done (by omega)]
  · rw [if_pos (by omega), Vm.memcpy, if_neg (by omega), Option.bind_some, Int.toNat_natCast,
      min_eq_right (by omega), Int.ofNat_sub (show pgSize - offset ≤ n by omega)]

/-- The check finds out whether every byte is mapped of the range that goes on from the last page
to page 0. -/
theorem checkLoop_eq (μ : Malloc TlbNode) {fuel offset n : ℕ} (hdir : vm.pageDir ≠ 0)
    (htlb : TlbAgrees vm) (hva : va < 2 ^ 32) (hoff : offset < pgSize) (hfuel : n ≤ fuel) :
    ∃ T b, checkLoop μ fuel vm va offset n = some ({ vm with tlb := T }, b) ∧
      TlbAgrees { vm with tlb := T } ∧
      (b = true ↔ ∀ k < n, vm.Mapped ((cursor va offset + k) % 2 ^ 32)) := by
  induction fuel generalizing vm va offset n with
  | zero =>
    obtain rfl : n = 0 := by omega
    exact ⟨vm.tlb, true, checkLoop_done le_rfl, htlb, by simp⟩
  | succ fuel ih =>
    by_cases hn : n = 0
    · subst hn
      exact ⟨vm.tlb, true, checkLoop_done le_rfl, htlb, by simp⟩
    obtain ⟨T, htr, hagrees⟩ := translate_spec μ htlb hdir va
    -- The bytes of the range in the first page are mapped when the page is.
    have hhead : ∀ k, offset + k < pgSize →
        (vm.Mapped ((cursor va offset + k) % 2 ^ 32) ↔ vm.Mapped va) := fun k hk => by
      unfold Vm.Mapped
      rw [Vm.entry_of_page (cursor_wrap hva hk)]
    rw [checkLoop, if_neg (by omega)]
    simp only [htr, Option.bind_eq_bind, Option.bind_some]
    by_cases hmap : vm.Mapped va
    · rw [Vm.pageWalk_of_mapped hmap]
      by_cases hlast : n ≤ pgSize - offset
      · refine ⟨T, true, checkLoop_done (by omega), hagrees, ?_⟩
        simp only [true_iff]
        exact fun k hk => (hhead k (by omega)).2 hmap
      · obtain ⟨T', b, hrec, hagrees', hb⟩ := @ih { vm with tlb := T } _ 0 (n - (pgSize - offset))
          hdir hagrees (getNextPage_lt hva) (by decide) (by omega)
        refine ⟨T', b, ?_, hagrees', hb.trans ⟨fun h k hk => ?_, fun h k hk => ?_⟩⟩
        · rw [← Nat.cast_sub (by omega)]
          exact hrec
        · by_cases hk' : offset + k < pgSize
          · exact (hhead k hk').2 hmap
          · have := h (k - (pgSize - offset)) (by omega)
            rw [cursor_next_wrap hva hoff] at this
            rwa [show cursor va offset + k =
              cursor va offset + (pgSize - offset) + (k - (pgSize - offset)) by omega]
        · rw [cursor_next_wrap hva hoff, Nat.add_assoc]
          exact h _ (by omega)
    · have hnone : pageWalk vm va = none := by
        simp only [Vm.Mapped, Vm.entry, not_not] at hmap
        simp [pageWalk, hmap]
      rw [hnone]
      refine ⟨T, false, rfl, hagrees, ?_⟩
      simp only [Bool.false_eq_true, false_iff]
      exact fun h => hmap ((hhead 0 (by omega)).1 (h 0 (by omega)))

theorem checkLoop_spec (μ : Malloc TlbNode) {fuel offset n : ℕ} (h : PagesOk vm)
    (htlb : TlbAgrees vm)
    (hva : va < 2 ^ 32) (hoff : offset < pgSize) (hfuel : n ≤ fuel)
    (hmap : MappedRange vm (cursor va offset) n) :
    ∃ T, checkLoop μ fuel vm va offset n = some ({ vm with tlb := T }, true) ∧
      TlbAgrees { vm with tlb := T } := by
  obtain ⟨T, b, hcheck, hagrees, hb⟩ := checkLoop_eq μ h.dir_pos htlb hva hoff hfuel
  have htrue : b = true := hb.2 fun k hk => by
    have hfits := hmap.fits
    rw [Nat.mod_eq_of_lt (by omega)]
    exact hmap.mapped _ (by omega) (by omega)
  rw [htrue] at hcheck
  exact ⟨T, hcheck, hagrees⟩

theorem putLoop_spec (μ : Malloc TlbNode) (val : Bytes) (pos : ℕ) {fuel offset n : ℕ}
    (h : PagesOk vm) (htlb : TlbAgrees vm)
    (hva : va < 2 ^ 32) (hoff : offset < pgSize) (hfuel : n ≤ fuel)
    (hmap : MappedRange vm (cursor va offset) n) :
    ∃ vm', putLoop μ fuel vm va val pos offset n = some vm' ∧
      Stored vm vm' (cursor va offset) n fun k => val (pos + k) := by
  induction fuel generalizing vm va offset n pos with
  | zero =>
    obtain rfl : n = 0 := by omega
    exact ⟨vm, putLoop_done (by omega), .none h htlb⟩
  | succ fuel ih =>
    by_cases hn : n = 0
    · subst hn
      exact ⟨vm, putLoop_done (by omega), .none h htlb⟩
    have hhead := hmap.head hoff (by omega)
    obtain ⟨T, htr, hagrees⟩ := translate_mapped μ h htlb hhead
    have hA := hmap.mapped _ le_rfl (by omega)
    have hAlt : cursor va offset < 2 ^ 32 := by have := hmap.fits; omega
    have hphys : vm.entry va + offset = vm.phys (cursor va offset) := by
      rw [Vm.phys, cursor_mod hoff, Vm.entry_of_page (cursor_page hoff)]
    rw [putLoop_succ (by omega) htr]
    by_cases hlast : n ≤ pgSize - offset
    · -- The range ends in this page.
      rw [min_eq_left hlast, hphys]
      exact ⟨_, putLoop_done (by omega), Stored.ofTlb (stored_memcpy val pos (h.withTlb T) hagrees
        hAlt hA (by rw [cursor_mod hoff]; omega))⟩
    · have hstored := stored_memcpy val pos (n := pgSize - offset) (h.withTlb T) hagrees hAlt hA
        (by rw [cursor_mod hoff]; omega)
      have hnext := cursor_next hoff hmap.fits (by omega)
      have hdrop := hmap.drop (k := pgSize - offset) (by omega)
      rw [← hnext] at hdrop
      rw [min_eq_right (by omega), hphys]
      obtain ⟨vm', hrec, hrest⟩ := ih (pos + (pgSize - offset)) hstored.pages hstored.tlb
        (getNextPage_lt hva) (show 0 < pgSize by decide)
        (show n - (pgSize - offset) ≤ fuel by omega)
        (hdrop.congr hstored.entry)
      refine ⟨vm', hrec, ?_⟩
      simp only [Nat.add_assoc] at hrest
      rw [hnext] at hrest
      have hall := hstored.append hrest
      rw [Nat.add_sub_cancel' (by omega)] at hall
      exact hall.ofTlb

theorem getLoop_spec (μ : Malloc TlbNode) (val : Bytes) (pos : ℕ) {fuel offset n : ℕ}
    (h : PagesOk vm) (htlb : TlbAgrees vm)
    (hva : va < 2 ^ 32) (hoff : offset < pgSize) (hfuel : n ≤ fuel)
    (hmap : MappedRange vm (cursor va offset) n) :
    ∃ T val', getLoop μ fuel vm va val pos offset n = some ({ vm with tlb := T }, val') ∧
      TlbAgrees { vm with tlb := T } ∧ ∀ k, val' k =
        if pos ≤ k ∧ k < pos + n then vm.mem (vm.phys (cursor va offset + (k - pos)))
        else val k := by
  induction fuel generalizing vm va offset n pos val with
  | zero =>
    exact ⟨vm.tlb, val, getLoop_done (by omega), htlb, fun k => by rw [if_neg (by omega)]⟩
  | succ fuel ih =>
    by_cases hn : n = 0
    · exact ⟨vm.tlb, val, getLoop_done (by omega), htlb, fun k => by rw [if_neg (by omega)]⟩
    have hhead := hmap.head hoff (by omega)
    obtain ⟨T, htr, hagrees⟩ := translate_mapped μ h htlb hhead
    -- The bytes of the range in this page follow each other in the frame.
    have hphys : ∀ j, offset + j < pgSize →
        vm.phys (cursor va offset + j) = vm.entry va + offset + j := fun j hj => by
      have hj' : cursor va offset + j = cursor va (offset + j) := by unfold cursor; omega
      rw [hj', Vm.phys, cursor_mod hj, Vm.entry_of_page (cursor_page hj), Nat.add_assoc]
    rw [getLoop, if_neg (by omega)]
    simp only [htr, Option.bind_eq_bind, Option.bind_some]
    rw [if_pos (show pgSize - offset ≠ 0 by omega)]
    by_cases hlast : n ≤ pgSize - offset
    · rw [if_neg (by omega), Int.toNat_natCast]
      refine ⟨T, _, getLoop_done (by omega), hagrees, fun k => ?_⟩
      by_cases hk : pos ≤ k ∧ k < pos + n
      · rw [if_pos hk, Bytes.copy_of_inside hk.1 hk.2, hphys _ (by omega)]
      · rw [if_neg hk, Bytes.copy_of_outside (by omega)]
    · have hnext := cursor_next hoff hmap.fits (by omega)
      have hdrop := hmap.drop (k := pgSize - offset) (by omega)
      rw [← hnext] at hdrop
      rw [if_pos (by omega), Int.toNat_natCast, ← Nat.cast_sub (by omega)]
      obtain ⟨T', val', hrec, hagrees', hval'⟩ := ih (val.copy pos vm.mem
        (vm.entry va + offset) (pgSize - offset)) (pos + (pgSize - offset)) (h.withTlb T) hagrees
        (getNextPage_lt hva)
        (show 0 < pgSize by decide) (show n - (pgSize - offset) ≤ fuel by omega)
        (hdrop.congr fun _ => rfl)
      refine ⟨T', val', hrec, hagrees', fun k => ?_⟩
      rw [hval']
      by_cases hk : pos ≤ k ∧ k < pos + n
      · rw [if_pos hk]
        by_cases hthis : k < pos + (pgSize - offset)
        · rw [if_neg (by omega), Bytes.copy_of_inside hk.1 hthis, hphys _ (by omega)]
        · have hindex : cursor va offset + (pgSize - offset) + (k - (pos + (pgSize - offset))) =
              cursor va offset + (k - pos) := by omega
          rw [if_pos (by omega), hnext, hindex]
          rfl
      · rw [if_neg hk, if_neg (by omega), Bytes.copy_of_outside (by omega)]

/-! ## The two calls -/

/-- **Put.** The bytes of the range are the data, and every other virtual byte is the old one. -/
theorem putValue_spec (μ : Malloc TlbNode) (val : Bytes) {n : ℕ} (h : PagesOk vm)
    (htlb : TlbAgrees vm)
    (hlock : vm.mutex = false) (hn : 0 < n) (hmap : MappedRange vm va n) :
    ∃ vm', putValue μ vm va val n = some vm' ∧ vm'.mutex = false ∧ Stored vm vm' va n val := by
  have hva : va < 2 ^ 32 := by have := hmap.fits; omega
  have hoff : pageOffset va < pgSize := by rw [pageOffset_eq]; exact Nat.mod_lt _ (by decide)
  have hmap' : MappedRange vm (cursor va (pageOffset va)) n := by rwa [cursor_pageOffset]
  have hlocked := Vm.lock_of_free hlock
  have hpages : PagesOk { vm with mutex := true } := ⟨⟨h.start, h.fits⟩, h.frame, h.page⟩
  have hstored : ∀ vm', Stored { vm with mutex := true } vm' va n val →
      Stored vm vm'.unlock va n val := fun vm' hs =>
    ⟨⟨⟨hs.pages.start, hs.pages.fits⟩, hs.pages.frame, hs.pages.page⟩, hs.tlb, hs.start, hs.entry,
      hs.byte⟩
  unfold putValue
  simp only [hlocked, Option.bind_eq_bind, Option.bind_some, if_neg h.start.ne']
  split_ifs with hshort
  · obtain ⟨T, htr, hagrees⟩ := translate_mapped μ hpages htlb (hmap.mapped _ le_rfl (by omega))
    have hcopy := stored_memcpy val 0 (n := n) (hpages.withTlb T) hagrees hva
      (hmap.mapped _ le_rfl (by omega))
      (by rw [pageOffset_eq] at hshort; unfold pgSize at *; omega)
    simp only [Nat.zero_add] at hcopy
    rw [htr]
    simp only [Option.bind_some, Vm.memcpy, if_neg (show ¬ (n : ℤ) < 0 by omega), Int.toNat_natCast,
      pageOffset_eq]
    exact ⟨_, rfl, rfl, hstored _ hcopy.ofTlb⟩
  · obtain ⟨T, hcheck, hagrees⟩ := checkLoop_spec μ hpages htlb hva hoff le_rfl
      (hmap'.congr fun _ => rfl)
    obtain ⟨vm', hput, hs⟩ := putLoop_spec μ val 0 (hpages.withTlb T)
      hagrees hva hoff le_rfl (hmap'.congr fun _ => rfl)
    rw [cursor_pageOffset] at hs
    simp only [Nat.zero_add] at hs
    rw [Int.toNat_natCast, hcheck]
    simp only [Option.bind_some, if_true, hput]
    exact ⟨_, rfl, rfl, hstored _ hs.ofTlb⟩

/-- **Get.** The buffer receives the virtual bytes of the range, and only the TLB is changed. -/
theorem getValue_spec (μ : Malloc TlbNode) (val : Bytes) {n : ℕ} (h : PagesOk vm)
    (htlb : TlbAgrees vm)
    (hlock : vm.mutex = false) (hn : 0 < n) (hmap : MappedRange vm va n) :
    ∃ T val', getValue μ vm va val n = some ({ vm with tlb := T }, val') ∧
      TlbAgrees { vm with tlb := T } ∧ ∀ k < n, val' k = vm.mem (vm.phys (va + k)) := by
  have hva : va < 2 ^ 32 := by have := hmap.fits; omega
  have hoff : pageOffset va < pgSize := by rw [pageOffset_eq]; exact Nat.mod_lt _ (by decide)
  have hmap' : MappedRange vm (cursor va (pageOffset va)) n := by rwa [cursor_pageOffset]
  have hlocked := Vm.lock_of_free hlock
  have hpages : PagesOk { vm with mutex := true } := ⟨⟨h.start, h.fits⟩, h.frame, h.page⟩
  have hunlock : ∀ T, Vm.unlock { vm with mutex := true, tlb := T } = { vm with tlb := T } :=
    fun T => by rw [Vm.unlock, ← hlock]
  unfold getValue
  simp only [hlocked, Option.bind_eq_bind, Option.bind_some, if_neg h.start.ne',
    if_neg (show ¬ (n : ℤ) < 0 by omega), Int.toNat_natCast]
  split_ifs with hshort
  · obtain ⟨T, htr, hagrees⟩ := translate_mapped μ hpages htlb (hmap.mapped _ le_rfl (by omega))
    rw [htr]
    refine ⟨T, _, congrArg some (congrArg₂ Prod.mk (hunlock T) rfl), hagrees, fun k hk => ?_⟩
    have hoff' := pageOffset_eq va
    have hentry : vm.entry (va + k) = vm.entry va :=
      Vm.entry_of_page (by unfold pageNumber; unfold pgSize at *; omega)
    rw [Bytes.copy_of_inside (Nat.zero_le _) (by omega), Vm.phys, hentry]
    show vm.mem (vm.entry va + pageOffset va + (k - 0)) = _
    have : pageOffset va + (k - 0) = (va + k) % pgSize := by unfold pgSize at *; omega
    rw [Nat.add_assoc, this]
  · obtain ⟨T, hcheck, hagrees⟩ := checkLoop_spec μ hpages htlb hva hoff le_rfl
      (hmap'.congr fun _ => rfl)
    obtain ⟨T', val', hget, hagrees', hval'⟩ := getLoop_spec μ val 0
      (hpages.withTlb T) hagrees hva hoff le_rfl (hmap'.congr fun _ => rfl)
    rw [hcheck]
    simp only [Option.bind_some, if_true, hget]
    refine ⟨T', val', congrArg some (congrArg₂ Prod.mk (hunlock T') rfl), hagrees', fun k hk => ?_⟩
    rw [hval', if_pos ⟨Nat.zero_le _, by omega⟩, cursor_pageOffset, Nat.sub_zero]
    rfl

/-- **A read after a write.** Where the ranges overlap, `get_value` returns the data put, and
elsewhere what it would have returned before. -/
theorem getValue_putValue (μ : Malloc TlbNode) (data buf : Bytes) {n m vb : ℕ} (h : PagesOk vm)
    (htlb : TlbAgrees vm)
    (hlock : vm.mutex = false) (hn : 1 ≤ n) (hm : 1 ≤ m) (hput : MappedRange vm va n)
    (hget : MappedRange vm vb m) :
    ∃ vm₁ vm₂ vm₃ buf₁ buf₂, putValue μ vm va data n = some vm₁ ∧
      getValue μ vm₁ vb buf m = some (vm₂, buf₂) ∧ getValue μ vm vb buf m = some (vm₃, buf₁) ∧
      ∀ k < m, buf₂ k = if va ≤ vb + k ∧ vb + k < va + n then data (vb + k - va) else buf₁ k := by
  obtain ⟨vm₁, hcall₁, hlock₁, hs⟩ := putValue_spec μ data h htlb hlock hn hput
  obtain ⟨T₂, buf₂, hcall₂, -, hbuf₂⟩ := getValue_spec μ buf hs.pages hs.tlb hlock₁
    hm (hget.congr hs.entry)
  obtain ⟨T₃, buf₁, hcall₃, -, hbuf₁⟩ := getValue_spec μ buf h htlb hlock hm hget
  refine ⟨vm₁, _, _, buf₁, buf₂, hcall₁, hcall₂, hcall₃, fun k hk => ?_⟩
  have hphys : vm₁.phys (vb + k) = vm.phys (vb + k) := by unfold Vm.phys; rw [hs.entry]
  have hfits := hget.fits
  rw [hbuf₂ k hk, hphys, hs.byte _ (by omega) (hget.mapped _ (by omega) (by omega)), hbuf₁ k hk]

/-- Four bytes put over the boundary of the two pages of a new region, whose frames do not follow
each other. The bytes from one before them on are read back. -/
theorem getValue_putValue_malloc : ∃ vm va buf vm₁ vm₂ vm₃ buf₁ buf₂,
    tMalloc 4096 Vm.start 131072 = some (vm, va) ∧
    putValue (.bump _) vm (va + 65534) (fun k => .ofNat (k + 1)) 4 = some vm₁ ∧
    getValue (.bump _) vm₁ (va + 65533) buf 4 = some (vm₂, buf₂) ∧
    getValue (.bump _) vm (va + 65533) buf 4 = some (vm₃, buf₁) ∧
    buf₂ 0 = buf₁ 0 ∧ buf₂ 1 = 1 ∧ buf₂ 2 = 2 ∧ buf₂ 3 = 3 := by
  have hserved : served 4096 Vm.start 131072 := by decide +kernel
  have hsome : (tMalloc 4096 Vm.start 131072).isSome := by decide +kernel
  obtain ⟨⟨vm, va⟩, hcall⟩ := Option.isSome_iff_exists.1 hsome
  obtain ⟨_, p, rfl, hp, hlock, hgrown, -⟩ := tMalloc_spec (.inr ⟨rfl, rfl⟩) (fun _ => by decide)
    (by decide) hserved hcall
  rw [pagesRequired_eq] at hp
  have hrange : ∀ o n, o + n ≤ 131072 → MappedRange vm (p * pgSize + o) n := fun o n hon =>
    .ofPages hp (by rw [← pagesRequired_eq]; exact hgrown.new) (by omega)
      (by unfold pgSize; omega)
  obtain ⟨vm₁, vm₂, vm₃, buf₁, buf₂, hput, hget, hbefore, hbytes⟩ := getValue_putValue (.bump _)
    (fun k => .ofNat (k + 1)) Bytes.zero hgrown.ok.frames.apart.pagesOk hgrown.ok.tlb hlock
    (by decide) (by decide) (hrange 65534 4 (by decide)) (hrange 65533 4 (by decide))
  refine ⟨vm, _, _, vm₁, vm₂, vm₃, buf₁, buf₂, hcall, hput, hget, hbefore, ?_, ?_, ?_, ?_⟩
  · rw [hbytes 0 (by decide), if_neg (by omega)]
  · rw [hbytes 1 (by decide), if_pos (by omega),
      show p * pgSize + 65533 + 1 - (p * pgSize + 65534) = 0 by omega]
    rfl
  · rw [hbytes 2 (by decide), if_pos (by omega),
      show p * pgSize + 65533 + 2 - (p * pgSize + 65534) = 1 by omega]
    rfl
  · rw [hbytes 3 (by decide), if_pos (by omega),
      show p * pgSize + 65533 + 3 - (p * pgSize + 65534) = 2 by omega]
    rfl

end UserOS.MyVm
