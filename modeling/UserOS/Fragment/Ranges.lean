import UserOS.Fragment.Runs

/-!
# The ranges that `put_value` and `get_value` accept

A range inside one allocation should be transferred by both functions, and any other range refused
by both. The tests of the pages do not always see this. `put_value` accepts a range that goes on
from an allocation into the next one, `get_value` refuses every range that ends in a page with
records after other pages, and the short path of `put_value` reads through the translation of a page
that is not mapped.

* `putAllows_long`, `getAllows_long`: what the tests of several pages say about the allocations.
* `sameRanges_iff`: the two functions agree with the allocations under a condition on the range,
  and only then.
* `ranges_agree`: the same in every state reached by requests that leave room.
-/

namespace UserOS.Fragment

open Lib
open MyVm (TlbNode memSize)

variable {μ : Malloc TlbNode} {base : ℕ} {vm : Vm} {m m' : Machine} {s : Tracked}
  {live : List Allocation} {calls : List Call} {p n va offset : ℕ}

/-! ## The tests of a range -/

/-- An allocation takes all of page `p`. -/
def Filled (live : List Allocation) (p : ℕ) : Prop := ∃ a ∈ live, a.Fills p

/-- Allocations take all of the pages of the range before the last one, and one takes in the part
in the last page. -/
structure Pieces (live : List Allocation) (va n : ℕ) : Prop where
  before : ∀ p, va / 4096 ≤ p → p < (va + n - 1) / 4096 → Filled live p
  last : Inside live (4096 * ((va + n - 1) / 4096)) ((va + n - 1) % 4096 + 1)

theorem Filled.inside (h : Filled live p) (hlo : 4096 * p ≤ va)
    (hhi : va + n ≤ 4096 * p + 4096) : Inside live va n := by
  obtain ⟨a, ha, h1, h2⟩ := h
  exact ⟨a, ha, by omega, by omega⟩

theorem Inside.mono {va' n' : ℕ} (h : Inside live va n) (hlo : va ≤ va')
    (hhi : va' + n' ≤ va + n) : Inside live va' n' := by
  obtain ⟨a, ha, h1, h2⟩ := h
  exact ⟨a, ha, by omega, by omega⟩

/-- A range in one page: the test finds out whether it lies in an allocation. -/
theorem allows_short (h : Inv vm live) (hn : 0 < n) (hend : va % 4096 + n ≤ 4096) :
    vm.Allows (va / 4096) (va % 4096, n) ↔ Inside live va n := by
  have hoff : va % 4096 < 4096 := Nat.mod_lt _ (by decide)
  rw [h.allows_iff hoff hn (by omega), Nat.div_add_mod]
  refine ⟨fun hcases => ?_, fun hin => .inr ⟨hin, hend⟩⟩
  rcases hcases with hfilled | ⟨hin, -⟩
  · exact Filled.inside hfilled (by omega) (by omega)
  · exact hin

theorem getAllows_short (h : Inv vm live) (hn : 0 < n) (hend : va % 4096 + n ≤ 4096) :
    GetAllows vm va n ↔ Inside live va n := by
  have hoff : va % 4096 < 4096 := Nat.mod_lt _ (by decide)
  rw [← allows_short h hn hend, GetAllows, Vm.passes_iff hoff hn, getArgs]
  exact and_iff_left fun hmore => absurd hend (by omega)

section Tests

variable (h : Inv vm live) (hn : 0 < n) (hlt : n < 2 ^ 31)

include h hn hlt

theorem putAllows_short (hend : va % 4096 + n ≤ 4096) : PutAllows vm va n ↔ Inside live va n := by
  have hoff : va % 4096 < 4096 := Nat.mod_lt _ (by decide)
  rw [← allows_short h hn hend, PutAllows, Vm.passes_iff hoff hn, putArgs,
    unsignedLong_natCast (by omega)]
  exact and_iff_left fun hmore => absurd hend (by omega)

/-- **The tests of `put_value`** on several pages. -/
theorem putAllows_long (hlong : 4096 < va % 4096 + n) : PutAllows vm va n ↔ Pieces live va n := by
  have hoff : va % 4096 < 4096 := Nat.mod_lt _ (by decide)
  -- The test of page `i` of the range, which is the last one when it takes in the rest.
  have htest : ∀ i, 4096 * i < va % 4096 + n → (vm.Allows (va / 4096 + i)
      (if i = 0 then putArgs (va % 4096) n else putArgs 0 (va % 4096 + n - 4096 * i : ℕ)) ↔
      if va % 4096 + n ≤ 4096 * i + 4096 then
        Inside live (4096 * (va / 4096 + i)) (va % 4096 + n - 4096 * i)
      else Filled live (va / 4096 + i)) := by
    intro i hi
    by_cases hi0 : i = 0
    · rw [if_pos hi0, if_neg (by omega), putArgs, unsignedLong_natCast (by omega),
        h.allows_iff hoff hn (by omega)]
      exact or_iff_left fun hends => by omega
    · rw [if_neg hi0, putArgs, unsignedLong_natCast (by omega),
        h.allows_iff (by decide) (by omega) (by omega)]
      split_ifs with hlast
      · refine ⟨fun hcases => ?_, fun hin => .inr ⟨hin, by omega⟩⟩
        rcases hcases with hfilled | ⟨hin, -⟩
        · exact Filled.inside hfilled (by omega) (by omega)
        · exact hin
      · exact or_iff_left fun hends => by omega
  have hlastPage : (va + n - 1) / 4096 = va / 4096 + (va % 4096 + n - 1) / 4096 := by omega
  have hlastSize : (va + n - 1) % 4096 + 1 =
      va % 4096 + n - 4096 * ((va % 4096 + n - 1) / 4096) := by omega
  constructor
  · intro hall
    refine ⟨fun p h1 h2 => ?_, ?_⟩
    · obtain ⟨i, rfl⟩ := Nat.exists_eq_add_of_le h1
      have htested := (htest i (by omega)).1 (hall i (by omega))
      rwa [if_neg (by omega)] at htested
    · have htested := (htest ((va % 4096 + n - 1) / 4096) (by omega)).1 (hall _ (by omega))
      rwa [if_pos (by omega), ← hlastPage, ← hlastSize] at htested
  · intro ⟨hbefore, hlast⟩ i hi
    refine (htest i hi).2 ?_
    split_ifs with hend
    · have hi' : i = (va % 4096 + n - 1) / 4096 := by omega
      rwa [hlastSize, hlastPage, ← hi'] at hlast
    · exact hbefore _ (by omega) (by omega)

/-- **The tests of `get_value`** on several pages. -/
theorem getAllows_long (hlong : 4096 < va % 4096 + n) : GetAllows vm va n ↔
    ∀ p, va / 4096 ≤ p → p ≤ (va + n - 1) / 4096 → Filled live p := by
  have hoff : va % 4096 < 4096 := Nat.mod_lt _ (by decide)
  have htest : ∀ p, vm.Allows p (va % 4096, n) ↔ Filled live p := by
    intro p
    rw [h.allows_iff hoff hn (by omega)]
    exact or_iff_left fun hends => by omega
  constructor
  · intro hall p h1 h2
    obtain ⟨i, rfl⟩ := Nat.exists_eq_add_of_le h1
    have htested := hall i (by omega)
    simp only [getArgs, ite_self] at htested
    exact (htest _).1 htested
  · intro hfilled i hi
    simp only [getArgs, ite_self]
    exact (htest _).2 (hfilled _ (by omega) (by omega))

/-- A range inside an allocation is in pieces. -/
theorem pieces_of_inside (hlong : 4096 < va % 4096 + n) (hin : Inside live va n) :
    Pieces live va n := by
  obtain ⟨a, ha, h1, h2⟩ := hin
  obtain ⟨hpos, hshape⟩ := h.shaped a ha
  refine ⟨fun p hlo hhi => ⟨a, ha, ?_⟩, ⟨a, ha, ?_, ?_⟩⟩
  · unfold Allocation.Fills
    omega
  · omega
  · omega

end Tests

/-! ## Transfers -/

/-- Both functions carry out the transfer, and what is put can be read back. -/
structure Transfers (μ : Malloc TlbNode) (m : Machine) (va n : ℕ) : Prop where
  put : ∀ val, ∃ m', putValue μ m va val n = some m' ∧
    (∀ x < 2 ^ 32, m.Mapped (x / 4096) → m'.mem (m.phys x) =
      if va ≤ x ∧ x < va + n then val (x - va) else m.mem (m.phys x)) ∧
    ∀ buf, ∃ m'' buf', getValue μ m' va buf n = some (m'', buf') ∧ ∀ k < n, buf' k = val k
  get : ∀ buf, ∃ m' buf', getValue μ m va buf n = some (m', buf') ∧ m'.mem = m.mem ∧
    ∀ k, buf' k = if k < n then m.mem (m.phys (va + k)) else buf k

/-- Both functions refuse the range, and leave the memory and the buffer as they are. -/
structure Refuses (μ : Malloc TlbNode) (m : Machine) (va n : ℕ) : Prop where
  put : ∀ val, ∃ m', putValue μ m va val n = some m' ∧ m'.mem = m.mem
  get : ∀ buf, ∃ m', getValue μ m va buf n = some (m', buf) ∧ m'.mem = m.mem

/-- Both functions carry out a transfer inside one allocation, and refuse any other. -/
structure SameRanges (μ : Malloc TlbNode) (s : Tracked) (va n : ℕ) : Prop where
  inside : Inside s.live va n → Transfers μ s.machine va n
  outside : ¬Inside s.live va n → Refuses μ s.machine va n

/-- A range that ends before the end of its page lies in a page that is mapped. A range of several
pages inside an allocation ends in a page that is filled, and one that is in pieces lies inside an
allocation. -/
structure RangeOk (s : Tracked) (va n : ℕ) : Prop where
  short : s.machine.memoryStart ≠ 0 → va % 4096 + n < 4096 → s.machine.Mapped (va / 4096)
  inside : 4096 < va % 4096 + n → Inside s.live va n → Filled s.live ((va + n - 1) / 4096)
  outside : 4096 < va % 4096 + n → Pieces s.live va n → Inside s.live va n

/-- The bytes of a range inside an allocation lie in mapped pages. -/
theorem Inv.mapped_range {k : ℕ} (h : Inv vm live) (hin : Inside live va n) (hk : k < n) :
    vm.Mapped ((va + k) / 4096) := by
  obtain ⟨a, ha, h1, h2⟩ := hin
  exact h.mapped_byte ha (by omega) (by omega)

theorem GetAllows.congr (h : GetAllows m.toVm va n) (hentry : ∀ p < 2 ^ 20, m'.entry p = m.entry p)
    (hlist : m'.alloted = m.alloted) : GetAllows m'.toVm va n := by
  intro i hi
  obtain ⟨⟨hp, hne⟩, hallows⟩ := h i hi
  refine ⟨⟨hp, (hentry _ hp).trans_ne hne⟩, ?_⟩
  unfold Vm.ListAllows at hallows ⊢
  rwa [hlist]

/-- A range that both tests allow is transferred. -/
theorem transfers_of_allows (hready : Ready m) (hva : va < 2 ^ 32) (hn : 0 < n) (hlt : n < 2 ^ 31)
    (hmapped : ∀ k < n, m.Mapped ((va + k) / 4096)) (hput : PutAllows m.toVm va n)
    (hget : GetAllows m.toVm va n) : Transfers μ m va n := by
  constructor
  · intro val
    obtain ⟨m', hcall, hstored⟩ := putValue_spec μ val hready hva hn hput
    refine ⟨m', hcall, fun x hx hmap => hstored.byte x hx hmap.2, fun buf => ?_⟩
    have hlist : m'.alloted = m.alloted := by
      obtain ⟨b, T, rfl⟩ := hstored.same
      rfl
    obtain ⟨T, buf', -, hcall', hbuf⟩ := getValue_spec μ buf (hstored.ready hready) hva hn hlt
      (hget.congr hstored.entry hlist)
    refine ⟨_, buf', hcall', fun k hk => ?_⟩
    obtain ⟨hp, hne⟩ := hmapped k hk
    rw [hbuf, if_pos hk, hstored.phys (by omega), hstored.byte _ (by omega) hne,
      if_pos (by omega), Nat.add_sub_cancel_left]
  · intro buf
    obtain ⟨T, buf', -, hcall, hbuf⟩ := getValue_spec μ buf hready hva hn hlt hget
    exact ⟨_, buf', hcall, rfl, hbuf⟩

section Condition

variable (hinv : Inv s.machine.toVm s.live) (htlb : TlbAgrees s.machine) (hva : va < 2 ^ 32)
  (hn : 0 < n) (hlt : n < 2 ^ 31)

include hinv hn hlt

theorem RangeOk.putAllows_iff (h : RangeOk s va n) :
    PutAllows s.machine.toVm va n ↔ Inside s.live va n := by
  by_cases hlong : 4096 < va % 4096 + n
  · exact (putAllows_long hinv hn hlt hlong).trans
      ⟨h.outside hlong, pieces_of_inside hinv hn hlt hlong⟩
  · exact putAllows_short hinv hn hlt (by omega)

theorem RangeOk.getAllows_iff (h : RangeOk s va n) :
    GetAllows s.machine.toVm va n ↔ Inside s.live va n := by
  by_cases hlong : 4096 < va % 4096 + n
  · refine (getAllows_long hinv hn hlt hlong).trans ⟨fun hfilled => ?_, fun hin p h1 h2 => ?_⟩
    · refine h.outside hlong ⟨fun p h1 h2 => hfilled p h1 h2.le, ?_⟩
      exact (hfilled _ (by omega) le_rfl).inside le_rfl (by omega)
    · rcases Nat.lt_or_eq_of_le h2 with h2 | rfl
      · exact (pieces_of_inside hinv hn hlt hlong hin).before p h1 h2
      · exact h.inside hlong hin
  · exact getAllows_short hinv hn (by omega)

include htlb hva

/-- The condition is enough: both tests allow what lies inside an allocation, and no more. -/
theorem RangeOk.sameRanges (h : RangeOk s va n) : SameRanges μ s va n := by
  have hready := hinv.ready htlb
  have hput := h.putAllows_iff hinv hn hlt
  have hget := h.getAllows_iff hinv hn hlt
  refine ⟨fun hin => ?_, fun hout => ⟨fun val => ?_, fun buf => ?_⟩⟩
  · exact transfers_of_allows hready hva hn hlt (fun k hk => hinv.mapped_range hin hk)
      (hput.2 hin) (hget.2 hin)
  · obtain ⟨⟨T, -, hcall⟩, -⟩ | ⟨hshort, hzero, -⟩ :=
      putValue_refused μ val hready hva hn (mt hput.1 hout)
    · exact ⟨_, hcall, rfl⟩
    · exact absurd hzero (h.short hinv.frames.start.ne' hshort).2
  · obtain ⟨T, -, hcall⟩ := getValue_refused μ buf hready hva hn hlt (mt hget.1 hout)
    exact ⟨_, hcall, rfl⟩

/-- A range in a page that is not mapped has to be refused, and `put_value` does not return. -/
theorem SameRanges.short (h : SameRanges μ s va n) (hshort : va % 4096 + n < 4096) :
    s.machine.Mapped (va / 4096) := by
  have hready := hinv.ready htlb
  by_contra hun
  have hout : ¬Inside s.live va n := fun hin => hun (hinv.mapped_range hin hn)
  have hnot : ¬PutAllows s.machine.toVm va n := fun hall => hun (hall.mapped 0 (by omega))
  obtain ⟨m', hcall, -⟩ := (h.outside hout).put Bytes.zero
  obtain ⟨-, hne⟩ | ⟨-, -, hnone⟩ := putValue_refused μ Bytes.zero hready hva hn hnot
  · exact hun ⟨by omega, hne hshort⟩
  · rw [hnone] at hcall
    cases hcall

/-- A range inside an allocation has to be read. A buffer whose first byte is not the byte in memory
shows that nothing was. -/
theorem SameRanges.inside_filled (h : SameRanges μ s va n) (hlong : 4096 < va % 4096 + n)
    (hin : Inside s.live va n) : Filled s.live ((va + n - 1) / 4096) := by
  have hready := hinv.ready htlb
  by_contra hun
  have hnot : ¬GetAllows s.machine.toVm va n := fun hall =>
    hun ((getAllows_long hinv hn hlt hlong).1 hall _ (by omega) le_rfl)
  obtain ⟨m', buf', hcall, -, hbuf⟩ := (h.inside hin).get
    fun _ => s.machine.mem (s.machine.phys va) + 1
  obtain ⟨T, -, hcall'⟩ := getValue_refused μ
    (fun _ => s.machine.mem (s.machine.phys va) + 1) hready hva hn hlt hnot
  cases hcall.symm.trans hcall'
  have hbyte := hbuf 0
  rw [if_pos hn, Nat.add_zero] at hbyte
  simp at hbyte

/-- A range in pieces is stored, which shows when another byte is put. -/
theorem SameRanges.pieces_inside (h : SameRanges μ s va n) (hlong : 4096 < va % 4096 + n)
    (hpieces : Pieces s.live va n) : Inside s.live va n := by
  have hready := hinv.ready htlb
  by_contra hnot
  have hall : PutAllows s.machine.toVm va n := (putAllows_long hinv hn hlt hlong).2 hpieces
  obtain ⟨m', hcall, hmem⟩ := (h.outside hnot).put
    fun _ => s.machine.mem (s.machine.phys va) + 1
  obtain ⟨m'', hcall', hstored⟩ := putValue_spec μ
    (fun _ => s.machine.mem (s.machine.phys va) + 1) hready hva hn hall
  cases hcall.symm.trans hcall'
  have hbyte := hstored.byte va hva (hall.mapped 0 (by omega)).2
  rw [if_pos ⟨le_rfl, by omega⟩, hmem] at hbyte
  simp at hbyte

end Condition

/-- There is no memory yet, and both functions refuse all ranges. -/
theorem sameRanges_start (μ : Malloc TlbNode) :
    SameRanges μ .start va n ∧ RangeOk .start va n := by
  have hnone : ∀ {x k}, ¬Inside Tracked.start.live x k := fun ⟨a, ha, _⟩ => by cases ha
  refine ⟨⟨fun hin => absurd hin hnone, fun _ => ⟨fun val => ?_, fun buf => ?_⟩⟩,
    fun hne => absurd rfl hne, fun _ hin => absurd hin hnone,
    fun _ hpieces => absurd hpieces.last hnone⟩
  · exact ⟨_, rfl, rfl⟩
  · exact ⟨_, rfl, rfl⟩

/-- **The condition.** In a state that is in order the two functions agree with the allocations on
a range exactly under the condition. -/
theorem sameRanges_iff (h : Sound s) (hva : va < 2 ^ 32) (hn : 1 ≤ n) (hlt : n < 2 ^ 31) :
    SameRanges μ s va n ↔ RangeOk s va n := by
  rcases h with rfl | ⟨hinv, htlb⟩
  · exact iff_of_true (sameRanges_start μ).1 (sameRanges_start μ).2
  · refine ⟨fun hsame => ⟨fun _ => ?_, ?_, ?_⟩, fun hok => hok.sameRanges hinv htlb hva hn hlt⟩
    · exact hsame.short hinv htlb hva hn hlt
    · exact hsame.inside_filled hinv htlb hva hn hlt
    · exact hsame.pieces_inside hinv htlb hva hn hlt

/-! ## Runs -/

/-- A transfer, or a request that does not take all the room that is left in a page. -/
def LeavesRoom (s : Tracked) : Call → Prop
  | .malloc numBytes => ¬ExactFit s.machine.toVm numBytes
  | .free _ => False
  | .put .. => True
  | .get .. => True

instance {s : Tracked} : ∀ {c : Call}, Decidable (LeavesRoom s c)
  | .malloc numBytes => inferInstanceAs (Decidable (¬ExactFit s.machine.toVm numBytes))
  | .free _ => inferInstanceAs (Decidable False)
  | .put .. => inferInstanceAs (Decidable True)
  | .get .. => inferInstanceAs (Decidable True)

theorem Sound.step_leavesRoom {t : Tracked} {c : Call} (hbase : base + memSize ≤ 2 ^ 32)
    (h : Sound s) (hstep : Guarded LeavesRoom (Step μ base) s c t) : Sound t := by
  obtain ⟨hroom, hstep⟩ := hstep
  cases c with
  | malloc numBytes => exact .inr (h.malloc hbase hroom hstep)
  | free a => exact hroom.elim
  | put va val size => exact h.put hstep
  | get va val size => exact h.get hstep

theorem Sound.run_leavesRoom (hbase : base + memSize ≤ 2 ^ 32)
    (hrun : Run (Guarded LeavesRoom (Step μ base)) .start calls s) : Sound s :=
  hrun.invariant (.inl rfl) fun _ _ _ h hstep => h.step_leavesRoom hbase hstep

/-- **The ranges of `put_value` and `get_value`.** After requests that leave room, both transfer
what lies inside one allocation and refuse the rest, exactly under the condition on the range. -/
theorem ranges_agree (hbase : base + memSize ≤ 2 ^ 32)
    (hrun : Run (Guarded LeavesRoom (Step μ base)) .start calls s) (hva : va < 2 ^ 32) (hn : 1 ≤ n)
    (hlt : n < 2 ^ 31) : SameRanges μ s va n ↔ RangeOk s va n :=
  sameRanges_iff (.run_leavesRoom hbase hrun) hva hn hlt

/-- A page and a region of two pages, of which the last one has room. -/
theorem two_regions (μ : Malloc TlbNode) : ∃ s, s.live = [⟨4096, 0⟩, ⟨5000, 4096⟩] ∧
    Run (Guarded LeavesRoom (Step μ 4096)) .start [.malloc 4096, .malloc 5000] s := by
  have hlive : (after (fun s c => decide (LeavesRoom s c)) 4096 .start
      [.malloc 4096, .malloc 5000]).map Tracked.live = some [⟨4096, 0⟩, ⟨5000, 4096⟩] := by
    decide +kernel
  obtain ⟨s, hafter, hlive⟩ := Option.map_eq_some_iff.1 hlive
  exact ⟨s, hlive, run_of_after hafter⟩

/-- A range in the first page of the region. -/
theorem ranges_agree_first : ∃ s, s.live = [⟨4096, 0⟩, ⟨5000, 4096⟩] ∧
    SameRanges (.bump _) s 5000 100 := by
  obtain ⟨s, hlive, hrun⟩ := two_regions (.bump _)
  refine ⟨s, hlive, (ranges_agree (by decide) hrun (by decide) (by decide) (by decide)).2
    ⟨fun hset _ => ?_, fun hlong => absurd hlong (by decide),
      fun hlong => absurd hlong (by decide)⟩⟩
  rcases Sound.run_leavesRoom (by decide) hrun with rfl | ⟨hinv, -⟩
  · exact absurd rfl hset
  · exact hinv.mapped_byte (a := ⟨5000, 4096⟩) (by simp [hlive]) (by decide) (by decide)

/-- `get_value` refuses a region that ends in a page with room. -/
theorem get_refuses_region : ¬∀ (μ : Malloc TlbNode) (base : ℕ) (calls : List Call) (s : Tracked)
    (va n : ℕ), base + memSize ≤ 2 ^ 32 → (∀ c ∈ calls, ∃ numBytes, c = .malloc numBytes) →
    Run (Step μ base) .start calls s → va < 2 ^ 32 → 1 ≤ n → n < 2 ^ 31 → SameRanges μ s va n := by
  intro hall
  obtain ⟨s, hlive, hrun⟩ := two_regions (.bump _)
  have hsame := hall (.bump _) 4096 _ s 4096 5000 (by decide) (by simp)
    (hrun.mono fun _ _ _ h => h.2) (by decide) (by decide) (by decide)
  have hok := (sameRanges_iff (.run_leavesRoom (by decide) hrun) (by decide) (by decide)
    (by decide)).1 hsame
  obtain ⟨a, ha, hfills⟩ := hok.inside (by decide) ⟨⟨5000, 4096⟩, by simp [hlive], by decide⟩
  rw [hlive] at ha
  unfold Allocation.Fills at hfills
  rcases List.mem_cons.1 ha with rfl | ha
  · exact absurd hfills (by decide)
  · obtain rfl := List.mem_singleton.1 ha
    exact absurd hfills (by decide)

end UserOS.Fragment
