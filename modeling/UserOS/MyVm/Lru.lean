import UserOS.Lib.Recency
import UserOS.MyVm.Pages

/-!
# What the TLB evicts

At capacity `add_TLB` replaces the first node of the list. A lookup that hits moves its node to the
front, so that the first node is as a rule the page translated last, and not the one translated
longest ago.

* `Translates`: a call of `translate` on a mapped address, with the pages translated so far.
* `HoldsRecent`: the TLB holds the pages translated most recently.
* `lru_exact`: it does as long as a page that is replaced is the oldest held.
* `lru_of_few`: in particular while no more pages than the capacity are translated.
-/

namespace UserOS.MyVm

open Lib

/-- The address that stands for a page in the TLB. -/
def pageAddr (p : ℕ) : ℕ := p * pgSize

/-- A state with the pages translated so far. -/
abbrev Tracked := Vm × List ℕ

/-- The most recent pages translated, as many as the TLB has room for. -/
def Tracked.recent (s : Tracked) : List ℕ := (Lib.recent s.2).take s.1.tlb.entries

/-- A call of `translate` on a mapped address. If it calls `malloc`, it gets a node. -/
structure Translates (μ : Malloc TlbNode) (s : Tracked) (va : ℕ) (s' : Tracked) : Prop where
  address : va < 2 ^ 32
  mapped : s.1.Mapped va
  call : ∃ entry, translate μ s.1 va = some (s'.1, entry)
  malloc : s'.1.tlb.mallocs ≠ s.1.tlb.mallocs → μ.addr s.1.tlb.mallocs s.1.tlb.nodes ≠ none
  pages : s'.2 = s.2 ++ [pageNumber va]

/-- The TLB holds the most recent pages translated, each once, and no others. -/
def HoldsRecent (s : Tracked) : Prop :=
  ∃ l, Chain s.1.tlb.nodes TlbNode.next s.1.tlb.head l ∧
    (l.map s.1.tlb.vaAt).Perm (s.recent.map fun p => some (pageAddr p))

/-- When the page is not held and the TLB is full, the first node is that of the page held that
was translated longest ago. -/
def ReplacesOldest (s : Tracked) (va : ℕ) : Prop :=
  pageNumber va ∉ s.recent → s.1.tlb.entries ≤ s.1.tlb.length →
    s.1.tlb.head.bind s.1.tlb.vaAt = s.recent.getLast?.map pageAddr

/-- A state with an empty TLB of `c` entries. -/
def Vm.emptyTlb (vm : Vm) (c : ℕ) : Tracked :=
  ({ vm with tlb := { Tlb.empty with entries := c } }, [])

variable {μ : Malloc TlbNode} {vm : Vm} {s s' : Tracked} {l l' : List ℕ} {va c : ℕ}

theorem form_eq_pageAddr (hva : va < 2 ^ 32) :
    formVirtualAddress layout (dirIndex va) (tableIndex va) = pageAddr (pageNumber va) := by
  rw [formVirtualAddress_layout, dirIndex_eq, tableIndex_eq, pageAddr, pageNumber, pgSize]
  omega

theorem some_pageAddr_injective : Function.Injective fun p => some (pageAddr p) := by
  intro p q h
  exact Nat.eq_of_mul_eq_mul_right (by decide) (Option.some.inj h)

/-! ## One call -/

/-- A translation of a mapped page hits its node, or inserts one. -/
theorem translate_cases (h : TlbInv vm.tlb (fun _ _ => True) l) (hdir : vm.pageDir ≠ 0)
    (hva : va < 2 ^ 32) (hmap : vm.Mapped va) :
    ∃ T l' entry, translate μ vm va = some ({ vm with tlb := T }, entry) ∧
      TlbInv T (fun _ _ => True) l' ∧ T.entries = vm.tlb.entries ∧
      ((∃ a ∈ l, vm.tlb.vaAt a = some (pageAddr (pageNumber va)) ∧ Arranged vm.tlb T a l l') ∨
        (∀ a ∈ l, vm.tlb.vaAt a ≠ some (pageAddr (pageNumber va))) ∧ ∃ pa,
          Inserted μ { vm.tlb with misses := vm.tlb.misses + 1 } T (pageAddr (pageNumber va)) pa
            l l') := by
  simp only [translate, form_eq_pageAddr hva]
  rcases checkTlb_cases h (pageAddr (pageNumber va)) with
    ⟨a, ha, n, T, l', hn, hva', hcheck, hinv, hmoved⟩ | ⟨hne, hcheck⟩
  · refine ⟨T, l', some n.pa, by simp [hcheck], hinv, hmoved.entries, .inl ⟨a, ha, ?_, hmoved⟩⟩
    rw [Tlb.vaAt, hn, Option.map_some, hva']
  · have hpde : vm.pde (dirIndex va) ≠ 0 := fun hz => hmap (pte_of_pde_zero hz)
    have hpte : vm.mem.getNat (vm.pde (dirIndex va) + pteSize * tableIndex va) pteSize ≠ 0 := by
      rw [← pte_eq_getNat hpde]
      exact hmap
    have hmiss : TlbInv { vm.tlb with misses := vm.tlb.misses + 1 }
        (fun v _ => True ∧ v ≠ pageAddr (pageNumber va)) l := { h.holds_ne hne with }
    obtain ⟨T, l', hadd, hinv, hins⟩ := @addTlb_cases _ _ _ _ (vm.mem.getNat
      (vm.pde (dirIndex va) + pteSize * tableIndex va) pteSize) μ hmiss trivial
    refine ⟨T, l', some (vm.mem.getNat (vm.pde (dirIndex va) + pteSize * tableIndex va) pteSize),
      ?_, hinv, hins.entries, .inr ⟨fun a ha hva' => ?_, _, hins⟩⟩
    · simp only [hcheck, Option.bind_eq_bind, Option.bind_some, if_neg hdir]
      rw [if_neg (by exact hpde), if_neg (by exact hpte)]
      exact (congrArg (Option.bind · _) hadd).trans rfl
    · obtain ⟨n, hn, hnva⟩ := Option.map_eq_some_iff.1 hva'
      exact hne a ha n hn hnva

/-- What holds along the calls: the list `l` of the TLB counts `length` nodes and holds the most
recent pages. -/
structure Recent (s : Tracked) (l : List ℕ) : Prop where
  inv : TlbInv s.1.tlb (fun _ _ => True) l
  dir : s.1.pageDir ≠ 0
  capacity : 0 < s.1.tlb.entries
  length : s.1.tlb.length = l.length
  held : (l.map s.1.tlb.vaAt).Perm (s.recent.map fun p => some (pageAddr p))

theorem Recent.holdsRecent (h : Recent s l) : HoldsRecent s := ⟨l, h.inv.chain, h.held⟩

theorem Recent.start (hdir : vm.pageDir ≠ 0) (hc : 0 < c) : Recent (vm.emptyTlb c) [] where
  inv := ⟨rfl, by simp, by simp, le_rfl, by simp [Vm.emptyTlb, Tlb.empty],
    fun _ => by simpa [Vm.emptyTlb, Tlb.empty] using hc⟩
  dir := hdir
  capacity := hc
  length := rfl
  held := by simp [Tracked.recent, Lib.recent, Vm.emptyTlb]

theorem Recent.length_eq (h : Recent s l) : l.length = s.recent.length := by
  simpa using h.held.length_eq

theorem Recent.mem_iff (h : Recent s l) (p : ℕ) :
    (∃ a ∈ l, s.1.tlb.vaAt a = some (pageAddr p)) ↔ p ∈ s.recent := by
  have hmem := h.held.mem_iff (a := some (pageAddr p))
  simp only [List.mem_map] at hmem
  rw [hmem]
  constructor
  · rintro ⟨q, hq, hpq⟩
    rwa [← some_pageAddr_injective hpq]
  · exact fun hp => ⟨p, hp, rfl⟩

/-- The most recent pages after one more call. -/
theorem Translates.recent (ht : Translates μ s va s')
    (hent : s'.1.tlb.entries = s.1.tlb.entries) (hc : 0 < s.1.tlb.entries) :
    s'.recent = pageNumber va ::
      if pageNumber va ∈ s.recent then s.recent.erase (pageNumber va)
      else (Lib.recent s.2).take (s.1.tlb.entries - 1) := by
  obtain ⟨k, hk⟩ : ∃ k, s.1.tlb.entries = k + 1 := ⟨s.1.tlb.entries - 1, by omega⟩
  unfold Tracked.recent
  rw [ht.pages, hent, hk, recent_take_concat]
  rfl

/-- A removed first element and a removed last element leave the same elements exactly when they
are equal. -/
theorem perm_tail_iff {α : Type*} {x y : α} {l₁ l₂ : List α} (h : (x :: l₁).Perm (l₂ ++ [y])) :
    l₁.Perm l₂ ↔ x = y := by
  have h' : (x :: l₁).Perm (y :: l₂) := h.trans (List.perm_append_singleton y l₂)
  constructor
  · intro h12
    have hxy : ([x] ++ l₂).Perm ([y] ++ l₂) := (h12.symm.cons x).trans h'
    simpa using (List.perm_append_right_iff l₂).1 hxy
  · rintro rfl
    exact (List.perm_cons x).1 h'

/-- The node inserted holds the page, and the nodes that stay hold theirs. -/
theorem Inserted.vaAt_map {T T' : Tlb} {va pa a : ℕ} {l₁ : List ℕ}
    (hins : Inserted μ T T' va pa l (a :: l₁)) (hsub : ∀ b ∈ l₁, b ∈ l)
    (ha : T'.entryAt a = some (va, pa)) :
    (a :: l₁).map T'.vaAt = some va :: l₁.map T.vaAt := by
  have hvaAt : ∀ {U V : Tlb} {b}, V.entryAt b = U.entryAt b → V.vaAt b = U.vaAt b := by
    intro U V b hb
    simpa [Tlb.vaAt, Tlb.entryAt, Option.map_map, Function.comp_def] using
      congrArg (Option.map Prod.fst) hb
  rw [List.map_cons, List.cons.injEq]
  refine ⟨?_, List.map_congr_left fun b hb =>
    hvaAt (hins.kept b (hsub b hb) (List.mem_cons_of_mem _ hb))⟩
  simpa [Tlb.vaAt, Tlb.entryAt, Option.map_map, Function.comp_def] using
    congrArg (Option.map Prod.fst) ha

/-- A list that is not full has room for all the pages translated. -/
theorem Recent.take_room (h : Recent s l) (hroom : s.1.tlb.length < s.1.tlb.entries) :
    (Lib.recent s.2).take (s.1.tlb.entries - 1) = s.recent := by
  have hlen := h.length_eq
  have hlength := h.length
  unfold Tracked.recent at hlen ⊢
  rw [List.length_take] at hlen
  rw [List.take_of_length_le (by omega), List.take_of_length_le (by omega)]

/-- In a list that is full one of the pages gives way. -/
theorem Recent.take_full (h : Recent s l) (hfull : s.1.tlb.entries ≤ s.1.tlb.length) :
    (Lib.recent s.2).take (s.1.tlb.entries - 1) = s.recent.dropLast := by
  have hlen := h.length_eq
  have hlength := h.length
  unfold Tracked.recent at hlen ⊢
  rw [List.dropLast_eq_take, List.take_take]
  rw [List.length_take] at hlen ⊢
  congr 1
  omega

variable {T : Tlb} {a pa : ℕ}

/-- The state that a call leaves. -/
theorem Recent.of_held (h : Recent s l) (hcall : s'.1 = { s.1 with tlb := T })
    (hinv : TlbInv T (fun _ _ => True) l') (hent : T.entries = s.1.tlb.entries)
    (hlen : T.length = l'.length)
    (hheld : (l'.map T.vaAt).Perm (s'.recent.map fun p => some (pageAddr p))) : Recent s' l' where
  inv := by rw [hcall]; exact hinv
  dir := by rw [hcall]; exact h.dir
  capacity := by rw [hcall]; exact hent ▸ h.capacity
  length := by rw [hcall]; exact hlen
  held := by rw [hcall]; exact hheld

theorem Recent.hit (h : Recent s l) (ht : Translates μ s va s')
    (hcall : s'.1 = { s.1 with tlb := T }) (hinv : TlbInv T (fun _ _ => True) l') (ha : a ∈ l)
    (hva : s.1.tlb.vaAt a = some (pageAddr (pageNumber va)))
    (hmoved : Arranged s.1.tlb T a l l') : Recent s' l' ∧ pageNumber va ∈ s.recent := by
  have hmem : pageNumber va ∈ s.recent := (h.mem_iff _).1 ⟨a, ha, hva⟩
  have hent : s'.1.tlb.entries = s.1.tlb.entries := by rw [hcall]; exact hmoved.entries
  have hperm := hmoved.perm ha
  refine ⟨h.of_held hcall hinv hmoved.entries ?_ ?_, hmem⟩
  · rw [hmoved.length, h.length, hperm.length_eq]
  · rw [ht.recent hent h.capacity, if_pos hmem]
    have hkept : l.map T.vaAt = l.map s.1.tlb.vaAt := List.map_congr_left fun b hb => by
      simpa [Tlb.vaAt, Tlb.entryAt, Option.map_map, Function.comp_def] using
        congrArg (Option.map Prod.fst) (hmoved.kept b hb)
    exact ((hperm.map _).trans (hkept ▸ h.held)).trans ((List.perm_cons_erase hmem).map _)

theorem Recent.room (h : Recent s l) (ht : Translates μ s va s')
    (hcall : s'.1 = { s.1 with tlb := T }) (hinv : TlbInv T (fun _ _ => True) (a :: l))
    (hmem : pageNumber va ∉ s.recent) (hroom : s.1.tlb.length < s.1.tlb.entries)
    (hins : Inserted μ { s.1.tlb with misses := s.1.tlb.misses + 1 } T (pageAddr (pageNumber va)) pa
      l (a :: l)) (ha : T.entryAt a = some (pageAddr (pageNumber va), pa))
    (hlen : T.length = s.1.tlb.length + 1) : Recent s' (a :: l) := by
  have hent : s'.1.tlb.entries = s.1.tlb.entries := by rw [hcall]; exact hins.entries
  refine h.of_held hcall hinv hins.entries ?_ ?_
  · rw [hlen, h.length, List.length_cons, Nat.cast_succ]
  · rw [ht.recent hent h.capacity, if_neg hmem, h.take_room hroom,
      hins.vaAt_map (fun _ hb => hb) ha]
    exact h.held.cons _

theorem Recent.full {b : ℕ} {l₁ : List ℕ} (h : Recent s (b :: l₁)) (ht : Translates μ s va s')
    (hcall : s'.1 = { s.1 with tlb := T }) (hinv : TlbInv T (fun _ _ => True) (a :: l₁))
    (hmem : pageNumber va ∉ s.recent) (hfull : s.1.tlb.entries ≤ s.1.tlb.length)
    (hins : Inserted μ { s.1.tlb with misses := s.1.tlb.misses + 1 } T (pageAddr (pageNumber va)) pa
      (b :: l₁) (a :: l₁)) (ha : T.entryAt a = some (pageAddr (pageNumber va), pa))
    (hlen : T.length = s.1.tlb.length) :
    (HoldsRecent s' ↔ ReplacesOldest s va) ∧ (HoldsRecent s' → Recent s' (a :: l₁)) := by
  have hent : s'.1.tlb.entries = s.1.tlb.entries := by rw [hcall]; exact hins.entries
  have hne : s.recent ≠ [] := fun hnil => by
    have := h.length_eq
    rw [hnil] at this
    cases this
  have hmap : (a :: l₁).map T.vaAt =
      some (pageAddr (pageNumber va)) :: l₁.map s.1.tlb.vaAt :=
    hins.vaAt_map (fun _ hb => List.mem_cons_of_mem _ hb) ha
  -- The first node gives way, and should be the last of the recent pages.
  have hheld : (s.1.tlb.vaAt b :: l₁.map s.1.tlb.vaAt).Perm
      (s.recent.dropLast.map (fun p => some (pageAddr p)) ++
        [some (pageAddr (s.recent.getLast hne))]) := by
    have := h.held
    rw [← List.dropLast_concat_getLast hne, List.map_append] at this
    exact this
  have hiff : ((a :: l₁).map T.vaAt).Perm (s'.recent.map fun p => some (pageAddr p)) ↔
      ReplacesOldest s va := by
    rw [ht.recent hent h.capacity, if_neg hmem, h.take_full hfull, hmap, List.map_cons,
      List.perm_cons, perm_tail_iff hheld, ReplacesOldest, h.inv.chain.head?_eq,
      List.getLast?_eq_some_getLast hne]
    simp [hmem, hfull]
  have hholds : HoldsRecent s' ↔
      ((a :: l₁).map T.vaAt).Perm (s'.recent.map fun p => some (pageAddr p)) := by
    unfold HoldsRecent
    rw [hcall]
    constructor
    · rintro ⟨l₂, hl₂, hperm⟩
      rwa [hinv.chain.unique hl₂]
    · exact fun hperm => ⟨_, hinv.chain, hperm⟩
  refine ⟨hholds.trans hiff, fun hh => h.of_held hcall hinv hins.entries ?_ (hholds.1 hh)⟩
  rw [hlen, h.length]
  rfl

/-- **One call.** The TLB goes on holding the most recent pages exactly when no other page than
the oldest is replaced. -/
theorem Recent.step (h : Recent s l) (ht : Translates μ s va s') :
    s'.1.tlb.entries = s.1.tlb.entries ∧
      ∃ l', (HoldsRecent s' ↔ ReplacesOldest s va) ∧ (HoldsRecent s' → Recent s' l') := by
  obtain ⟨T, l', entry, htr, hinv, hent, hcases⟩ := translate_cases (μ := μ) h.inv h.dir ht.address
    ht.mapped
  obtain ⟨entry', hcall⟩ := ht.call
  rw [htr, Option.some.injEq, Prod.mk.injEq] at hcall
  obtain ⟨hcall, -⟩ := hcall
  refine ⟨by rw [← hcall]; exact hent, l', ?_⟩
  have hkeep : ReplacesOldest s va → Recent s' l' →
      (HoldsRecent s' ↔ ReplacesOldest s va) ∧ (HoldsRecent s' → Recent s' l') :=
    fun hr hs => ⟨iff_of_true hs.holdsRecent hr, fun _ => hs⟩
  rcases hcases with ⟨a, ha, hva, hmoved⟩ | ⟨hnone, pa, hins⟩
  · obtain ⟨hs, hmem⟩ := h.hit ht hcall.symm hinv ha hva hmoved
    exact hkeep (fun hno => absurd hmem hno) hs
  have hmem : pageNumber va ∉ s.recent := fun hmem => by
    obtain ⟨a, ha, hva⟩ := (h.mem_iff _).2 hmem
    exact hnone a ha hva
  rcases hins.cases with ⟨hnull, -⟩ | ⟨a, -, ha, hnew⟩
  · -- A call of `malloc` that returns null is excluded.
    refine absurd hnull (ht.malloc ?_)
    rw [← hcall]
    simp [hins.mallocs]
  have hlength := h.length
  have hcap := h.capacity
  rcases hnew with ⟨rfl, rfl, -, hlen⟩ | ⟨hne, -, ⟨hroom, rfl, hlen⟩ | ⟨hfull, rfl, hlen⟩⟩
  · have hroom : s.1.tlb.length < s.1.tlb.entries := by
      rw [hlength, List.length_nil]
      exact_mod_cast hcap
    exact hkeep (fun _ hfull => absurd hroom (not_lt.2 hfull))
      (h.room ht hcall.symm hinv hmem hroom hins ha hlen)
  · exact hkeep (fun _ hfull => absurd hroom (not_lt.2 hfull))
      (h.room ht hcall.symm hinv hmem hroom hins ha hlen)
  · obtain ⟨b, l₁, rfl⟩ := List.exists_cons_of_ne_nil hne
    exact h.full ht hcall.symm hinv hmem hfull hins ha hlen

/-! ## Runs -/

/-- **Least recently used.** From an empty TLB on, the TLB holds the most recent pages after every
call as long as each page replaced is the oldest held; and when it holds them after every call,
each page replaced is. -/
theorem lru_exact (μ : Malloc TlbNode) (hdir : vm.pageDir ≠ 0) (hc : 0 < c) (vas : List ℕ)
    (s : Tracked) :
    (Run (Guarded ReplacesOldest (Translates μ)) (vm.emptyTlb c) vas s → HoldsRecent s) ∧
    (Run (Reaching HoldsRecent (Translates μ)) (vm.emptyTlb c) vas s →
      Run (Guarded ReplacesOldest (Translates μ)) (vm.emptyTlb c) vas s) := by
  have hkeep : ∀ (s : Tracked) va s', (∃ l, Recent s l) → ReplacesOldest s va →
      Translates μ s va s' → ∃ l, Recent s' l := by
    rintro s va s' ⟨l, h⟩ hr ht
    obtain ⟨-, l', hiff, hs⟩ := h.step ht
    exact ⟨l', hs (hiff.2 hr)⟩
  constructor
  · intro hrun
    obtain ⟨l, h⟩ := hrun.invariant (I := fun s => ∃ l, Recent s l) ⟨[], .start hdir hc⟩
      fun s va s' hI hs => hkeep s va s' hI hs.1 hs.2
    exact h.holdsRecent
  · refine Run.guarded_of_reaching (I := fun s => ∃ l, Recent s l) ⟨[], .start hdir hc⟩ hkeep ?_
    rintro s va s' ⟨l, h⟩ ht hheld
    obtain ⟨-, l', hiff, -⟩ := h.step ht
    exact hiff.1 hheld

theorem length_recent_concat (ps : List ℕ) (p : ℕ) : (Lib.recent (ps ++ [p])).length =
    (Lib.recent ps).length + if p ∈ ps then 0 else 1 := by
  rw [recent_concat, List.length_cons, List.length_erase]
  split_ifs with h1 h2 h2
  · have := List.length_pos_of_mem h1
    omega
  · exact absurd (mem_recent.1 h1) h2
  · exact absurd (mem_recent.2 h2) h1
  · rfl

/-- While no more pages than the capacity are translated, none is replaced. -/
theorem lru_of_few (hdir : vm.pageDir ≠ 0) (hc : 0 < c) {vas : List ℕ}
    (hrun : Run (Translates μ) (vm.emptyTlb c) vas s) (hfew : (Lib.recent s.2).length ≤ c) :
    Run (Guarded ReplacesOldest (Translates μ)) (vm.emptyTlb c) vas s := by
  have hall : (Lib.recent s.2).length ≤ c →
      Run (Guarded ReplacesOldest (Translates μ)) (vm.emptyTlb c) vas s ∧ (∃ l, Recent s l) ∧
        s.1.tlb.entries = c := by
    clear hfew
    induction hrun with
    | nil => exact fun _ => ⟨.nil, ⟨[], .start hdir hc⟩, rfl⟩
    | @snoc vas s s' va _ ht ih =>
      intro hfew
      rw [ht.pages, length_recent_concat] at hfew
      obtain ⟨hrun, ⟨l, h⟩, hent⟩ := ih (by omega)
      have hr : ReplacesOldest s va := by
        intro hmem hfull
        have hlen := h.length_eq
        have hlength := h.length
        unfold Tracked.recent at hmem hlen
        rw [List.take_of_length_le (by omega)] at hmem hlen
        rw [if_neg fun hp => hmem (mem_recent.2 hp)] at hfew
        omega
      obtain ⟨hent', l', hiff, hs⟩ := h.step ht
      exact ⟨hrun.snoc ⟨hr, ht⟩, ⟨l', hs (hiff.2 hr)⟩, hent'.trans hent⟩
  exact (hall hfew).1

/-! ## Three pages in a TLB of two entries -/

/-- `page_map` maps the pages 0, 1 and 2. -/
theorem exists_three_mapped : ∃ vm : Vm, vm.pageDir ≠ 0 ∧ ∀ p < 3, vm.Mapped (p * pgSize) := by
  have hvalue : ((setPhysicalMem 4096 Vm.start).bind fun vm => (pageMap vm 0 659456).bind
      fun r => (pageMap r.1 pgSize 724992).bind
        fun r => pageMap r.1 (2 * pgSize) 790528).isSome := rfl
  obtain ⟨⟨vm₃, status₃⟩, hcalls⟩ := Option.isSome_iff_exists.1 hvalue
  obtain ⟨vm₀, hset, hcalls⟩ := Option.bind_eq_some_iff.1 hcalls
  obtain ⟨⟨vm₁, status₁⟩, hmap₁, hcalls⟩ := Option.bind_eq_some_iff.1 hcalls
  obtain ⟨⟨vm₂, status₂⟩, hmap₂, hmap₃⟩ := Option.bind_eq_some_iff.1 hcalls
  have hfresh := setPhysicalMem_spec (by decide) hset
  obtain ⟨hok₁, -, hpte₁⟩ := pageMap_spec hfresh.frames.tablesOk (by decide) hmap₁
  obtain ⟨hok₂, -, hpte₂⟩ := pageMap_spec hok₁ (by decide) hmap₂
  obtain ⟨hok₃, -, hpte₃⟩ := pageMap_spec hok₂ (by decide) hmap₃
  refine ⟨vm₃, hok₃.apart.pageDir_pos.ne', fun p hp => ?_⟩
  have hzero : ∀ d < 4, ∀ t, vm₀.pte d t = 0 := fun d hd t => pte_of_pde_zero (hfresh.pde d hd)
  unfold Vm.Mapped Vm.entry
  rw [hpte₃ _ (dirIndex_lt _) _ (tableIndex_lt _), hpte₂ _ (dirIndex_lt _) _ (tableIndex_lt _),
    hpte₁ _ (dirIndex_lt _) _ (tableIndex_lt _), hzero _ (dirIndex_lt _)]
  simp only [dirIndex_eq, tableIndex_eq]
  interval_cases p <;> decide

/-- A call that misses, by the list alone. -/
theorem Translates.of_miss {T T' : Tlb} {ps : List ℕ} (hdir : vm.pageDir ≠ 0) (hva : va < 2 ^ 32)
    (hmap : vm.Mapped va)
    (hcheck : checkTlb T (pageAddr (pageNumber va)) =
      some ({ T with misses := T.misses + 1 }, none))
    (hadd : addTlb μ { T with misses := T.misses + 1 } (pageAddr (pageNumber va)) (vm.entry va) =
      some T') (hμ : (μ.addr T.mallocs T.nodes).isSome) :
    Translates μ ({ vm with tlb := T }, ps) va ({ vm with tlb := T' }, ps ++ [pageNumber va]) where
  address := hva
  mapped := hmap
  call := by
    refine ⟨some (vm.entry va), ?_⟩
    have hpde : vm.pde (dirIndex va) ≠ 0 := fun hz => hmap (pte_of_pde_zero hz)
    have hentry : vm.entry va = vm.mem.getNat (vm.pde (dirIndex va) + pteSize * tableIndex va)
        pteSize := pte_eq_getNat hpde
    unfold Vm.Mapped at hmap
    rw [hentry] at hmap hadd ⊢
    simp only [translate, form_eq_pageAddr hva, hcheck, Option.bind_eq_bind, Option.bind_some,
      if_neg hdir]
    rw [if_neg (by exact hpde), if_neg (by exact hmap)]
    exact (congrArg (Option.bind · _) hadd).trans rfl
  malloc _ := Option.isSome_iff_ne_none.1 hμ
  pages := rfl

/-- Two pages fit in a TLB of two entries. -/
theorem lru_exact_two : ∃ vm s, Vm.pageDir vm ≠ 0 ∧ 0 < 2 ∧
    Run (Guarded ReplacesOldest (Translates (.bump _))) (vm.emptyTlb 2) [0, pgSize] s ∧
    HoldsRecent s := by
  obtain ⟨vm, hdir, hmap⟩ := exists_three_mapped
  obtain ⟨s, hrun, hpages⟩ : ∃ s, Run (Translates (.bump _)) (vm.emptyTlb 2) [0, pgSize] s ∧
      s.2 = [0, 1] :=
    ⟨_, (Run.single (.of_miss hdir (by decide) (hmap 0 (by decide)) rfl rfl rfl)).append
      (.single (.of_miss hdir (by decide) (hmap 1 (by decide)) rfl rfl rfl)), rfl⟩
  have hguarded := lru_of_few hdir (by decide) hrun (by rw [hpages]; decide)
  exact ⟨vm, s, hdir, by decide, hguarded, (lru_exact (.bump _) hdir (by decide) _ s).1 hguarded⟩

/-- **The defect.** A third page replaces the second, which is the most recent, and not the
first. -/
theorem third_page_replaces_second : ¬∀ vm c vas s, Vm.pageDir vm ≠ 0 → 2 ≤ c →
    Run (Translates (.bump _)) (vm.emptyTlb c) vas s → HoldsRecent s := by
  intro hall
  obtain ⟨vm, hdir, hmap⟩ := exists_three_mapped
  obtain ⟨s, hrun, hpages, hent, hhead, h1, h3⟩ : ∃ s,
      Run (Translates (.bump _)) (vm.emptyTlb 2) [0, pgSize, 2 * pgSize] s ∧ s.2 = [0, 1, 2] ∧
      s.1.tlb.entries = 2 ∧ s.1.tlb.head = some 3 ∧
      s.1.tlb.nodes 1 = some ⟨0, vm.entry 0, none⟩ ∧
      s.1.tlb.nodes 3 = some ⟨2 * pgSize, vm.entry (2 * pgSize), some 1⟩ :=
    ⟨_, ((Run.single (.of_miss hdir (by decide) (hmap 0 (by decide)) rfl rfl rfl)).append
      (.single (.of_miss hdir (by decide) (hmap 1 (by decide)) rfl rfl rfl))).append
      (.single (.of_miss hdir (by decide) (hmap 2 (by decide)) rfl rfl rfl)),
      rfl, rfl, rfl, rfl, rfl⟩
  obtain ⟨l, hchain, hheld⟩ := hall vm 2 _ s hdir le_rfl hrun
  obtain rfl : [3, 1] = l :=
    Chain.unique (⟨hhead, _, h3, rfl, _, h1, rfl⟩ :
      Chain s.1.tlb.nodes TlbNode.next s.1.tlb.head [3, 1]) hchain
  rw [Tracked.recent, hpages, hent] at hheld
  have hmem := hheld.mem_iff (a := some (pageAddr 0))
  revert hmem
  simp only [List.map_cons, List.map_nil, Tlb.vaAt, h1, h3, Option.map_some]
  decide

end UserOS.MyVm
