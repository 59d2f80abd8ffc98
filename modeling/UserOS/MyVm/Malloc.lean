import UserOS.MyVm.Pages

/-!
# `t_malloc` and `t_free`

`t_malloc` takes a run of free virtual pages and maps them one by one to the lowest free frame.
`t_free` unmaps the pages of one page table, and clears the bits of the frames that *follow the
first page's frame*, although `t_malloc` may have taken other frames, with page tables between
them.

* `mapPages_spec`, `tMalloc_spec`: the new pages are mapped to frames of their own.
* `freePages_spec`, `tFree_spec`: what is unmapped and which bits are cleared.
-/

namespace UserOS.MyVm

open Lib

/-! ## The functions -/

/-- `pthread_mutex_lock`; there is no result while the lock is held. -/
def Vm.lock (vm : Vm) : Option Vm := if vm.mutex then none else some { vm with mutex := true }

theorem Vm.lock_of_free {vm : Vm} (h : vm.mutex = false) :
    vm.lock = some { vm with mutex := true } := by
  simp [Vm.lock, h]

/-- `pthread_mutex_unlock`. -/
def Vm.unlock (vm : Vm) : Vm := { vm with mutex := false }

/-- `ceil(num_bytes / (float)PGSIZE)`. The 32-bit build divides in extended precision, so that the
quotient is exact. -/
def pagesRequired (numBytes : ℤ) : ℕ := (-(-numBytes / pgSize)).toNat

/-- The first part of `t_malloc`. When `malloc` returns null, `set_physical_mem` writes through
it. -/
def ensureMemory (base : ℕ) (vm : Vm) : Option Vm :=
  if vm.memoryStart = 0 then setPhysicalMem base vm else some vm

/-- The loop of `t_malloc`, with `n` pages left. -/
def mapPages : ℕ → Vm → ℕ → ℕ → Option Vm
  | 0, vm, _, _ => some vm
  | n + 1, vm, va, phyPage => do
    let vm := { vm with
      virtBitmap := setBitAtIndex vm.virtBitmap
        (dirIndex va * layout.pageTableEntries + tableIndex va)
      phyBitmap := setBitAtIndex vm.phyBitmap ((phyPage - vm.memoryStart) / pgSize) }
    let (vm, _) ← pageMap vm va phyPage
    let phyPage ← firstFreePage vm
    mapPages n vm (if n = 0 then va else getNextPage va) phyPage

/-- `t_malloc`, where `malloc` returns `base` if it is called. There is no result when the call
blocks or reads through a null pointer. -/
def tMalloc (base : ℕ) (vm : Vm) (numBytes : ℕ) : Option (Vm × ℕ) := do
  let vm ← vm.lock
  let vm ← ensureMemory base vm
  let va := (getNextAvail vm (pagesRequired numBytes)).getD 0
  match findFreePhysicalPage vm (pagesRequired numBytes) with
  | none => some (vm.unlock, 0)
  | some _ =>
    let phyPage ← firstFreePage vm
    let vm ← mapPages (pagesRequired numBytes) vm va phyPage
    some (vm.unlock, va)

/-- `page_table[t]` for the table at address `pageTable`. -/
def Vm.word (vm : Vm) (pageTable t : ℕ) : ℕ := vm.mem.getNat (pageTable + pteSize * t) pteSize

/-- The body of the second loop of `t_free`. -/
def freePage (vm : Vm) (pageTable d t phy : ℕ) : Option Vm := do
  let tlb ← deleteFromTlb vm.tlb (formVirtualAddress layout d t)
  some { vm with
    tlb := tlb
    mem := (vm.mem.fill (vm.word pageTable t) pgSize 0).setNat (pageTable + pteSize * t) pteSize 0
    phyBitmap := unsetBitAtIndex vm.phyBitmap phy
    virtBitmap := unsetBitAtIndex vm.virtBitmap (d * layout.pageTableEntries + t) }

/-- The second loop of `t_free`, with `n` pages left. -/
def freePages (pageTable d : ℕ) : ℕ → Vm → ℕ → ℕ → Option Vm
  | 0, vm, _, _ => some vm
  | n + 1, vm, t, phy => do
    let vm ← freePage vm pageTable d t phy
    freePages pageTable d n vm (t + 1) (phy + 1)

/-- `t_free`. -/
def tFree (vm : Vm) (va : ℕ) (size : ℤ) : Option Vm := do
  let vm ← vm.lock
  let pagesFree := pagesRequired size
  let d := dirIndex va
  let t := tableIndex va
  if vm.memoryStart = 0 ∨ vm.pde d = 0 then some vm.unlock
  else if ∃ i < pagesFree, vm.word (vm.pde d) (t + i) = 0 then some vm.unlock
  else
    let startPagePhysical := (vm.word (vm.pde d) t - vm.memoryStart) / pgSize
    let vm ← freePages (vm.pde d) d pagesFree vm t startPagePhysical
    some vm.unlock

/-! ## Mapping -/

variable {vm vm' : Vm} {va phy : ℕ}

/-- What holds of the state between the calls. -/
structure MemOk (vm : Vm) : Prop where
  frames : FramesOk vm
  tlb : TlbAgrees vm
  virt : VirtOk vm

/-- `vm'` is `vm` with the pages from `p` on, `n` of them, mapped. -/
structure Grown (vm vm' : Vm) (p n : ℕ) : Prop where
  ok : MemOk vm'
  new : ∀ i, p ≤ i → i < p + n → vm'.pteAt i ≠ 0
  old : ∀ i < 65536, i < p ∨ p + n ≤ i → vm'.pteAt i = vm.pteAt i
  virt : ∀ i, isSet vm'.virtBitmap i = (decide (p ≤ i ∧ i < p + n) || isSet vm.virtBitmap i)
  bytes : ∀ i < 65536, vm.pteAt i ≠ 0 → ∀ k < pgSize,
    vm'.mem (vm.pteAt i + k) = vm.mem (vm.pteAt i + k)

theorem Grown.none {p : ℕ} (h : MemOk vm) : Grown vm vm p 0 :=
  ⟨h, fun i h1 h2 => by omega, fun _ _ _ => rfl, fun i => by simp, fun _ _ _ _ _ => rfl⟩

theorem Grown.append {vm'' : Vm} {p n m : ℕ} (h : Grown vm vm' p n) (h' : Grown vm' vm'' (p + n) m)
    (hp : p + n + m ≤ 65536) (hfree : ∀ i, p ≤ i → i < p + n → vm.pteAt i = 0) :
    Grown vm vm'' p (n + m) where
  ok := h'.ok
  new i h1 h2 := by
    by_cases hi : i < p + n
    · rw [h'.old i (by omega) (.inl hi)]
      exact h.new i h1 hi
    · exact h'.new i (by omega) (by omega)
  old i hi hout := by rw [h'.old i hi (by omega), h.old i hi (by omega)]
  virt i := by
    rw [h'.virt, h.virt, ← Bool.or_assoc, ← Bool.decide_or]
    congr 1
    exact decide_eq_decide.2 (by omega)
  bytes i hi hne k hk := by
    have hout : i < p ∨ p + n ≤ i := by
      by_contra hin
      exact hne (hfree i (by omega) (by omega))
    have := h'.bytes i hi (by rwa [h.old i hi hout]) k hk
    rw [h.old i hi hout] at this
    rw [this, h.bytes i hi hne k hk]

/-- Marking bits keeps the frames. -/
theorem FramesOk.mark (h : FramesOk vm) {f : ℕ} {bm : Bytes} : FramesOk { vm with
    virtBitmap := bm, phyBitmap := setBitAtIndex vm.phyBitmap f } where
  toPlaced := ⟨h.start, h.fits⟩
  frames := h.frames.mono fun a ha => by
    obtain ⟨g, hg, rfl, hset⟩ := ha
    exact ⟨g, hg, rfl, by simp [hset]⟩

/-- The state in which the loop of `t_malloc` calls `page_map`. -/
def Vm.marked (vm : Vm) (va phy : ℕ) : Vm := { vm with
  virtBitmap := setBitAtIndex vm.virtBitmap (dirIndex va * layout.pageTableEntries + tableIndex va)
  phyBitmap := setBitAtIndex vm.phyBitmap ((phy - vm.memoryStart) / pgSize) }

/-- What an installed table leaves alone in a state whose pages have frames of their own. -/
theorem Installed.bytes {d f : ℕ} (hi : Installed vm vm' d f) (h : FramesOk vm) (hd : d < 4)
    {d' t' : ℕ} (hd' : d' < 4) (ht' : t' < 16384) (hne : vm.pte d' t' ≠ 0) {k : ℕ}
    (hk : k < pgSize) : vm'.mem (vm.pte d' t' + k) = vm.mem (vm.pte d' t' + k) := by
  have howns := Vm.owns_page hd' ht' hne
  have hframe := h.apart.frames.used howns
  have hdir := hframe.disjoint h.apart.tablesApart.dir_frame
    (h.frames.ne (j := .dir) howns rfl (by simp))
  have hnew := hframe.disjoint ⟨f, hi.lt, rfl⟩ fun heq =>
    h.frames.not_owned (Vm.not_used_of_free hi.free) _ (heq ▸ howns)
  unfold pgSize at hk
  exact hi.mem _ (by omega) (by omega)

/-- `mid` is `vm` but for the page table of slot `d`, which was installed in the frames `tables`, if
there was none. -/
structure TableReady (vm mid : Vm) (d : ℕ) (tables : List ℕ) : Prop where
  frames : FramesOk mid
  start : mid.memoryStart = vm.memoryStart
  dir : mid.pageDir = vm.pageDir
  virt : mid.virtBitmap = vm.virtBitmap
  tlb : mid.tlb = vm.tlb
  mutex : mid.mutex = vm.mutex
  used : ∀ a, vm.Used a → mid.Used a
  unowned : ∀ a, vm.Used a → (∀ o, vm.owns o ≠ some a) → ∀ o, mid.owns o ≠ some a
  pde : ∀ d' < 4, d' ≠ d → mid.pde d' = vm.pde d'
  table : vm.pde d ≠ 0 ∧ tables = [] ∧ mid.pde d = vm.pde d ∨ vm.pde d = 0 ∧ ∃ g, tables = [g] ∧
    g < numFrames ∧ isSet vm.phyBitmap g = false ∧ mid.pde d = frameAddr vm.memoryStart g
  phy : ∀ x, isSet mid.phyBitmap x = (decide (x ∈ tables) || isSet vm.phyBitmap x)
  pte : ∀ d < 4, ∀ t < 16384, mid.pte d t = vm.pte d t
  bytes : ∀ d < 4, ∀ t < 16384, vm.pte d t ≠ 0 → ∀ k < pgSize,
    mid.mem (vm.pte d t + k) = vm.mem (vm.pte d t + k)

theorem tableReady {mid : Vm} {d : ℕ} (h : FramesOk vm) (hd : d < 4) (hpde : mid.pde d ≠ 0)
    (hmid : mid = vm ∨ vm.pde d = 0 ∧ ∃ f, Installed vm mid d f) :
    ∃ tables, TableReady vm mid d tables := by
  obtain rfl | ⟨h0, f, hi⟩ := hmid
  · exact ⟨[], h, rfl, rfl, rfl, rfl, rfl, fun _ ha => ha, fun _ _ ha => ha, fun _ _ _ => rfl,
      .inl ⟨hpde, rfl, rfl⟩, fun x => by simp, fun _ _ _ _ => rfl, fun _ _ _ _ _ _ _ => rfl⟩
  · refine ⟨[f], hi.framesOk h, by rw [hi.eq], by rw [hi.eq], by rw [hi.eq], by rw [hi.eq],
      by rw [hi.eq], fun a => hi.used, fun a ha hun o => ?_,
      fun d' hd' hne => (hi.other d' hd' hne).1,
      .inr ⟨h0, f, rfl, hi.lt, hi.free, hi.pde⟩, fun x => ?_,
      fun d' hd' t' ht' => hi.pte_eq h0 hd' ht',
      fun d' hd' t' ht' hne k hk => hi.bytes h hd hd' ht' hne hk⟩
    · rw [hi.owns]
      by_cases ho : o = .table d
      · subst ho
        rw [Function.update_self]
        intro heq
        rw [← Option.some.inj heq] at ha
        exact Vm.not_used_of_free hi.free ha
      · rw [Function.update_of_ne ho]
        exact hun o
    · rw [hi.eq]
      simp

/-- What one turn of the loop of `t_malloc` does for page `p`: the entry gets the frame `f` if it is
empty, and the directory slot a table in one of the frames `tables` if it is empty. -/
structure PageStep (vm vm' : Vm) (p f : ℕ) (tables : List ℕ) : Prop where
  frames : FramesOk vm'
  start : vm'.memoryStart = vm.memoryStart
  dir : vm'.pageDir = vm.pageDir
  tlb : vm'.tlb = vm.tlb
  mutex : vm'.mutex = vm.mutex
  lt : f < numFrames
  free : isSet vm.phyBitmap f = false
  pte : ∀ i < 65536, vm'.pteAt i =
    if i = p ∧ vm.pteAt p = 0 then frameAddr vm.memoryStart f else vm.pteAt i
  pde : ∀ d < 4, d ≠ p / 16384 → vm'.pde d = vm.pde d
  table : vm.pde (p / 16384) ≠ 0 ∧ tables = [] ∧ vm'.pde (p / 16384) = vm.pde (p / 16384) ∨
    vm.pde (p / 16384) = 0 ∧ ∃ g, tables = [g] ∧ g < numFrames ∧ isSet vm.phyBitmap g = false ∧
      g ≠ f ∧ vm'.pde (p / 16384) = frameAddr vm.memoryStart g
  phy : ∀ x, isSet vm'.phyBitmap x = (decide (x = f ∨ x ∈ tables) || isSet vm.phyBitmap x)
  virt : ∀ i, isSet vm'.virtBitmap i = (decide (i = p) || isSet vm.virtBitmap i)
  bytes : ∀ i < 65536, vm.pteAt i ≠ 0 → ∀ k < pgSize,
    vm'.mem (vm.pteAt i + k) = vm.mem (vm.pteAt i + k)

/-- The state after the marks. -/
theorem Vm.marked_eq {f : ℕ} (hva : va < 2 ^ 32) :
    vm.marked va (frameAddr vm.memoryStart f) = { vm with
      virtBitmap := setBitAtIndex vm.virtBitmap (pageNumber va)
      phyBitmap := setBitAtIndex vm.phyBitmap f } := by
  have hindex : (frameAddr vm.memoryStart f - vm.memoryStart) / pgSize = f := by
    unfold frameAddr pgSize; omega
  unfold Vm.marked
  rw [hindex, layout_pageTableEntries, ← pageNumber_eq hva]

/-- The two ways in which a turn ends, in the state `mid` in which the table is there: the entry is
kept, or stored. -/
theorem pageStep_of_table {mid : Vm} {f : ℕ} {tables : List ℕ} (h : FramesOk vm) (hva : va < 2 ^ 32)
    (hf : f < numFrames) (hfree : isSet vm.phyBitmap f = false)
    (hready : TableReady (vm.marked va (frameAddr vm.memoryStart f)) mid (dirIndex va) tables)
    (hpde : mid.pde (dirIndex va) ≠ 0)
    (hcases : mid.pte (dirIndex va) (tableIndex va) ≠ 0 ∧ vm' = mid ∨
      mid.pte (dirIndex va) (tableIndex va) = 0 ∧
        vm' = mid.storePte (dirIndex va) (tableIndex va) (frameAddr vm.memoryStart f)) :
    PageStep vm vm' (pageNumber va) f tables := by
  set phy := frameAddr vm.memoryStart f with hphydef
  have hd := dirIndex_lt va
  have ht := tableIndex_lt va
  have hpage := pageNumber_eq hva
  have hslot : pageNumber va / 16384 = dirIndex va := by omega
  have hmarked : vm.marked va phy = _ := Vm.marked_eq hva
  have hused : (vm.marked va phy).Used phy := by
    rw [hmarked]
    exact ⟨f, hf, rfl, by simp⟩
  have hbounds := hused.isFrame.bounds
  have hphylt : phy ≠ 0 ∧ phy < 2 ^ 32 := by
    have h1 := h.start
    have h2 := h.fits
    rw [hmarked] at hbounds
    dsimp only at hbounds
    omega
  have hun : ∀ o, mid.owns o ≠ some phy := hready.unowned phy hused
    (h.frames.not_owned (Vm.not_used_of_free hfree))
  have hmidT := hready.frames.apart.tablesApart
  have hold : ∀ i < 65536, mid.pteAt i = vm.pteAt i := fun i hi => by
    exact hready.pte _ (by omega) _ (by omega)
  have hentry : mid.pte (dirIndex va) (tableIndex va) = vm.pteAt (pageNumber va) := by
    rw [hpage, Vm.pteAt_fields ht]
    exact hready.pte _ hd _ ht
  have hphy : ∀ x, isSet mid.phyBitmap x =
      (decide (x = f ∨ x ∈ tables) || isSet vm.phyBitmap x) := fun x => by
    rw [hready.phy, hmarked, setBitAtIndex_bit, ← Bool.or_assoc, ← Bool.decide_or]
    exact congrArg (· || _) (decide_eq_decide.2 or_comm)
  have hvirt : ∀ i, isSet mid.virtBitmap i =
      (decide (i = pageNumber va) || isSet vm.virtBitmap i) := fun i => by
    rw [hready.virt, hmarked, setBitAtIndex_bit]
  have htable : vm.pde (pageNumber va / 16384) ≠ 0 ∧ tables = [] ∧
        mid.pde (pageNumber va / 16384) = vm.pde (pageNumber va / 16384) ∨
      vm.pde (pageNumber va / 16384) = 0 ∧ ∃ g, tables = [g] ∧ g < numFrames ∧
        isSet vm.phyBitmap g = false ∧ g ≠ f ∧
        mid.pde (pageNumber va / 16384) = frameAddr vm.memoryStart g := by
    rw [hslot]
    obtain hkept | ⟨h0, g, hg, hlt, hgfree, heq⟩ := hready.table
    · exact .inl hkept
    · rw [hmarked, setBitAtIndex_bit, Bool.or_eq_false_iff, decide_eq_false_iff_not] at hgfree
      exact .inr ⟨h0, g, hg, hlt, hgfree.2, hgfree.1, heq⟩
  have hbytes : ∀ i < 65536, vm.pteAt i ≠ 0 → ∀ k < pgSize,
      mid.mem (vm.pteAt i + k) = vm.mem (vm.pteAt i + k) := fun i hi hne k hk =>
    hready.bytes (i / 16384) (by omega) (i % 16384) (by omega) hne k hk
  obtain ⟨hne, rfl⟩ | ⟨hz, rfl⟩ := hcases
  · rw [hentry] at hne
    exact ⟨hready.frames, hready.start, hready.dir, hready.tlb, hready.mutex, hf, hfree,
      fun i hi => by rw [hold i hi, if_neg (fun hh => hne hh.2)],
      fun d' hd' hne' => hready.pde d' hd' (hslot ▸ hne'), htable, hphy, hvirt, hbytes⟩
  · rw [hentry] at hz
    have hpdes : ∀ d < 4, (mid.storePte (dirIndex va) (tableIndex va) phy).pde d = mid.pde d :=
      fun d' hd' => Vm.pde_storePte hmidT hd ht hpde hd'
    refine ⟨⟨⟨hready.frames.start, hready.frames.fits⟩, ?_⟩, hready.start, hready.dir, hready.tlb,
      hready.mutex, hf, hfree, fun i hi => ?_,
      fun d' hd' hne' => (hpdes d' hd').trans (hready.pde d' hd' (hslot ▸ hne')), ?_, hphy, hvirt,
      fun i hi hne k hk => ?_⟩
    · rw [Vm.storePte_owns hmidT hd ht hpde hphylt.2, if_neg hphylt.1]
      exact hready.frames.frames.acquire hun (fun _ ha => ha) (hready.used _ hused)
    · unfold Vm.pteAt
      rw [Vm.pte_storePte hmidT hd ht hpde hphylt.2 (by omega) (by omega)]
      by_cases hi' : i = pageNumber va
      · rw [if_pos (by omega), if_pos ⟨hi', hz⟩]
      · rw [if_neg (by omega), if_neg (fun hh => hi' hh.1)]
        exact hold i hi
    · rw [hpdes _ (by omega)]
      exact htable
    · have hsame := hold i hi
      have hdisj := (hready.frames.apart.frames.used
        (Vm.owns_pteAt hi (by rwa [hsame]))).disjoint (hmidT.table_frame hd hpde)
        (hready.frames.frames.ne (Vm.owns_pteAt hi (by rwa [hsame]))
          (Vm.owns_of_tableOwns (TablesApart.tableOwns_table hd hpde)) (by simp))
      rw [hsame] at hdisj
      rw [← hbytes i hi hne k hk]
      refine Bytes.setNat_of_outside ?_
      unfold pteSize pgSize at *
      show vm.pteAt i + k < _ ∨ _ ≤ vm.pteAt i + k
      omega

/-- One turn of the loop. -/
theorem mapPage_step {status : ℤ} (h : FramesOk vm) (hva : va < 2 ^ 32)
    (hphy : firstFreePage vm = some phy)
    (hm : pageMap (vm.marked va phy) va phy = some (vm', status)) :
    ∃ f tables, PageStep vm vm' (pageNumber va) f tables := by
  obtain ⟨f, hf, rfl, hfree⟩ := firstFreePage_eq_some hphy
  have hframes : FramesOk (vm.marked va (frameAddr vm.memoryStart f)) := by
    rw [Vm.marked_eq hva]
    exact h.mark
  obtain ⟨mid, hmid, -, hpde, hcases⟩ := pageMap_cases hframes.tablesOk hm
  obtain ⟨tables, hready⟩ := tableReady hframes (dirIndex_lt va) hpde hmid
  exact ⟨f, tables, pageStep_of_table h hva hf hfree hready hpde
    (hcases.imp (fun hh => ⟨hh.1, hh.2.1⟩) fun hh => ⟨hh.1, hh.2.1⟩)⟩

/-- A turn keeps the memory in order. -/
theorem PageStep.memOk {p f : ℕ} {tables : List ℕ} (hs : PageStep vm vm' p f tables)
    (h : MemOk vm) : MemOk vm' where
  frames := hs.frames
  tlb := h.tlb.congr hs.tlb fun d' hd' t' ht' hne => by
    have hpte := hs.pte (d' * 16384 + t') (by omega)
    rw [Vm.pteAt_fields ht', Vm.pteAt_fields ht'] at hpte
    rw [hpte, if_neg]
    rintro ⟨rfl, h0⟩
    rw [Vm.pteAt_fields ht'] at h0
    exact hne h0
  virt i hi hne := by
    rw [hs.virt]
    by_cases hip : i = p
    · simp [hip]
    · rw [hs.pte i hi, if_neg (fun hh => hip hh.1)] at hne
      simp [h.virt i hi hne]

/-- One page: a free page is mapped to a free frame. -/
theorem mapPage_spec {status : ℤ} (h : MemOk vm) (hva : va < 2 ^ 32)
    (hbit : isSet vm.virtBitmap (pageNumber va) = false) (hphy : firstFreePage vm = some phy)
    (hm : pageMap (vm.marked va phy) va phy = some (vm', status)) :
    Grown vm vm' (pageNumber va) 1 := by
  obtain ⟨f, tables, hs⟩ := mapPage_step h.frames hva hphy hm
  have hp : pageNumber va < 65536 := by
    have := pageNumber_eq hva
    have := dirIndex_lt va
    have := tableIndex_lt va
    omega
  have hpte0 := h.virt.pteAt_eq_zero hp hbit
  refine ⟨hs.memOk h, fun i h1 h2 => ?_, fun i hi hout => ?_, fun i => ?_, hs.bytes⟩
  · have := h.frames.start
    rw [hs.pte i (by omega), if_pos ⟨by omega, hpte0⟩]
    unfold frameAddr
    omega
  · rw [hs.pte i hi, if_neg (by omega)]
  · rw [hs.virt]
    congr 1
    exact decide_eq_decide.2 (by omega)

theorem mapPages_spec {n : ℕ} (h : MemOk vm) (hva : va < 2 ^ 32)
    (hfits : pageNumber va + n ≤ 65536)
    (hfree : ∀ i, pageNumber va ≤ i → i < pageNumber va + n → isSet vm.virtBitmap i = false)
    (hphy : firstFreePage vm = some phy) (hm : mapPages n vm va phy = some vm') :
    Grown vm vm' (pageNumber va) n := by
  induction n generalizing vm va phy with
  | zero =>
    rw [mapPages, Option.some.injEq] at hm
    exact hm ▸ .none h
  | succ n ih =>
    obtain ⟨⟨mid, status⟩, hmap, hm⟩ := Option.bind_eq_some_iff.1 hm
    obtain ⟨phy', hphy', hm⟩ := Option.bind_eq_some_iff.1 hm
    have hgrown := mapPage_spec h hva (hfree _ le_rfl (by omega)) hphy hmap
    have hpte : ∀ i, pageNumber va ≤ i → i < pageNumber va + 1 → vm.pteAt i = 0 := fun i h1 h2 =>
      h.virt.pteAt_eq_zero (by omega) (hfree i h1 (by omega))
    by_cases hn : n = 0
    · subst hn
      rw [mapPages, Option.some.injEq] at hm
      exact hm ▸ hgrown
    · rw [if_neg hn] at hm
      have hnext : pageNumber (getNextPage va) = pageNumber va + 1 := getNextPage_page (by omega)
      have := ih hgrown.ok (getNextPage_lt hva) (by omega) (fun i h1 h2 => by
        rw [hgrown.virt, hfree i (by omega) (by omega), Bool.or_false, decide_eq_false_iff_not]
        omega) hphy' hm
      rw [hnext] at this
      rw [Nat.add_comm n 1]
      exact hgrown.append this (by omega) hpte

theorem MemOk.withMutex (h : MemOk vm) (b : Bool) : MemOk { vm with mutex := b } :=
  ⟨⟨⟨h.frames.start, h.frames.fits⟩, h.frames.frames⟩, h.tlb, h.virt⟩

theorem Grown.unlock {p n : ℕ} (h : Grown vm vm' p n) : Grown vm vm'.unlock p n :=
  ⟨h.ok.withMutex false, h.new, h.old, h.virt, h.bytes⟩

theorem Fresh.memOk {base : ℕ} (h : Fresh base vm vm') (hempty : vm.tlb = Tlb.empty) :
    MemOk vm' where
  frames := h.frames
  tlb := .empty (h.tlb.trans hempty)
  virt p hp hne := absurd (pte_of_pde_zero (h.pde _ (by omega))) hne

/-- The memory that is there, or the start of the program. -/
def Usable (vm : Vm) : Prop := MemOk vm ∨ vm.memoryStart = 0 ∧ vm.tlb = Tlb.empty

theorem ensureMemory_spec {base : ℕ} (h : Usable vm)
    (hbase : vm.memoryStart = 0 → base + memSize ≤ 2 ^ 32)
    (he : ensureMemory base vm = some vm') :
    MemOk vm' ∧ (vm.memoryStart ≠ 0 → vm' = vm) := by
  unfold ensureMemory at he
  split_ifs at he with h0
  · obtain hok | ⟨-, hempty⟩ := h
    · exact absurd h0 hok.frames.start.ne'
    · exact ⟨(setPhysicalMem_spec (hbase h0) he).memOk hempty, fun hne => absurd h0 hne⟩
  · rw [Option.some.injEq] at he
    subst he
    exact ⟨h.resolve_right fun hh => h0 hh.1, fun _ => rfl⟩

/-- `t_malloc` finds a run of free virtual pages and enough free frames. -/
def served (base : ℕ) (vm : Vm) (numBytes : ℕ) : Bool :=
  (vm.lock >>= ensureMemory base).any fun vm =>
    (getNextAvail vm (pagesRequired numBytes)).isSome &&
      (findFreePhysicalPage vm (pagesRequired numBytes)).isSome

theorem pagesRequired_eq (n : ℕ) : pagesRequired n = (n + 65535) / 65536 := by
  unfold pagesRequired pgSize
  omega

/-- **Allocation.** The region returned is a run of pages that were free, mapped to frames of their
own; every other page is as before. -/
theorem tMalloc_spec {base n : ℕ} (h : Usable vm)
    (hbase : vm.memoryStart = 0 → base + memSize ≤ 2 ^ 32) (hn : 1 ≤ n) (hs : served base vm n)
    (hm : tMalloc base vm n = some (vm', va)) :
    ∃ vm₁ p, va = p * pgSize ∧ p + pagesRequired n ≤ 65536 ∧ vm'.mutex = false ∧
      Grown vm₁ vm' p (pagesRequired n) ∧
      (∀ i, p ≤ i → i < p + pagesRequired n → vm₁.pteAt i = 0) ∧
      (vm.memoryStart ≠ 0 → vm₁ = { vm with mutex := true }) := by
  obtain ⟨vm₁, hens, hs⟩ := (Option.any_eq_true _ _).1 hs
  obtain ⟨vm₀, hlock, hens⟩ := Option.bind_eq_some_iff.1 hens
  have hvm₀ : vm₀ = { vm with mutex := true } := by
    unfold Vm.lock at hlock
    split_ifs at hlock
    exact (Option.some.inj hlock).symm
  subst hvm₀
  have husable : Usable { vm with mutex := true } := h.imp (·.withMutex true) id
  obtain ⟨hok, hsame⟩ := ensureMemory_spec husable hbase hens
  rw [Bool.and_eq_true] at hs
  obtain ⟨va', hva'⟩ := Option.isSome_iff_exists.1 hs.1
  obtain ⟨pages, hpages⟩ := Option.isSome_iff_exists.1 hs.2
  have hk : 0 < pagesRequired n := by rw [pagesRequired_eq]; omega
  obtain ⟨p, rfl, hp, hfree⟩ := getNextAvail_spec hk hva'
  unfold tMalloc at hm
  simp only [hlock, hens, hva', hpages, Option.bind_eq_bind, Option.bind_some, Option.getD_some]
    at hm
  obtain ⟨phy, hphy, hm⟩ := Option.bind_eq_some_iff.1 hm
  obtain ⟨vm₂, hmap, hm⟩ := Option.bind_eq_some_iff.1 hm
  rw [Option.some.injEq, Prod.mk.injEq] at hm
  obtain ⟨rfl, rfl⟩ := hm
  have hpn : pageNumber (p * pgSize) = p := Nat.mul_div_cancel p (by decide)
  have hgrown := mapPages_spec hok (by unfold pgSize; omega) (by rwa [hpn]) (by rwa [hpn]) hphy hmap
  rw [hpn] at hgrown
  exact ⟨vm₁, p, rfl, hp, rfl, hgrown.unlock,
    fun i h1 h2 => hok.virt.pteAt_eq_zero (by omega) (hfree i h1 h2), hsame⟩

/-! ## Unmapping -/

/-- `vm'` is `vm` with the pages from `t` of slot `d` on, `n` of them, unmapped, and the bits of
the frames from `phy` on cleared as far as `unset_bit_at_index` clears them. -/
structure Freed (vm vm' : Vm) (d t n phy : ℕ) : Prop where
  apart : FramesApart vm'
  tlb : TlbAgrees vm'
  start : vm'.memoryStart = vm.memoryStart
  mutex : vm'.mutex = vm.mutex
  pde : ∀ d' < 4, vm'.pde d' = vm.pde d'
  pte : ∀ d' < 4, ∀ t' < 16384, vm'.pte d' t' =
    if d' = d ∧ t ≤ t' ∧ t' < t + n then 0 else vm.pte d' t'
  owns : ∀ o a, vm'.owns o = some a → vm.owns o = some a
  phy : ∀ f, isSet vm'.phyBitmap f =
    (!decide (phy ≤ f ∧ f < phy + n ∧ f < 8) && isSet vm.phyBitmap f)
  virt : ∀ i, isSet vm'.virtBitmap i =
    (!decide (d * 16384 + t ≤ i ∧ i < d * 16384 + t + n ∧ i < 8) && isSet vm.virtBitmap i)
  bytes : ∀ d' < 4, ∀ t' < 16384, vm'.pte d' t' ≠ 0 → ∀ k < pgSize,
    vm'.mem (vm'.pte d' t' + k) = vm.mem (vm'.pte d' t' + k)

variable {d t f n : ℕ}

theorem Freed.none (h : FramesApart vm) (htlb : TlbAgrees vm) : Freed vm vm d t 0 f :=
  ⟨h, htlb, rfl, rfl, fun _ _ => rfl, fun d' hd' t' ht' => by rw [if_neg (by omega)],
    fun _ _ ho => ho, fun g => by rw [decide_eq_false (by omega)]; rfl,
    fun i => by rw [decide_eq_false (by omega)]; rfl, fun _ _ _ _ _ _ _ => rfl⟩

theorem Freed.append {vm'' : Vm} {m : ℕ} (h : Freed vm vm' d t n f)
    (h' : Freed vm' vm'' d (t + n) m (f + n)) : Freed vm vm'' d t (n + m) f where
  apart := h'.apart
  tlb := h'.tlb
  start := h'.start.trans h.start
  mutex := h'.mutex.trans h.mutex
  pde d' hd' := (h'.pde d' hd').trans (h.pde d' hd')
  pte d' hd' t' ht' := by
    rw [h'.pte d' hd' t' ht', h.pte d' hd' t' ht']
    by_cases hin : d' = d ∧ t + n ≤ t' ∧ t' < t + n + m
    · rw [if_pos hin, if_pos (by omega)]
    · rw [if_neg hin]
      exact if_congr (by omega) rfl rfl
  owns o a ho := h.owns o a (h'.owns o a ho)
  phy g := by
    rw [h'.phy, h.phy, ← Bool.and_assoc, ← Bool.not_or, ← Bool.decide_or]
    congr 2
    exact decide_eq_decide.2 (by omega)
  virt i := by
    rw [h'.virt, h.virt, ← Bool.and_assoc, ← Bool.not_or, ← Bool.decide_or]
    congr 2
    exact decide_eq_decide.2 (by omega)
  bytes d' hd' t' ht' hne k hk := by
    have hpte := h'.pte d' hd' t' ht'
    have hsame : vm''.pte d' t' = vm'.pte d' t' := by
      split_ifs at hpte with hin
      · exact absurd hpte hne
      · exact hpte
    rw [h'.bytes d' hd' t' ht' hne k hk, hsame]
    exact h.bytes d' hd' t' ht' (by rwa [← hsame]) k hk

theorem Vm.word_eq_pte (h : vm.pde d ≠ 0) : vm.word (vm.pde d) t = vm.pte d t :=
  (if_neg h).symm

theorem freePage_spec (h : FramesApart vm) (htlb : TlbAgrees vm) (hd : d < 4) (ht : t < 16384)
    (hpde : vm.pde d ≠ 0) (hne : vm.pte d t ≠ 0) :
    ∃ vm', freePage vm (vm.pde d) d t f = some vm' ∧ Freed vm vm' d t 1 f := by
  obtain ⟨hent, l, hl⟩ := htlb
  obtain ⟨T, l', hdel, hinv, hent'⟩ := deleteFromTlb_spec hl (formVirtualAddress layout d t)
  unfold freePage
  rw [hdel, Vm.word_eq_pte hpde]
  have howns := Vm.owns_page hd ht hne
  have hout : ∀ x, x < vm.pte d t ∨ vm.pte d t + 65536 ≤ x →
      vm.mem.fill (vm.pte d t) pgSize 0 x = vm.mem x := fun x hx =>
    Bytes.fill_of_outside (by unfold pgSize; omega)
  -- The page's frame is cleared first, which leaves the page tables alone.
  set mid : Vm := { vm with
    tlb := T, mem := vm.mem.fill (vm.pte d t) pgSize 0,
    phyBitmap := unsetBitAtIndex vm.phyBitmap f,
    virtBitmap := unsetBitAtIndex vm.virtBitmap (d * layout.pageTableEntries + t) } with hmid
  have hmem : mid.mem = vm.mem.fill (vm.pte d t) pgSize 0 := by rw [hmid]
  obtain ⟨hmidpde, hmidpte⟩ := h.pagesOk.store_pte mid hd ht hne rfl (by rwa [hmem])
  have hmidowns : mid.owns = vm.owns := Vm.owns_congr rfl hmidpde hmidpte
  have hmidFrames : mid.IsFrame = vm.IsFrame := by rw [hmid]; rfl
  have hmidApart : FramesApart mid :=
    ⟨⟨h.start, h.fits⟩, by rw [hmidowns, hmidFrames]; exact h.frames⟩
  have hmid0 : mid.pde d ≠ 0 := by rwa [hmidpde d hd]
  have hpte : ∀ d' < 4, ∀ t' < 16384, (mid.storePte d t 0).pte d' t' =
      if d' = d ∧ t' = t then 0 else vm.pte d' t' := fun d' hd' t' ht' => by
    rw [Vm.pte_storePte hmidApart.tablesApart hd ht hmid0 (by decide) hd' ht',
      hmidpte d' hd' t' ht']
  have howns' : (mid.storePte d t 0).owns = Function.update vm.owns (.page d t) none := by
    rw [Vm.storePte_owns hmidApart.tablesApart hd ht hmid0 (by decide), if_pos rfl, hmidowns]
  have hsub : ∀ o a, (mid.storePte d t 0).owns o = some a → vm.owns o = some a := fun o a ho => by
    rw [howns', Function.update_apply] at ho
    split_ifs at ho
    exact ho
  refine ⟨mid.storePte d t 0, ?_, ?_⟩
  · unfold Vm.storePte
    rw [hmidpde d hd]
    rfl
  refine ⟨⟨⟨h.start, h.fits⟩, h.frames.shrink hsub fun o a ho => h.frames.used (hsub o a ho)⟩,
    ⟨hent'.trans hent, l', hinv.mono fun v p hp => ?_⟩, rfl, rfl, fun d' hd' => ?_,
    fun d' hd' t' ht' => ?_, hsub, fun g => ?_, fun i => ?_, fun d' hd' t' ht' hne' k hk => ?_⟩
  · obtain ⟨⟨hform, hp0, hpv⟩, hva⟩ := hp
    refine ⟨hform, hp0, ?_⟩
    rw [hpte _ (dirIndex_lt v) _ (tableIndex_lt v), if_neg]
    · exact hpv
    · rintro ⟨rfl, rfl⟩
      exact hva hform.symm
  · rw [Vm.pde_storePte hmidApart.tablesApart hd ht hmid0 hd', hmidpde d' hd']
  · rw [hpte d' hd' t' ht']
    exact if_congr (by omega) rfl rfl
  · show isSet (unsetBitAtIndex vm.phyBitmap f) g = _
    rw [unsetBitAtIndex_bit]
    congr 2
    exact decide_eq_decide.2 (by omega)
  · show isSet (unsetBitAtIndex vm.virtBitmap (d * layout.pageTableEntries + t)) i = _
    rw [unsetBitAtIndex_bit, layout_pageTableEntries]
    congr 2
    exact decide_eq_decide.2 (by omega)
  · have hsame : (mid.storePte d t 0).pte d' t' = vm.pte d' t' ∧ ¬ (d' = d ∧ t' = t) := by
      rw [hpte d' hd' t' ht'] at hne' ⊢
      split_ifs at hne' ⊢ with hin
      · exact absurd rfl hne'
      · exact ⟨rfl, hin⟩
    rw [hsame.1] at hne' ⊢
    have howns₂ := Vm.owns_page hd' ht' hne'
    have hframe := h.frames.used howns₂
    have h1 := hframe.disjoint (h.frames.used howns)
      (h.frames.ne howns₂ howns fun heq => hsame.2 (by rwa [Owner.page.injEq] at heq))
    have h2 := hframe.disjoint (h.tablesApart.table_frame hd hpde)
      (h.frames.ne howns₂ (Vm.owns_of_tableOwns (TablesApart.tableOwns_table hd hpde)) (by simp))
    have hstore : (mid.storePte d t 0).mem (vm.pte d' t' + k) = mid.mem (vm.pte d' t' + k) :=
      Bytes.setNat_of_outside (by rw [hmidpde d hd]; unfold pteSize pgSize at *; omega)
    rw [hstore]
    exact hout _ (by unfold pgSize at hk; omega)

theorem freePages_spec {pageTable : ℕ} (h : FramesApart vm) (htlb : TlbAgrees vm) (hd : d < 4)
    (ht : t + n ≤ 16384) (htable : pageTable = vm.pde d) (hpde : vm.pde d ≠ 0)
    (hne : ∀ i < n, vm.pte d (t + i) ≠ 0) :
    ∃ vm', freePages pageTable d n vm t f = some vm' ∧ Freed vm vm' d t n f := by
  induction n generalizing vm t f with
  | zero => exact ⟨vm, rfl, .none h htlb⟩
  | succ n ih =>
    subst htable
    obtain ⟨mid, hcall, hmid⟩ := freePage_spec (t := t) (f := f) h htlb hd (by omega) hpde
      (hne 0 (by omega))
    obtain ⟨vm', hrest, hfreed⟩ := ih (t := t + 1) (f := f + 1) hmid.apart hmid.tlb (by omega)
      (hmid.pde d hd).symm (by rwa [hmid.pde d hd]) fun i hi => by
        have := hne (i + 1) (by omega)
        rw [hmid.pte d hd _ (by omega), if_neg (by omega)]
        rwa [show t + 1 + i = t + (i + 1) by omega]
    refine ⟨vm', ?_, ?_⟩
    · rw [freePages, hcall]
      exact hrest
    · rw [Nat.add_comm n 1]
      exact hmid.append hfreed

/-- The number of the frame that `t_free` takes for the first of a run. -/
def firstFrame (vm : Vm) (va : ℕ) : ℕ :=
  (vm.word (vm.pde (dirIndex va)) (tableIndex va) - vm.memoryStart) / pgSize

/-- **When `t_free` is right.** If the pages lie in one page table, the frames whose bits are
cleared, which follow the first page's frame and are below 8, are used by no one but pages of the
region. If the pages go on in the next page table, one of the words read after the end of the first
is 0, and the call is refused. -/
def FreeOk (vm : Vm) (va : ℕ) (size : ℤ) : Prop :=
  let d := dirIndex va
  let t := tableIndex va
  let k := pagesRequired size
  if t + k ≤ layout.pageTableEntries then
    ∀ i < k, firstFrame vm va + i < 8 →
      ∀ o, vm.owns o = some (frameAddr vm.memoryStart (firstFrame vm va + i)) →
        ∃ j < k, o = .page d (t + j)
  else ∃ i < k, vm.word (vm.pde d) (t + i) = 0

/-- What a call of `t_free` does: it is refused, or it frees the pages of one page table. -/
theorem tFree_cases {size : ℤ} (h : FramesApart vm) (htlb : TlbAgrees vm) (hok : FreeOk vm va size)
    (hlock : vm.mutex = false) : ∃ vm', tFree vm va size = some vm' ∧ (vm' = vm ∨
      tableIndex va + pagesRequired size ≤ 16384 ∧ Freed vm vm' (dirIndex va) (tableIndex va)
        (pagesRequired size) (firstFrame vm va)) := by
  have hunlock : Vm.unlock { vm with mutex := true } = vm := by
    unfold Vm.unlock
    rw [← hlock]
  unfold tFree
  simp only [Vm.lock, hlock, Bool.false_eq_true, if_false, Option.bind_eq_bind, Option.bind_some]
  split_ifs with h0 hrefused
  · exact ⟨_, rfl, .inl hunlock⟩
  · exact ⟨_, rfl, .inl hunlock⟩
  · push Not at h0 hrefused
    have hd := dirIndex_lt va
    have hfits : tableIndex va + pagesRequired size ≤ 16384 := by
      unfold FreeOk at hok
      by_contra hcross
      rw [layout_pageTableEntries, if_neg hcross] at hok
      obtain ⟨i, hi, hz⟩ := hok
      exact hrefused i hi hz
    have hlocked : FramesApart { vm with mutex := true } := ⟨⟨h.start, h.fits⟩, h.frames⟩
    obtain ⟨vm', hcall, hfreed⟩ :=
      freePages_spec (f := firstFrame vm va) hlocked htlb hd hfits rfl h0.2
      fun i hi => by
        have := hrefused i hi
        rwa [show Vm.word { vm with mutex := true } (Vm.pde { vm with mutex := true } (dirIndex va))
          (tableIndex va + i) = vm.pte (dirIndex va) (tableIndex va + i) from
            Vm.word_eq_pte h0.2] at this
    refine ⟨vm'.unlock, ?_, .inr ⟨hfits, ?_⟩⟩
    · exact (congrArg (Option.bind · _) hcall).trans rfl
    · exact ⟨⟨⟨hfreed.apart.start, hfreed.apart.fits⟩, hfreed.apart.frames⟩, hfreed.tlb,
        hfreed.start, hlock.symm, hfreed.pde, hfreed.pte, hfreed.owns, hfreed.phy, hfreed.virt,
        hfreed.bytes⟩

/-- **Release.** Under the condition, the memory is in order after `t_free`; only pages of the
region were unmapped, and the bytes of the others are the old ones. -/
theorem tFree_spec {size : ℤ} (h : MemOk vm) (hok : FreeOk vm va size) (hva : va < 2 ^ 32)
    (hlock : vm.mutex = false) (hf : tFree vm va size = some vm') :
    MemOk vm' ∧ vm'.mutex = false ∧ ∀ p < 65536,
      (vm'.pteAt p = vm.pteAt p ∨
        pageNumber va ≤ p ∧ p < pageNumber va + pagesRequired size ∧ vm'.pteAt p = 0) ∧
      (vm'.pteAt p ≠ 0 → ∀ k < pgSize, vm'.mem (vm'.pteAt p + k) = vm.mem (vm'.pteAt p + k)) := by
  obtain ⟨vm'', hcall, hcases⟩ := tFree_cases h.frames.apart h.tlb hok hlock
  rw [hf, Option.some.injEq] at hcall
  subst hcall
  obtain rfl | ⟨hfits, hfreed⟩ := hcases
  · exact ⟨h, hlock, fun p _ => ⟨.inl rfl, fun _ _ _ => rfl⟩⟩
  have hpage := pageNumber_eq hva
  have hpte : ∀ p < 65536, vm'.pteAt p =
      if pageNumber va ≤ p ∧ p < pageNumber va + pagesRequired size then 0 else vm.pteAt p :=
    fun p hp => by
      unfold Vm.pteAt
      rw [hfreed.pte _ (by omega) _ (by omega)]
      exact if_congr (by omega) rfl rfl
  refine ⟨⟨⟨hfreed.apart.toPlaced, h.frames.frames.shrink hfreed.owns fun o a ho => ?_⟩,
    hfreed.tlb, fun p hp hne => ?_⟩, hfreed.mutex.trans hlock, fun p hp => ⟨?_, fun hne k hk => ?_⟩⟩
  · obtain ⟨g, hg, rfl, hset⟩ := h.frames.frames.used (hfreed.owns o a ho)
    refine ⟨g, hg, by rw [hfreed.start], ?_⟩
    rw [hfreed.phy, hset, Bool.and_true, Bool.not_eq_true', decide_eq_false_iff_not]
    rintro ⟨h1, h2, h3⟩
    unfold FreeOk at hok
    rw [layout_pageTableEntries, if_pos hfits] at hok
    obtain ⟨j, hj, rfl⟩ := hok (g - firstFrame vm va) (by omega) (by omega) o
      (by rw [Nat.add_sub_cancel' h1]; exact hfreed.owns o _ ho)
    have hz := hfreed.pte (dirIndex va) (dirIndex_lt va) (tableIndex va + j) (by omega)
    rw [if_pos (by omega)] at hz
    simp [Vm.owns, hz] at ho
  · rw [hpte p hp] at hne
    split_ifs at hne with hin
    · exact absurd rfl hne
    rw [hfreed.virt, h.virt p hp hne, Bool.and_true, Bool.not_eq_true', decide_eq_false_iff_not]
    omega
  · rw [hpte p hp]
    split_ifs with hin
    · exact .inr ⟨hin.1, hin.2, rfl⟩
    · exact .inl rfl
  · exact hfreed.bytes _ (by omega) _ (by omega) hne k hk

end UserOS.MyVm
