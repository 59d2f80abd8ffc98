import UserOS.Fragment.Tables

/-!
# The frames of the pages

Pages have frames of the simulated memory too, apart from the page directory and the page tables.
So what is written to a page changes no entry and no byte of another page.

* `FramesOk`: the directory, the tables and the pages have frames of their own.
* `storeEntry_spec`, `installTable_ready`: the two stores of `page_map`, and what they leave alone.
* `pageMapped`: one turn of the loop of `t_malloc`.
-/

namespace UserOS.Fragment

open Lib
open MyVm (pteSize memSize setBitAtIndex setBitAtIndex_bit isSet isSet_fill)

/-! ## Owners -/

/-- The entry of page `p`. -/
def Vm.entry (vm : Vm) (p : ℕ) : ℕ := vm.pte (p / 1024) (p % 1024)

/-- What a frame can be used for. -/
inductive Owner
  | dir
  | table (d : ℕ)
  | page (p : ℕ)
  deriving DecidableEq, Repr

/-- The frame in use as the page directory, as a page table, or by a page. -/
def Vm.owns (vm : Vm) : Owner → Option ℕ
  | .dir => some vm.pageDir
  | .table d => if d < 1024 ∧ vm.pde d ≠ 0 then some (vm.pde d) else none
  | .page p => if p < 2 ^ 20 ∧ vm.entry p ≠ 0 then some (vm.entry p) else none

/-- The page directory, the page tables and the mapped pages have frames of their own, marked in
use. -/
structure FramesOk (vm : Vm) : Prop where
  start : 0 < vm.memoryStart
  fits : vm.memoryStart + memSize ≤ 2 ^ 32
  frames : Exclusive vm.owns vm.Used

variable {vm vm' mid : Vm} {d p q v a f phy : ℕ}

theorem Vm.pde_of_entry (h : vm.entry p ≠ 0) : vm.pde (p / 1024) ≠ 0 := fun hz => h (if_pos hz)

theorem Vm.owns_table (hd : d < 1024) (h : vm.pde d ≠ 0) :
    vm.owns (.table d) = some (vm.pde d) := if_pos ⟨hd, h⟩

theorem Vm.owns_page (hp : p < 2 ^ 20) (h : vm.entry p ≠ 0) :
    vm.owns (.page p) = some (vm.entry p) := if_pos ⟨hp, h⟩

theorem Vm.owns_page_of_lt (hp : p < 2 ^ 20) :
    vm.owns (.page p) = if vm.entry p ≠ 0 then some (vm.entry p) else none :=
  if_congr (and_iff_right hp) rfl rfl

theorem Vm.owns_page_of_ge (hp : ¬p < 2 ^ 20) : vm.owns (.page p) = none :=
  if_neg fun hh => hp hh.1

theorem Vm.owns_page_eq {r : ℕ} (h : vm.owns (.page p) = some r) :
    p < 2 ^ 20 ∧ vm.entry p ≠ 0 ∧ r = vm.entry p := by
  by_cases hp : p < 2 ^ 20
  · rw [Vm.owns_page_of_lt hp] at h
    split_ifs at h with hne
    exact ⟨hp, hne, (Option.some.inj h).symm⟩
  · rw [Vm.owns_page_of_ge hp] at h
    cases h

/-- The same page directory and the same entries have the same owners. -/
theorem Vm.owns_congr (hdir : vm'.pageDir = vm.pageDir) (hpde : ∀ d < 1024, vm'.pde d = vm.pde d)
    (hentry : ∀ p < 2 ^ 20, vm'.entry p = vm.entry p) : vm'.owns = vm.owns := by
  funext o
  cases o with
  | dir => exact congrArg some hdir
  | table d =>
    by_cases hd : d < 1024
    · simp only [Vm.owns, hpde d hd]
    · simp [Vm.owns, hd]
  | page p =>
    by_cases hp : p < 2 ^ 20
    · rw [Vm.owns_page_of_lt hp, Vm.owns_page_of_lt hp, hentry p hp]
    · rw [Vm.owns_page_of_ge hp, Vm.owns_page_of_ge hp]

theorem Vm.Used.bounds (h : vm.Used a) :
    vm.memoryStart ≤ a ∧ a + 4096 ≤ vm.memoryStart + memSize := by
  obtain ⟨f, hf, rfl, -⟩ := h
  rw [numFrames_eq] at hf
  rw [memSize_eq]
  omega

namespace FramesOk

theorem tables (h : FramesOk vm) : TablesOk vm := by
  refine ⟨h.start, h.fits, ?_⟩
  have howner : ∀ o, vm.own o = vm.owns (o.elim .dir .table) := by
    intro o
    cases o <;> rfl
  constructor
  · intro i j r hi hj
    rw [howner] at hi hj
    have heq := h.frames.inj hi hj
    cases i <;> cases j <;> simp_all
  · intro i r hi
    rw [howner] at hi
    exact h.frames.used hi

theorem disjoint (h : FramesOk vm) {o o' : Owner} {r s : ℕ} (hr : vm.owns o = some r)
    (hs : vm.owns o' = some s) (hne : o ≠ o') : r + 4096 ≤ s ∨ s + 4096 ≤ r :=
  (h.frames.used hr).disjoint (h.frames.used hs) (h.frames.ne hr hs hne)

theorem entry_disjoint (h : FramesOk vm) (hp : p < 2 ^ 20) (hne : vm.entry p ≠ 0) (hq : q < 2 ^ 20)
    (hne' : vm.entry q ≠ 0) (hpq : p ≠ q) :
    vm.entry p + 4096 ≤ vm.entry q ∨ vm.entry q + 4096 ≤ vm.entry p :=
  h.disjoint (Vm.owns_page hp hne) (Vm.owns_page hq hne') fun heq => hpq (Owner.page.inj heq)

theorem dir_disjoint (h : FramesOk vm) (hp : p < 2 ^ 20) (hne : vm.entry p ≠ 0) :
    vm.entry p + 4096 ≤ vm.pageDir ∨ vm.pageDir + 4096 ≤ vm.entry p :=
  h.disjoint (Vm.owns_page hp hne) (show vm.owns .dir = some vm.pageDir from rfl) (by simp)

theorem table_disjoint (h : FramesOk vm) (hp : p < 2 ^ 20) (hne : vm.entry p ≠ 0) (hd : d < 1024)
    (hpde : vm.pde d ≠ 0) : vm.entry p + 4096 ≤ vm.pde d ∨ vm.pde d + 4096 ≤ vm.entry p :=
  h.disjoint (Vm.owns_page hp hne) (Vm.owns_table hd hpde) (by simp)

/-- The same owners, and more frames marked. -/
theorem congr (h : FramesOk vm) (hstart : vm'.memoryStart = vm.memoryStart)
    (howns : vm'.owns = vm.owns)
    (hset : ∀ f, isSet vm.phyBitmap f = true → isSet vm'.phyBitmap f = true) : FramesOk vm' := by
  refine ⟨hstart ▸ h.start, hstart ▸ h.fits, ?_⟩
  rw [howns]
  apply h.frames.mono
  intro a ⟨f, hf, ha, hbit⟩
  exact ⟨f, hf, by rw [hstart, ha], hset f hbit⟩

/-- **Stores to pages.** Where only bytes of mapped pages differ, the entries are the same. -/
theorem store (h : FramesOk vm) (hdir : vm'.pageDir = vm.pageDir)
    (hmem : ∀ x, (∀ p < 2 ^ 20, vm.entry p ≠ 0 → x < vm.entry p ∨ vm.entry p + 4096 ≤ x) →
      vm'.mem x = vm.mem x) :
    (∀ d < 1024, vm'.pde d = vm.pde d) ∧ ∀ p < 2 ^ 20, vm'.entry p = vm.entry p := by
  have hpde : ∀ d < 1024, vm'.pde d = vm.pde d := by
    intro d hd
    unfold Vm.pde pteSize
    rw [hdir]
    refine Bytes.getNat_congr fun k hk => hmem _ fun p hp hne => ?_
    have := h.dir_disjoint hp hne
    omega
  refine ⟨hpde, fun p hp => ?_⟩
  have hd : p / 1024 < 1024 := by omega
  unfold Vm.entry Vm.pte
  rw [hpde _ hd]
  split_ifs with hzero
  · rfl
  · unfold pteSize
    refine Bytes.getNat_congr fun k hk => hmem _ fun q hq hne => ?_
    have := h.table_disjoint hq hne hd hzero
    omega

end FramesOk

/-! ## Stores to the tables -/

/-- `page_table[t] = v` for the entry of page `p`. -/
def Vm.storeEntry (vm : Vm) (p v : ℕ) : Vm :=
  { vm with mem := vm.mem.setNat (vm.pde (p / 1024) + pteSize * (p % 1024)) pteSize v }

/-- **An entry is stored.** The other entries and the bytes of the pages stay. -/
theorem storeEntry_spec (h : FramesOk vm) (hp : p < 2 ^ 20) (hpde : vm.pde (p / 1024) ≠ 0)
    (hv : v < 2 ^ 32) :
    (∀ d < 1024, (vm.storeEntry p v).pde d = vm.pde d) ∧
      (∀ q < 2 ^ 20, (vm.storeEntry p v).entry q = if q = p then v else vm.entry q) ∧
      ∀ q < 2 ^ 20, vm.entry q ≠ 0 → ∀ k < 4096,
        (vm.storeEntry p v).mem (vm.entry q + k) = vm.mem (vm.entry q + k) := by
  have hd : p / 1024 < 1024 := by omega
  obtain ⟨hpdes, hptes⟩ := storePte_spec h.tables hd (Nat.mod_lt p (by decide)) hpde hv
    (show vm.storeEntry p v = _ from rfl)
  refine ⟨hpdes, fun q hq => ?_, fun q hq hne k hk => Bytes.setNat_of_outside ?_⟩
  · unfold Vm.entry
    rw [hptes _ (by omega) _ (by omega)]
    exact if_congr (by omega) rfl rfl
  · have := h.table_disjoint hq hne hd hpde
    unfold pteSize
    omega

/-- The owners after an entry is stored. -/
theorem storeEntry_owns (h : FramesOk vm) (hp : p < 2 ^ 20) (hpde : vm.pde (p / 1024) ≠ 0)
    (hv : v < 2 ^ 32) : (vm.storeEntry p v).owns =
      Function.update vm.owns (.page p) (if v = 0 then none else some v) := by
  obtain ⟨hpdes, hentries, -⟩ := storeEntry_spec h hp hpde hv
  funext o
  cases o with
  | dir => rfl
  | table d =>
    rw [Function.update_of_ne (by simp)]
    by_cases hd : d < 1024
    · simp only [Vm.owns, hpdes d hd]
    · simp [Vm.owns, hd]
  | page q =>
    by_cases hq : q < 2 ^ 20
    · rw [Vm.owns_page_of_lt hq, hentries q hq]
      by_cases hqp : q = p
      · rw [if_pos hqp, hqp, Function.update_self]
        by_cases hv0 : v = 0 <;> simp [hv0]
      · rw [Function.update_of_ne fun heq => hqp (Owner.page.inj heq), if_neg hqp,
          Vm.owns_page_of_lt hq]
    · have hqp : q ≠ p := fun hqp => hq (hqp ▸ hp)
      rw [Function.update_of_ne fun heq => hqp (Owner.page.inj heq), Vm.owns_page_of_ge hq,
        Vm.owns_page_of_ge hq]

/-- What `find_free_physical_page(1)[0]` and the stores of `page_map` make of an empty slot. -/
theorem installTable_eq (hfits : vm.memoryStart + memSize ≤ 2 ^ 32)
    (hi : installTable vm d = some vm') : ∃ f < numFrames, isSet vm.phyBitmap f = false ∧
      vm' = { vm with
        mem := (vm.mem.setNat (vm.pageDir + pteSize * d) pteSize
          (vm.memoryStart + f * 4096)).fill (vm.memoryStart + f * 4096) 4096 0
        phyBitmap := setBitAtIndex vm.phyBitmap f } := by
  obtain ⟨frame, hframe, hi⟩ := Option.bind_eq_some_iff.1 hi
  obtain ⟨f, hf, rfl, hfree⟩ := firstFreePage_spec hframe
  have hlt : vm.memoryStart + f * 4096 < 2 ^ 32 := by
    rw [numFrames_eq] at hf
    rw [memSize_eq] at hfits
    omega
  have hindex : (vm.memoryStart + f * 4096 - vm.memoryStart) / pgSize = f := by
    unfold pgSize
    omega
  have hword : Vm.pde { vm with
      mem := vm.mem.setNat (vm.pageDir + pteSize * d) pteSize (vm.memoryStart + f * 4096)
      phyBitmap := setBitAtIndex vm.phyBitmap f } d = vm.memoryStart + f * 4096 :=
    (Bytes.getNat_setNat_self ..).trans (Nat.mod_eq_of_lt (by unfold pteSize; omega))
  rw [hindex] at hi
  simp only [hword, layout_pageTableEntries, Option.some.injEq] at hi
  exact ⟨f, hf, hfree, hi.symm⟩

/-- `mid` is `vm` but for the page table of slot `d`, which was installed if there was none. -/
structure TableReady (vm mid : Vm) (d : ℕ) : Prop where
  frames : FramesOk mid
  same : ∃ m b, mid = { vm with mem := m, phyBitmap := b }
  pde : mid.pde d ≠ 0
  entry : ∀ p < 2 ^ 20, mid.entry p = vm.entry p
  used : ∀ f, isSet vm.phyBitmap f = true → isSet mid.phyBitmap f = true
  unowned : ∀ a, vm.Used a → (∀ o, vm.owns o ≠ some a) → ∀ o, mid.owns o ≠ some a
  bytes : ∀ p < 2 ^ 20, vm.entry p ≠ 0 → ∀ k < 4096,
    mid.mem (vm.entry p + k) = vm.mem (vm.entry p + k)

/-- **A table is installed** in an empty slot. -/
theorem installTable_ready (h : FramesOk vm) (hd : d < 1024) (hpde : vm.pde d = 0)
    (hi : installTable vm d = some mid) : TableReady vm mid d := by
  obtain ⟨hok, hne, hpte, -, -⟩ := installTable_spec h.tables hd hpde hi
  obtain ⟨f, hf, hfree, hmid⟩ := installTable_eq h.fits hi
  have hfits := h.fits
  have hstart := h.start
  rw [memSize_eq] at hfits
  rw [numFrames_eq] at hf
  generalize hframe : vm.memoryStart + f * 4096 = frame at hmid
  have hnot : ¬vm.Used frame := hframe ▸ Vm.not_used hfree
  have hapart : ∀ {o r}, vm.owns o = some r → r + 4096 ≤ frame ∨ frame + 4096 ≤ r := by
    intro o r ho
    obtain ⟨g, -, rfl, hset⟩ := h.frames.used ho
    have hgf : g ≠ f := fun hgf => by
      rw [hgf, hfree] at hset
      cases hset
    omega
  have hdirApart := hapart (o := .dir) rfl
  have hmem : ∀ x, x < frame ∨ frame + 4096 ≤ x →
      x < vm.pageDir + 4 * d ∨ vm.pageDir + 4 * d + 4 ≤ x → mid.mem x = vm.mem x := by
    intro x h1 h2
    rw [hmid]
    exact (Bytes.fill_of_outside (by omega)).trans
      (Bytes.setNat_of_outside (by unfold pteSize; omega))
  have hself : mid.pde d = frame := by
    have hword := Bytes.getNat_setNat_self vm.mem (vm.pageDir + 4 * d) 4 frame
    rw [Nat.mod_eq_of_lt (by omega)] at hword
    rw [← hword]
    unfold Vm.pde pteSize
    rw [hmid]
    exact Bytes.getNat_congr fun k hk => Bytes.fill_of_outside (by dsimp only; omega)
  have hother : ∀ d' < 1024, d' ≠ d → mid.pde d' = vm.pde d' := by
    intro d' hd' hdd
    unfold Vm.pde pteSize
    rw [show mid.pageDir = vm.pageDir by rw [hmid]]
    exact Bytes.getNat_congr fun k hk => hmem _ (by omega) (by omega)
  have hentry : ∀ p < 2 ^ 20, mid.entry p = vm.entry p := fun p hp =>
    hpte _ (by omega) _ (by omega)
  have howns : mid.owns = Function.update vm.owns (.table d) (some frame) := by
    funext o
    cases o with
    | dir =>
      rw [Function.update_of_ne (by simp), hmid]
      rfl
    | table d' =>
      by_cases hdd : d' = d
      · rw [hdd, Function.update_self, Vm.owns_table hd hne, hself]
      · rw [Function.update_of_ne (by simpa using hdd)]
        by_cases hd' : d' < 1024
        · simp only [Vm.owns, hother d' hd' hdd]
        · simp [Vm.owns, hd']
    | page p =>
      rw [Function.update_of_ne (by simp)]
      by_cases hp : p < 2 ^ 20
      · rw [Vm.owns_page_of_lt hp, Vm.owns_page_of_lt hp, hentry p hp]
      · rw [Vm.owns_page_of_ge hp, Vm.owns_page_of_ge hp]
  have hused : ∀ f, isSet vm.phyBitmap f = true → isSet mid.phyBitmap f = true := by
    intro g hg
    rw [hmid]
    simp [hg]
  refine ⟨⟨hok.start, hok.fits, ?_⟩, ⟨_, _, hmid⟩, hne, hentry, hused, fun a ha hun o => ?_,
    fun p hp hne' k hk => hmem _ ?_ ?_⟩
  · rw [howns]
    apply h.frames.acquire (h.frames.not_owned hnot)
    · intro a ⟨g, hg, ha, hset⟩
      exact ⟨g, hg, by rw [ha, hmid], hused g hset⟩
    · exact ⟨f, by rw [numFrames_eq]; exact hf, by rw [← hframe, hmid], by rw [hmid]; simp⟩
  · rw [howns]
    by_cases ho : o = .table d
    · rw [ho, Function.update_self]
      intro heq
      exact hnot (Option.some.inj heq ▸ ha)
    · rw [Function.update_of_ne ho]
      exact hun o
  · have := hapart (Vm.owns_page hp hne')
    omega
  · have := h.dir_disjoint hp hne'
    omega

theorem ensureTable_ready (h : FramesOk vm) (hd : d < 1024) (he : ensureTable vm d = some mid) :
    TableReady vm mid d := by
  unfold ensureTable at he
  split at he
  next hzero => exact installTable_ready h hd hzero he
  next hne =>
    cases he
    exact ⟨h, ⟨_, _, rfl⟩, hne, fun _ _ => rfl, fun _ hset => hset, fun _ _ hun => hun,
      fun _ _ _ _ _ => rfl⟩

/-! ## Mapping -/

/-- `vm'` is `vm` with page `p` mapped to frame `f`. -/
structure PageMapped (vm vm' : Vm) (p f : ℕ) : Prop where
  frames : FramesOk vm'
  same : ∃ m v b, vm' = { vm with mem := m, virtBitmap := v, phyBitmap := b }
  entry : ∀ q < 2 ^ 20, vm'.entry q = if q = p then vm.memoryStart + f * 4096 else vm.entry q
  virt : ∀ q, isSet vm'.virtBitmap q = (decide (q = p) || isSet vm.virtBitmap q)
  bytes : ∀ q < 2 ^ 20, vm.entry q ≠ 0 → ∀ k < 4096,
    vm'.mem (vm.entry q + k) = vm.mem (vm.entry q + k)

/-- The state in which the loop of `t_malloc` calls `page_map`. -/
def Vm.marked (vm : Vm) (p f : ℕ) : Vm := { vm with
  virtBitmap := setBitAtIndex vm.virtBitmap p
  phyBitmap := setBitAtIndex vm.phyBitmap f }

theorem dirIndex_page (hp : p < 2 ^ 20) : dirIndex (p * 4096) = p / 1024 := by
  rw [dirIndex_eq]
  omega

theorem tableIndex_page : tableIndex (p * 4096) = p % 1024 := by
  rw [tableIndex_eq]
  omega

/-- **A page is mapped** to a free frame. -/
theorem pageMapped {status : ℤ} (h : FramesOk vm) (hp : p < 2 ^ 20) (hfree : vm.entry p = 0)
    (hf : f < numFrames) (hbit : isSet vm.phyBitmap f = false)
    (hm : pageMap (vm.marked p f) (p * 4096) (vm.memoryStart + f * 4096) = some (vm', status)) :
    PageMapped vm vm' p f := by
  have hmarked : FramesOk (vm.marked p f) :=
    h.congr rfl rfl fun g hg => by simp [Vm.marked, hg]
  have hfits := h.fits
  have hstart := h.start
  have hused : (vm.marked p f).Used (vm.memoryStart + f * 4096) :=
    ⟨f, hf, rfl, by simp [Vm.marked]⟩
  have hun : ∀ o, (vm.marked p f).owns o ≠ some (vm.memoryStart + f * 4096) :=
    h.frames.not_owned (Vm.not_used hbit)
  rw [memSize_eq] at hfits
  rw [numFrames_eq] at hf
  unfold pageMap at hm
  rw [dirIndex_page hp, tableIndex_page] at hm
  obtain ⟨mid, hmid, hm⟩ := Option.bind_eq_some_iff.1 hm
  have hready := ensureTable_ready hmarked (by omega) hmid
  have hempty : mid.mem.getNat (mid.pde (p / 1024) + pteSize * (p % 1024)) pteSize = 0 := by
    have hentry := (hready.entry p hp).trans hfree
    unfold Vm.entry Vm.pte at hentry
    rwa [if_neg hready.pde] at hentry
  rw [if_neg (not_not.2 hempty), Option.some.injEq, Prod.mk.injEq] at hm
  obtain ⟨rfl, -⟩ := hm
  have hv : vm.memoryStart + f * 4096 < 2 ^ 32 := by omega
  obtain ⟨-, hentries, hbytes⟩ := storeEntry_spec hready.frames hp hready.pde hv
  obtain ⟨m, b, hsame⟩ := hready.same
  have hmidStart : mid.memoryStart = vm.memoryStart := by
    rw [hsame]
    rfl
  refine ⟨⟨?_, ?_, ?_⟩, ⟨_, _, _, by rw [hsame]; rfl⟩, fun q hq => ?_, fun q => ?_,
    fun q hq hne k hk => ?_⟩
  · exact hready.frames.start
  · exact hready.frames.fits
  · have howns := storeEntry_owns hready.frames hp hready.pde hv
    unfold Vm.storeEntry at howns
    rw [howns, if_neg (by omega)]
    obtain ⟨g, hg, hga, hset⟩ := hused
    exact hready.frames.frames.acquire (hready.unowned _ ⟨g, hg, hga, hset⟩ hun) (fun _ hx => hx)
      ⟨g, hg, by rw [hga]; exact congrArg (· + g * 4096) hmidStart.symm, hready.used g hset⟩
  · refine (hentries q hq).trans ?_
    rw [hready.entry q hq]
    rfl
  · rw [hsame]
    exact setBitAtIndex_bit
  · have hmidEntry : mid.entry q = vm.entry q := hready.entry q hq
    have hstore := hbytes q hq (by rwa [hmidEntry]) k hk
    rw [hmidEntry] at hstore
    exact hstore.trans (hready.bytes q hq hne k hk)

end UserOS.Fragment
