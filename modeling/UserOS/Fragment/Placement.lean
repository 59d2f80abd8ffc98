import UserOS.Fragment.Tables
import UserOS.Lib.Run

/-!
# Where allocations are placed

`check_partial_list` places an allocation one byte behind the space that is taken in a page, and
`update_partial_list` adds its size only. So one byte of a page stays free, between the first two
allocations, and an allocation that takes all the room that is left ends one byte behind the page.

* `Packed`: the pages with room have it behind their allocations.
* `packed_step`: a request that leaves room keeps this.
* `subpage_iff`: the allocations are apart when every request leaves room, and only then.
-/

namespace UserOS.Fragment

open Lib
open MyVm (memSize extractBits)

/-! ## Requests -/

/-- The result of a request for less than a page. -/
structure Allocation where
  numBytes : ℕ
  va : ℕ
  deriving DecidableEq, Repr

/-- There are a page and a frame left, if the request needs them. -/
def EnoughPages (base : ℕ) (vm : Vm) (size : ℕ) : Prop :=
  ∀ vm₁ ∈ ensureMemory base vm, checkPartialList vm₁.partialPages size = 0 →
    getNextAvail vm₁ 1 ≠ none ∧ findFreePhysicalPage vm₁ 1 ≠ none

instance {base : ℕ} {vm : Vm} {size : ℕ} : Decidable (EnoughPages base vm size) := by
  unfold EnoughPages
  infer_instance

/-- A request for less than a page, with enough pages. -/
structure Request (base : ℕ) (vm : Vm) (a : Allocation) (vm' : Vm) : Prop where
  pos : 1 ≤ a.numBytes
  lt : a.numBytes < pgSize
  pages : EnoughPages base vm a.numBytes
  result : tMalloc base vm a.numBytes = some (vm', a.va)

/-- The ranges of two allocations are disjoint. -/
def Apart (a b : Allocation) : Prop := a.va + a.numBytes ≤ b.va ∨ b.va + b.numBytes ≤ a.va

/-- The range of an allocation lies in one mapped page. -/
def InPage (vm : Vm) (a : Allocation) : Prop :=
  ∃ p, vm.Mapped p ∧ p * pgSize ≤ a.va ∧ a.va + a.numBytes ≤ (p + 1) * pgSize

/-- The ranges of the allocations are disjoint, and each lies in one mapped page. -/
structure NoOverlap (vm : Vm) (as : List Allocation) : Prop where
  apart : as.Pairwise Apart
  inPage : ∀ a ∈ as, InPage vm a

/-- The first page with room for the request has no more room than that. -/
def ExactFit (vm : Vm) (size : ℕ) : Prop :=
  (firstFit vm.partialPages size).map PartialNode.room = some size

instance {vm : Vm} {size : ℕ} : Decidable (ExactFit vm size) := by
  unfold ExactFit
  infer_instance

variable {vm vm' : Vm} {a b : Allocation} {as : List Allocation} {l : List PartialNode}
  {node : PartialNode} {base va size offset p q : ℕ}

/-! ## The list of pages with room -/

theorem firstFit_spec (h : firstFit l size = some node) : node ∈ l ∧ size ≤ node.room :=
  ⟨List.mem_of_find?_eq_some h, by simpa using List.find?_some h⟩

theorem room_eq (h : node.spaceTaken < 4096) : node.room = 4096 - node.spaceTaken := by
  unfold PartialNode.room pgSize
  omega

/-- What is in the list afterwards: the node of the page has less room, if it is there at all. -/
theorem mem_updateNodes (hnodup : (l.map PartialNode.baseVa).Nodup)
    (h : node ∈ updateNodes va offset size l) : node ∈ l ∧ node.baseVa ≠ va ∨
      ∃ old ∈ l, old.baseVa = va ∧
        node = { old with spaceTaken := (old.spaceTaken + size) % 2 ^ 32 } := by
  induction l with
  | nil => cases h
  | cons temp rest ih =>
    rw [List.map_cons, List.nodup_cons] at hnodup
    have hrest : temp.baseVa = va → node ∈ rest → node.baseVa ≠ va := by
      intro htemp hmem heq
      exact hnodup.1 (List.mem_map.2 ⟨node, hmem, heq.trans htemp.symm⟩)
    rw [updateNodes] at h
    split at h
    next htemp =>
      split at h
      next => exact .inl ⟨List.mem_cons_of_mem _ h, hrest htemp h⟩
      next =>
        rcases List.mem_cons.1 h with rfl | hmem
        · exact .inr ⟨temp, List.mem_cons_self, htemp, rfl⟩
        · exact .inl ⟨List.mem_cons_of_mem _ hmem, hrest htemp hmem⟩
    next htemp =>
      rcases List.mem_cons.1 h with rfl | hmem
      · exact .inl ⟨List.mem_cons_self, htemp⟩
      · rcases ih hnodup.2 hmem with ⟨hold, hne⟩ | ⟨old, hold, heq⟩
        · exact .inl ⟨List.mem_cons_of_mem _ hold, hne⟩
        · exact .inr ⟨old, List.mem_cons_of_mem _ hold, heq⟩

theorem map_updateNodes : List.Sublist ((updateNodes va offset size l).map PartialNode.baseVa)
    (l.map PartialNode.baseVa) := by
  induction l with
  | nil => exact .slnil
  | cons temp rest ih =>
    rw [updateNodes]
    split
    · split
      · exact .cons _ (.refl _)
      · exact .refl _
    · exact ih.cons_cons _

/-! ## One request -/

/-- The memory is not set up yet, or in order. -/
def Usable (vm : Vm) : Prop := MemOk vm ∨ vm = .start

theorem not_mapped_start : ¬Vm.start.Mapped q := by
  intro ⟨_, hpte⟩
  refine hpte (if_pos ?_)
  exact Bytes.getNat_of_zero fun k hk => rfl

/-- The first part of `t_malloc`. -/
theorem ensureMemory_spec {vm₁ : Vm} (hbase : base + memSize ≤ 2 ^ 32) (h : Usable vm)
    (he : ensureMemory base vm = some vm₁) :
    MemOk vm₁ ∧ (∀ q, vm₁.Mapped q ↔ vm.Mapped q) ∧ vm₁.partialPages = vm.partialPages := by
  unfold ensureMemory at he
  rcases h with hok | rfl
  · rw [if_neg hok.start.ne'] at he
    cases he
    exact ⟨hok, fun _ => .rfl, rfl⟩
  · rw [if_pos (show Vm.start.memoryStart = 0 from rfl)] at he
    obtain ⟨hok, hunmapped, hempty⟩ := setPhysicalMem_spec hbase he
    exact ⟨hok, fun q => iff_of_false (hunmapped q) not_mapped_start, hempty⟩

/-- **One request** shares a page with room, or maps a new page. -/
theorem request_spec (hbase : base + memSize ≤ 2 ^ 32) (h : Usable vm)
    (hr : Request base vm a vm') :
    MemOk vm' ∧
    ((∃ node, firstFit vm.partialPages a.numBytes = some node ∧
        a.va = (node.baseVa + node.spaceTaken + 1) % 2 ^ 32 ∧ (∀ q, vm'.Mapped q ↔ vm.Mapped q) ∧
        ∃ offset, vm'.partialPages =
          updateNodes (a.va / 4096 * 4096) offset a.numBytes vm.partialPages) ∨
      checkPartialList vm.partialPages a.numBytes = 0 ∧ ∃ p, p + 1 < 2 ^ 20 ∧ a.va = p * 4096 ∧
        ¬vm.Mapped p ∧ (∀ q, vm'.Mapped q ↔ vm.Mapped q ∨ q = p) ∧
        vm'.partialPages = vm.partialPages ++ [⟨a.numBytes, a.va⟩]) := by
  have hpos := hr.pos
  have hlt := hr.lt
  have hresult := hr.result
  unfold tMalloc at hresult
  obtain ⟨vm₁, he, hresult⟩ := Option.bind_eq_some_iff.1 hresult
  have hpages := hr.pages vm₁ he
  obtain ⟨hok, hmapped, hlist⟩ := ensureMemory_spec hbase h he
  dsimp only at hresult
  rw [if_pos hlt, hlist] at hresult
  rw [hlist] at hpages
  by_cases hzero : checkPartialList vm.partialPages a.numBytes = 0
  · obtain ⟨hnext, hfind⟩ := hpages hzero
    rw [if_neg (not_not.2 hzero)] at hresult
    have hone : pagesRequired a.numBytes = 1 := by
      unfold pagesRequired pgSize at *
      omega
    rw [hone] at hresult
    obtain ⟨va, hva⟩ := Option.ne_none_iff_exists'.1 hnext
    obtain ⟨frames, hframes⟩ := Option.ne_none_iff_exists'.1 hfind
    rw [hva, hframes] at hresult
    obtain ⟨phy, hphy, hresult⟩ := Option.bind_eq_some_iff.1 hresult
    obtain ⟨vm₂, hmap, hresult⟩ := Option.bind_eq_some_iff.1 hresult
    rw [Option.some.injEq, Prod.mk.injEq, Option.getD_some] at hresult
    obtain ⟨rfl, rfl⟩ := hresult
    obtain ⟨p, hp, hfree, hpage⟩ := getNextAvail_spec hva
    rw [Option.getD_some, hpage] at hmap
    obtain ⟨hok', hmapped', hlist'⟩ := mapPage_spec hok (by omega) hfree hphy hlt hmap
    refine ⟨hok', .inr ⟨hzero, p, hp, hpage, fun hm => ?_, fun q => ?_, ?_⟩⟩
    · rw [hok.virt p ((hmapped p).2 hm)] at hfree
      cases hfree
    · rw [hmapped' q, hmapped q]
    · rw [hlist', hlist, hpage]
  · rw [if_pos hzero, Option.some.injEq, Prod.mk.injEq] at hresult
    obtain ⟨rfl, hva⟩ := hresult
    rw [hva]
    refine ⟨⟨⟨hok.start, hok.fits, hok.tables⟩, hok.virt⟩, .inl ?_⟩
    unfold checkPartialList at hva hzero
    cases hfit : firstFit vm.partialPages a.numBytes with
    | none =>
      rw [hfit] at hzero
      exact absurd rfl hzero
    | some node =>
      rw [hfit] at hva
      dsimp only at hva
      refine ⟨node, rfl, hva.symm, fun q => hmapped q, ?_⟩
      refine ⟨extractBits a.va (layout.pageDirBits + 1) layout.offsetBits, ?_⟩
      change updateNodes _ _ _ vm₁.partialPages = _
      rw [hlist, formVirtualAddress_fields (by omega)]

/-- Pages that are mapped are the pages of allocations. -/
theorem mapped_of_run (hbase : base + memSize ≤ 2 ^ 32) (h : Usable vm)
    (hrun : Run (Request base) vm as vm') : Usable vm' ∧
      ∀ q, vm'.Mapped q → vm.Mapped q ∨ ∃ a ∈ as, 1 ≤ a.numBytes ∧ a.va = q * 4096 := by
  induction hrun with
  | nil => exact ⟨h, fun q hq => .inl hq⟩
  | @snoc as mid u a _ hr ih =>
    obtain ⟨husable, hold⟩ := ih
    obtain ⟨hok, ⟨_, _, _, hmapped, _⟩ | ⟨_, p, _, hva, _, hmapped, _⟩⟩ :=
      request_spec hbase husable hr
    · refine ⟨.inl hok, fun q hq => ?_⟩
      rcases hold q ((hmapped q).1 hq) with hq | ⟨b, hb, hpage⟩
      · exact .inl hq
      · exact .inr ⟨b, List.mem_append_left _ hb, hpage⟩
    · refine ⟨.inl hok, fun q hq => ?_⟩
      rcases (hmapped q).1 hq with hq | rfl
      · rcases hold q hq with hq | ⟨b, hb, hpage⟩
        · exact .inl hq
        · exact .inr ⟨b, List.mem_append_left _ hb, hpage⟩
      · exact .inr ⟨a, by simp, hr.pos, hva⟩

/-! ## Room behind the allocations -/

/-- The allocations do not overlap, and every page with room has it behind its allocations, but for
one byte. -/
structure Packed (vm : Vm) (as : List Allocation) : Prop extends NoOverlap vm as where
  distinct : (vm.partialPages.map PartialNode.baseVa).Nodup
  page : ∀ node ∈ vm.partialPages, ∃ p, p + 1 < 2 ^ 20 ∧ vm.Mapped p ∧ node.baseVa = p * 4096
  taken : ∀ node ∈ vm.partialPages, node.spaceTaken < 4096
  behind : ∀ node ∈ vm.partialPages, ∀ a ∈ as, node.baseVa ≤ a.va → a.va < node.baseVa + 4096 →
    a.va + a.numBytes ≤ node.baseVa + node.spaceTaken + 1

theorem packed_start : Packed .start [] where
  apart := .nil
  inPage := by simp
  distinct := .nil
  page := by simp [Vm.start]
  taken := by simp [Vm.start]
  behind := by simp [Vm.start]

theorem InPage.mono (h : InPage vm a) (hmapped : ∀ q, vm.Mapped q → vm'.Mapped q) :
    InPage vm' a := by
  obtain ⟨p, hp, hle, hge⟩ := h
  exact ⟨p, hmapped p hp, hle, hge⟩

/-- **A new page** is packed. -/
theorem Packed.newPage (h : Packed vm as) (hpos : 1 ≤ a.numBytes) (hlt : a.numBytes < 4096)
    (hp : p + 1 < 2 ^ 20) (hva : a.va = p * 4096) (hfree : ¬vm.Mapped p)
    (hmapped : ∀ q, vm'.Mapped q ↔ vm.Mapped q ∨ q = p)
    (hlist : vm'.partialPages = vm.partialPages ++ [⟨a.numBytes, a.va⟩]) :
    Packed vm' (as ++ [a]) := by
  have hmono : ∀ q, vm.Mapped q → vm'.Mapped q := fun q hq => (hmapped q).2 (.inl hq)
  have hself : vm'.Mapped p := (hmapped p).2 (.inr rfl)
  -- Allocations so far lie in other pages.
  have hother : ∀ b ∈ as, b.va + b.numBytes ≤ p * 4096 ∨ (p + 1) * 4096 ≤ b.va := by
    intro b hb
    obtain ⟨q, hq, hle, hge⟩ := h.inPage b hb
    have hne : q ≠ p := fun hqp => hfree (hqp ▸ hq)
    unfold pgSize at hle hge
    omega
  have hpages : ∀ node ∈ vm.partialPages, node.baseVa ≠ p * 4096 := by
    intro node hnode heq
    obtain ⟨q, _, hq, hbaseVa⟩ := h.page node hnode
    obtain rfl : q = p := by omega
    exact hfree hq
  refine ⟨⟨?_, ?_⟩, ?_, ?_, ?_, ?_⟩
  · rw [List.pairwise_append]
    refine ⟨h.apart, List.pairwise_singleton .., fun b hb c hc => ?_⟩
    obtain rfl := List.mem_singleton.1 hc
    unfold Apart
    have := hother b hb
    omega
  · intro b hb
    rcases List.mem_append.1 hb with hb | hb
    · exact (h.inPage b hb).mono hmono
    · obtain rfl := List.mem_singleton.1 hb
      exact ⟨p, hself, by unfold pgSize; omega, by unfold pgSize; omega⟩
  · rw [hlist, List.map_append, List.nodup_append]
    refine ⟨h.distinct, List.nodup_singleton _, fun x hx y hy => ?_⟩
    obtain ⟨node, hnode, rfl⟩ := List.mem_map.1 hx
    obtain rfl := List.mem_singleton.1 hy
    exact hva ▸ hpages node hnode
  · intro node hnode
    rw [hlist] at hnode
    rcases List.mem_append.1 hnode with hnode | hnode
    · obtain ⟨q, hq, hold, hbaseVa⟩ := h.page node hnode
      exact ⟨q, hq, hmono q hold, hbaseVa⟩
    · obtain rfl := List.mem_singleton.1 hnode
      exact ⟨p, hp, hself, hva⟩
  · intro node hnode
    rw [hlist] at hnode
    rcases List.mem_append.1 hnode with hnode | hnode
    · exact h.taken node hnode
    · obtain rfl := List.mem_singleton.1 hnode
      exact hlt
  · intro node hnode b hb hle hge
    rw [hlist] at hnode
    rcases List.mem_append.1 hnode with hold | hnew <;> rcases List.mem_append.1 hb with hb | hb
    · exact h.behind node hold b hb hle hge
    · obtain rfl := List.mem_singleton.1 hb
      obtain ⟨q, _, _, hbaseVa⟩ := h.page node hold
      have := hpages node hold
      omega
    · obtain rfl := List.mem_singleton.1 hnew
      have := hother b hb
      dsimp only at hle hge ⊢
      omega
    · obtain rfl := List.mem_singleton.1 hnew
      obtain rfl := List.mem_singleton.1 hb
      dsimp only
      omega

/-- **A page with room** is packed afterwards, when room is left. -/
theorem Packed.share (h : Packed vm as) (hpos : 1 ≤ a.numBytes)
    (hfit : firstFit vm.partialPages a.numBytes = some node) (hleft : node.room ≠ a.numBytes)
    (hva : a.va = (node.baseVa + node.spaceTaken + 1) % 2 ^ 32)
    (hmapped : ∀ q, vm'.Mapped q ↔ vm.Mapped q)
    (hlist : vm'.partialPages =
      updateNodes (a.va / 4096 * 4096) offset a.numBytes vm.partialPages) :
    Packed vm' (as ++ [a]) := by
  obtain ⟨hnode, hroom⟩ := firstFit_spec hfit
  obtain ⟨p, hp, hpage, hbaseVa⟩ := h.page node hnode
  have htaken := h.taken node hnode
  rw [room_eq htaken] at hroom hleft
  have hmono : ∀ q, vm.Mapped q → vm'.Mapped q := fun q => (hmapped q).2
  have hplace : a.va = p * 4096 + node.spaceTaken + 1 := by omega
  have hsize : node.spaceTaken + a.numBytes < 4096 := by omega
  have hpageVa : a.va / 4096 * 4096 = node.baseVa := by omega
  rw [hpageVa] at hlist
  have hcases : ∀ new ∈ vm'.partialPages, new ∈ vm.partialPages ∧ new.baseVa ≠ node.baseVa ∨
      new = { node with spaceTaken := node.spaceTaken + a.numBytes } := by
    intro new hnew
    rw [hlist] at hnew
    rcases mem_updateNodes h.distinct hnew with hold | ⟨old, hold, heq, rfl⟩
    · exact .inl hold
    · obtain rfl := List.inj_on_of_nodup_map h.distinct hold hnode heq
      exact .inr (by rw [Nat.mod_eq_of_lt (by omega)])
  -- Allocations so far end before the new one, or lie in other pages.
  have hother : ∀ b ∈ as, b.va + b.numBytes ≤ a.va ∨ (p + 1) * 4096 ≤ b.va := by
    intro b hb
    obtain ⟨q, _, hle, hge⟩ := h.inPage b hb
    have hbehind := h.behind node hnode b hb
    unfold pgSize at hle hge
    omega
  refine ⟨⟨?_, ?_⟩, ?_, ?_, ?_, ?_⟩
  · rw [List.pairwise_append]
    refine ⟨h.apart, List.pairwise_singleton .., fun b hb c hc => ?_⟩
    obtain rfl := List.mem_singleton.1 hc
    unfold Apart
    have := hother b hb
    omega
  · intro b hb
    rcases List.mem_append.1 hb with hb | hb
    · exact (h.inPage b hb).mono hmono
    · obtain rfl := List.mem_singleton.1 hb
      exact ⟨p, hmono p hpage, by unfold pgSize; omega, by unfold pgSize; omega⟩
  · rw [hlist]
    exact map_updateNodes.nodup h.distinct
  · intro new hnew
    rcases hcases new hnew with ⟨hold, _⟩ | rfl
    · obtain ⟨q, hq, hold, hbaseVa⟩ := h.page new hold
      exact ⟨q, hq, hmono q hold, hbaseVa⟩
    · exact ⟨p, hp, hmono p hpage, hbaseVa⟩
  · intro new hnew
    rcases hcases new hnew with ⟨hold, _⟩ | rfl
    · exact h.taken new hold
    · exact hsize
  · intro new hnew b hb hle hge
    rcases hcases new hnew with ⟨hold, hne⟩ | rfl <;> rcases List.mem_append.1 hb with hb | hb
    · exact h.behind new hold b hb hle hge
    · obtain rfl := List.mem_singleton.1 hb
      obtain ⟨q, _, _, hbaseVa'⟩ := h.page new hold
      omega
    · have hbehind := h.behind node hnode b hb hle hge
      dsimp only
      omega
    · obtain rfl := List.mem_singleton.1 hb
      dsimp only
      omega

/-- **One request** that leaves room. -/
theorem packed_step (hbase : base + memSize ≤ 2 ^ 32) (h : Usable vm) (hpacked : Packed vm as)
    (hr : Request base vm a vm') (hroom : ¬ExactFit vm a.numBytes) :
    Usable vm' ∧ Packed vm' (as ++ [a]) := by
  obtain ⟨hok, ⟨node, hfit, hva, hmapped, offset, hlist⟩ |
    ⟨_, p, hp, hva, hfree, hmapped, hlist⟩⟩ := request_spec hbase h hr
  · have hleft : node.room ≠ a.numBytes := fun heq => hroom (by rw [ExactFit, hfit, ← heq]; rfl)
    exact ⟨.inl hok, hpacked.share hr.pos hfit hleft hva hmapped hlist⟩
  · exact ⟨.inl hok, hpacked.newPage hr.pos hr.lt hp hva hfree hmapped hlist⟩

/-- **Every run** of requests that leave room. -/
theorem packed_run (hbase : base + memSize ≤ 2 ^ 32)
    (hrun : Run (Guarded (fun vm a => ¬ExactFit vm a.numBytes) (Request base)) .start as vm) :
    Usable vm ∧ Packed vm as := by
  refine Run.history (I := fun as vm => Usable vm ∧ Packed vm as) ?_ ?_ hrun
  · exact ⟨.inr rfl, packed_start⟩
  · intro as vm a vm' ⟨husable, hpacked⟩ ⟨hroom, hr⟩
    exact packed_step hbase husable hpacked hr hroom

/-! ## An exact fit -/

/-- **An exact fit** overlaps another allocation, or leaves the pages that are mapped. -/
theorem overlap_of_exactFit {as₁ as₂ : List Allocation} {u v : Vm}
    (hbase : base + memSize ≤ 2 ^ 32)
    (hrun : Run (Guarded (fun vm a => ¬ExactFit vm a.numBytes) (Request base)) .start as₁ u)
    (hexact : ExactFit u a.numBytes) (hr : Request base u a v)
    (hrest : Run (Request base) v as₂ vm) :
    ¬NoOverlap vm (as₁ ++ a :: as₂) := by
  intro hno
  obtain ⟨husable, hpacked⟩ := packed_run hbase hrun
  obtain ⟨node, hfit, hroom⟩ := Option.map_eq_some_iff.1 hexact
  obtain ⟨hnode, -⟩ := firstFit_spec hfit
  obtain ⟨p, hp, -, hbaseVa⟩ := hpacked.page node hnode
  have htaken := hpacked.taken node hnode
  have hpos := hr.pos
  rw [room_eq htaken] at hroom
  obtain ⟨hok, ⟨node', hfit', hva, hmapped, -⟩ | ⟨hzero, -⟩⟩ := request_spec hbase husable hr
  swap
  · rw [checkPartialList, hfit] at hzero
    dsimp only at hzero
    omega
  obtain rfl : node = node' := Option.some.inj (hfit.symm.trans hfit')
  have hplace : a.va = p * 4096 + node.spaceTaken + 1 := by omega
  -- One byte lies in the next page, which must be its only one.
  obtain ⟨q, hq, hle, hge⟩ := hno.inPage a (by simp)
  unfold pgSize at hle hge
  obtain rfl : q = p + 1 := by omega
  have hapart := List.pairwise_append.1 hno.apart
  have hstart := (mapped_of_run hbase (.inr rfl) (hrun.mono fun _ _ _ h => h.2)).2 (p + 1)
  rcases (mapped_of_run hbase (.inl hok) hrest).2 _ hq with hq | ⟨b, hb, hsize, hva'⟩
  · rcases hstart ((hmapped _).1 hq) with hq | ⟨b, hb, hsize, hva'⟩
    · exact not_mapped_start hq
    · have hab := hapart.2.2 b hb a List.mem_cons_self
      unfold Apart at hab
      omega
  · have hab := (List.pairwise_cons.1 hapart.2.1).1 b hb
    unfold Apart at hab
    omega

/-! ## The condition -/

/-- **Allocations of less than a page** are apart, each in one mapped page, exactly when every
request leaves room in the page that it shares. -/
theorem subpage_iff (hbase : base + memSize ≤ 2 ^ 32) (hrun : Run (Request base) .start as vm) :
    NoOverlap vm as ↔
      Run (Guarded (fun vm a => ¬ExactFit vm a.numBytes) (Request base)) .start as vm := by
  constructor
  · intro hno
    obtain hguarded | ⟨as₁, a, as₂, u, v, rfl, hguarded, hexact, hr, hrest⟩ :=
      @Run.guarded_or _ _ _ _ _ _ (fun vm a => ¬ExactFit vm a.numBytes) hrun
    · exact hguarded
    · exact absurd hno (overlap_of_exactFit hbase hguarded (not_not.1 hexact) hr hrest)
  · intro hguarded
    exact (packed_run hbase hguarded).2.toNoOverlap

/-- The state after some requests, if they have these results and meet a condition. -/
def requests (ok : Vm → Allocation → Bool) (base : ℕ) : Vm → List Allocation → Option Vm
  | vm, [] => some vm
  | vm, a :: as =>
    if 1 ≤ a.numBytes ∧ a.numBytes < pgSize ∧ EnoughPages base vm a.numBytes ∧ ok vm a then
      (tMalloc base vm a.numBytes).bind fun r =>
        if r.2 = a.va then requests ok base r.1 as else none
    else none

theorem run_of_requests {ok : Vm → Allocation → Bool} (h : requests ok base vm as = some vm') :
    Run (Guarded (fun vm a => ok vm a = true) (Request base)) vm as vm' := by
  induction as generalizing vm with
  | nil =>
    cases h
    exact .nil
  | cons a as ih =>
    rw [requests] at h
    split at h
    next hok =>
      obtain ⟨⟨vm₁, va⟩, hresult, h⟩ := Option.bind_eq_some_iff.1 h
      obtain ⟨hpos, hlt, hpages, hok⟩ := hok
      dsimp only at h
      split at h
      next hva => exact (Run.single ⟨hok, hpos, hlt, hpages, hva ▸ hresult⟩).append (ih h)
      next => cases h
    next => cases h

/-- Two small allocations share a page. -/
theorem subpage_iff_two : ∃ vm, NoOverlap vm [⟨100, 0⟩, ⟨200, 101⟩] := by
  obtain ⟨vm, hvm⟩ := Option.isSome_iff_exists.1 (show (requests
    (fun vm a => !decide (ExactFit vm a.numBytes)) 4096 .start [⟨100, 0⟩, ⟨200, 101⟩]).isSome = true
    by decide +kernel)
  have hrun := run_of_requests hvm
  refine ⟨vm, (subpage_iff (by decide) (hrun.mono fun _ _ _ h => h.2)).2 ?_⟩
  exact hrun.mono fun _ _ _ h => ⟨by simpa using h.1, h.2⟩

/-- The second of two allocations takes all the room that is left. -/
theorem subpage_exact_fit : ¬∀ (base : ℕ) (as : List Allocation) (vm : Vm),
    base + memSize ≤ 2 ^ 32 → Run (Request base) .start as vm → NoOverlap vm as := by
  intro hall
  obtain ⟨vm, hvm⟩ := Option.isSome_iff_exists.1 (show (requests (fun _ _ => true) 4096 .start
    [⟨100, 0⟩, ⟨3996, 101⟩]).isSome = true by decide +kernel)
  have hno := hall 4096 _ vm (by decide) ((run_of_requests hvm).mono fun _ _ _ h => h.2)
  obtain ⟨p, -, hle, hge⟩ := hno.inPage ⟨3996, 101⟩ (by simp)
  unfold pgSize at hle hge
  dsimp only at hle hge
  omega

end UserOS.Fragment
