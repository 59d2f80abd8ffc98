import Mathlib.Tactic.Ring
import Mathlib.Data.List.Perm.Subperm
import UserOS.Lib.Chain

/-!
# The translation lookaside buffer

The TLB is a singly linked list of translations with a `tail` pointer and a `length` counter. The
code moves a node that is hit to the front and, at capacity, replaces the head. It leaves `tail`
stale or dangling, and `length` too large, in several cases: moving the tail node to the front
keeps `tail` on it, and deleting a node that `tail` wrongly names cuts off or clears the list.

The invariant `TlbInv T P l` therefore says nothing about `tail`, and bounds `length` only from
below by the number of nodes. It holds of the list `l` read from `head`: the nodes are allocated,
have distinct virtual addresses and satisfy `P`, and fit in the capacity. Every operation keeps
it, whatever `tail` is, and none reaches a node that is not allocated.

* `checkTlb_cases`, `addTlb_cases`, `deleteFromTlb_cut`: what each operation does to the list.
* `checkTlb_spec`, `addTlb_spec`, `deleteFromTlb_spec`: what it keeps, whatever `tail` is.
-/

namespace UserOS.MyVm

open Lib

/-- `struct TLB_Node`. -/
structure TlbNode where
  va : ℕ
  pa : ℕ
  next : Option ℕ
  deriving DecidableEq, Repr

/-- `struct tlb` with the nodes allocated for it, the capacity `TLB_ENTRIES`, the number of calls
of `malloc` so far, and the counters `tlb_hit` and `tlb_miss`. -/
structure Tlb where
  entries : ℕ
  nodes : ℕ → Option TlbNode
  head : Option ℕ
  tail : Option ℕ
  length : ℤ
  mallocs : ℕ
  hits : ℕ
  misses : ℕ

/-- `TLB_ENTRIES`. -/
def tlbEntries : ℕ := 512

/-- The TLB that `set_physical_mem` makes. -/
def Tlb.empty : Tlb := ⟨tlbEntries, fun _ => none, none, none, 0, 0, 0, 0⟩

/-! ## The operations -/

/-- The loops that follow the list from the head. A list never has more than `entries` nodes
(`TlbInv`), which bounds the walk. -/
def Tlb.find (T : Tlb) (stop : ℕ → TlbNode → Bool) : Option (Option ℕ × Option ℕ) :=
  walk T.nodes TlbNode.next (fun a n => some (stop a n)) (T.entries + 1) none T.head

/-- `add_TLB`. When `malloc` returns null nothing is added. -/
def addTlb (μ : Malloc TlbNode) (T : Tlb) (va pa : ℕ) : Option Tlb :=
  let T' := { T with mallocs := T.mallocs + 1 }
  match μ.addr T.mallocs T.nodes with
  | none => some T'
  | some a =>
    match T.head with
    | none => some { T' with
        nodes := Function.update T.nodes a (some ⟨va, pa, none⟩)
        head := some a
        tail := some a
        length := T.length + 1 }
    | some h =>
      if T.length < T.entries then
        some { T' with
          nodes := Function.update T.nodes a (some ⟨va, pa, some h⟩)
          head := some a
          length := T.length + 1 }
      else do
        let old ← T.nodes h
        some { T' with
          nodes := Function.update (Function.update T.nodes h none) a (some ⟨va, pa, old.next⟩)
          head := some a }

/-- `arrange`: move a node to the front. The loop has no test for the end of the list. -/
def arrange (T : Tlb) (node : ℕ) : Option Tlb :=
  if T.head = T.tail then some T
  else do
    let (prev, curr) ← T.find fun a _ => a = node
    let c ← curr
    match prev with
    | none => some T
    | some p =>
      let pn ← T.nodes p
      let cn ← T.nodes c
      some { T with
        nodes := Function.update (Function.update T.nodes p (some { pn with next := cn.next })) c
          (some { cn with next := T.head })
        head := some c }

/-- `check_TLB`. The result is the `pa` that the pointer returned points to. -/
def checkTlb (T : Tlb) (va : ℕ) : Option (Tlb × Option ℕ) := do
  let (_, present) ← T.find fun _ n => n.va = va
  match present with
  | none => some ({ T with misses := T.misses + 1 }, none)
  | some a =>
    let T ← arrange T a
    let n ← T.nodes a
    some ({ T with hits := T.hits + 1 }, some n.pa)

/-- `delete_from_tlb`. -/
def deleteFromTlb (T : Tlb) (va : ℕ) : Option Tlb :=
  match T.head with
  | none => some T
  | some h => do
    let hn ← T.nodes h
    if T.head = T.tail ∧ hn.va = va then
      some { T with
        nodes := Function.update T.nodes h none
        head := none
        tail := none
        length := T.length - 1 }
    else
      let (prev, present) ← T.find fun _ n => n.va = va
      match present with
      | none => some T
      | some a =>
        let n ← T.nodes a
        if T.head = some a then
          some { T with
            nodes := Function.update T.nodes a none
            head := n.next
            length := T.length - 1 }
        else
          let p ← prev
          let pn ← T.nodes p
          if T.tail = some a then
            some { T with
              nodes := Function.update (Function.update T.nodes p (some { pn with next := none })) a
                none
              tail := some p
              length := T.length - 1 }
          else
            some { T with
              nodes := Function.update
                (Function.update T.nodes p (some { pn with next := n.next })) a none
              length := T.length - 1 }

/-! ## The invariant -/

/-- The virtual address of the node at `a`. -/
def Tlb.vaAt (T : Tlb) (a : ℕ) : Option ℕ := (T.nodes a).map TlbNode.va

/-- The list read from `head` is `l`: allocated nodes with distinct virtual addresses, all of
whose translations satisfy `P`, no more than `length` of them, within the capacity. -/
structure TlbInv (T : Tlb) (P : ℕ → ℕ → Prop) (l : List ℕ) : Prop where
  chain : Chain T.nodes TlbNode.next T.head l
  distinct : (l.map T.vaAt).Nodup
  holds : ∀ a ∈ l, ∀ n, T.nodes a = some n → P n.va n.pa
  len : (l.length : ℤ) ≤ T.length
  cap : T.length ≤ T.entries
  room : T.head = none → T.length < T.entries

variable {T : Tlb} {P Q : ℕ → ℕ → Prop} {l l₁ l₂ : List ℕ} {a va pa : ℕ} {n : TlbNode}

namespace TlbInv

theorem mono (h : TlbInv T P l) (hPQ : ∀ v p, P v p → Q v p) : TlbInv T Q l :=
  { h with holds := fun a ha n hn => hPQ _ _ (h.holds a ha n hn) }

theorem length_le (h : TlbInv T P l) : l.length ≤ T.entries := by
  have h1 := h.len
  have h2 := h.cap
  omega

/-- Two nodes of the list with one virtual address are one node. -/
theorem eq_of_va (h : TlbInv T P l) {b : ℕ} {m : TlbNode} (ha : a ∈ l) (hb : b ∈ l)
    (hn : T.nodes a = some n) (hm : T.nodes b = some m) (hva : n.va = m.va) : a = b :=
  List.inj_on_of_nodup_map h.distinct ha hb (by simp [Tlb.vaAt, hn, hm, hva])

theorem holds_ne (h : TlbInv T P l) (hne : ∀ a ∈ l, ∀ n, T.nodes a = some n → n.va ≠ va) :
    TlbInv T (fun v p => P v p ∧ v ≠ va) l :=
  { h with holds := fun a ha n hn => ⟨h.holds a ha n hn, hne a ha n hn⟩ }

/-- A test on the virtual address finds the node of that address, or there is none. -/
theorem find_va (h : TlbInv T P l) (va : ℕ) :
    (∃ l₁ a l₂ n, l = l₁ ++ a :: l₂ ∧ T.nodes a = some n ∧ n.va = va ∧
      T.find (fun _ n => n.va = va) = some (l₁.getLast?, some a)) ∨
    ((∀ a ∈ l, ∀ n, T.nodes a = some n → n.va ≠ va) ∧
      T.find (fun _ n => n.va = va) = some (l.getLast?, none)) := by
  have hlen : l.length < T.entries + 1 := Nat.lt_succ_of_le h.length_le
  by_cases hex : ∃ a ∈ l, ∃ n, T.nodes a = some n ∧ n.va = va
  · obtain ⟨a, ha, n, hn, hva⟩ := hex
    obtain ⟨l₁, l₂, rfl⟩ := List.append_of_mem ha
    refine .inl ⟨l₁, a, l₂, n, rfl, hn, hva, ?_⟩
    rw [Tlb.find, walk_found h.chain _ hn (by simp [hva]) hlen, Option.or_none]
    intro b hb m hm
    have hba : b ≠ a := fun hba => h.chain.notMem_before (hba ▸ hb)
    have : m.va ≠ va := fun hmv =>
      hba (h.eq_of_va (List.mem_append_left _ hb) ha hm hn (hmv.trans hva.symm))
    simp [this]
  · push Not at hex
    refine .inr ⟨hex, ?_⟩
    rw [Tlb.find, walk_end h.chain _ hlen, Option.or_none]
    intro b hb m hm
    simp [hex b hb m hm]

/-- The walk of `arrange` finds the node it is given. -/
theorem find_node (h : TlbInv T P (l₁ ++ a :: l₂)) :
    T.find (fun b _ => b = a) = some (l₁.getLast?, some a) := by
  obtain ⟨n, hn⟩ := h.chain.exists_of_mem (a := a) (by simp)
  rw [Tlb.find, walk_found h.chain _ hn (by simp) (Nat.lt_succ_of_le h.length_le), Option.or_none]
  intro b hb m _
  have hba : b ≠ a := fun hba => h.chain.notMem_before (hba ▸ hb)
  simp [hba]

/-- A list of some of the nodes, none of them changed but in its link, within the bounds. -/
theorem of_sublist {T' : Tlb} {l' : List ℕ} (h : TlbInv T P l)
    (hchain : Chain T'.nodes TlbNode.next T'.head l') (hsub : l'.Subperm l)
    (hkey : ∀ a ∈ l', (T'.nodes a).map (fun n => (n.va, n.pa)) =
      (T.nodes a).map fun n => (n.va, n.pa))
    (hlen : (l'.length : ℤ) ≤ T'.length) (hcap : T'.length ≤ T'.entries)
    (hroom : T'.head = none → T'.length < T'.entries) : TlbInv T' P l' where
  chain := hchain
  distinct := by
    have hva : l'.map T'.vaAt = l'.map T.vaAt := List.map_congr_left fun a ha => by
      have := congrArg (Option.map Prod.fst) (hkey a ha)
      simpa [Tlb.vaAt, Option.map_map, Function.comp_def] using this
    rw [hva]
    obtain ⟨l'', hperm, hsub'⟩ := hsub
    exact ((hperm.map _).nodup_iff).1 (h.distinct.sublist (hsub'.map _))
  holds := fun a ha n hn => by
    have := hkey a ha
    rw [hn, Option.map_some, eq_comm, Option.map_eq_some_iff] at this
    obtain ⟨m, hm, hmn⟩ := this
    rw [Prod.mk.injEq] at hmn
    rw [← hmn.1, ← hmn.2]
    exact h.holds a (hsub.subset ha) m hm
  len := hlen
  cap := hcap
  room := hroom

end TlbInv

/-! ## What the operations do -/

/-- The translation held by the node at `a`. -/
def Tlb.entryAt (T : Tlb) (a : ℕ) : Option (ℕ × ℕ) := (T.nodes a).map fun n => (n.va, n.pa)

/-- What `arrange` leaves of the list `l`: the node `a` is at the front, unless `head` and `tail`
are the same, and then nothing moves. -/
structure Arranged (T T' : Tlb) (a : ℕ) (l l' : List ℕ) : Prop where
  order : T.head = T.tail ∧ l' = l ∨ T.head ≠ T.tail ∧ l' = a :: l.erase a
  kept : ∀ b ∈ l, T'.entryAt b = T.entryAt b
  tail : T'.tail = T.tail
  length : T'.length = T.length
  entries : T'.entries = T.entries

theorem Arranged.perm {T' : Tlb} {l' : List ℕ} (h : Arranged T T' a l l') (ha : a ∈ l) :
    l'.Perm l := by
  rcases h.order with ⟨-, rfl⟩ | ⟨-, rfl⟩
  · exact .refl _
  · exact (List.perm_cons_erase ha).symm

theorem arrange_spec (h : TlbInv T P l) (ha : a ∈ l) :
    ∃ T' l', arrange T a = some T' ∧ TlbInv T' P l' ∧ Arranged T T' a l l' := by
  unfold arrange
  split_ifs with htail
  · exact ⟨T, l, rfl, h, .inl ⟨htail, rfl⟩, fun _ _ => rfl, rfl, rfl, rfl⟩
  obtain ⟨l₁, l₂, rfl⟩ := List.append_of_mem ha
  have hnd := h.chain.nodup
  have herase : a :: (l₁ ++ a :: l₂).erase a = a :: (l₁ ++ l₂) := by
    rw [List.erase_append_right _ h.chain.notMem_before, List.erase_cons_head]
  rw [h.find_node]
  rcases List.eq_nil_or_concat l₁ with rfl | ⟨l₁, p, rfl⟩
  · exact ⟨T, _, rfl, h, .inr ⟨htail, herase.symm⟩, fun _ _ => rfl, rfl, rfl, rfl⟩
  -- The node has a predecessor `p`, which takes over its link.
  rw [List.concat_eq_append, List.append_assoc, List.singleton_append] at h hnd herase ⊢
  obtain ⟨pn, hp⟩ := h.chain.exists_of_mem (a := p) (by simp)
  obtain ⟨cn, hc⟩ := h.chain.exists_of_mem (a := a) (by simp)
  have hpa : a ≠ p := by
    rintro rfl
    exact (List.nodup_cons.1 (List.nodup_append.1 hnd).2.1).1 List.mem_cons_self
  have hperm : (a :: (l₁ ++ p :: l₂)).Perm (l₁ ++ p :: a :: l₂) := by
    simpa using (List.perm_middle.symm : (a :: ((l₁ ++ [p]) ++ l₂)).Perm ((l₁ ++ [p]) ++ a :: l₂))
  have ha' : a ∉ l₁ ++ p :: l₂ := by
    exact (List.nodup_cons.1 (hperm.nodup_iff.2 hnd)).1
  let T' : Tlb := { T with
    nodes := Function.update (Function.update T.nodes p (some { pn with next := cn.next })) a
      (some { cn with next := T.head })
    head := some a }
  have hkept : ∀ b, T'.entryAt b = T.entryAt b := by
    intro b
    unfold Tlb.entryAt
    by_cases hba : b = a
    · simp [hba, hc, T']
    by_cases hbp : b = p
    · simp [hbp, Function.update_of_ne hpa.symm, hp, T']
    · simp only [T', Function.update_of_ne hba, Function.update_of_ne hbp]
  refine ⟨T', a :: (l₁ ++ p :: l₂), by simp [hp, hc, T'], ?_, .inr ⟨htail, ?_⟩,
    fun b _ => hkept b, rfl, rfl, rfl⟩
  · refine h.of_sublist ⟨rfl, { cn with next := T.head }, by simp [T'], ?_⟩ hperm.subperm
      (fun b _ => hkept b) ?_ h.cap (by simp [T'])
    · have hcut : Chain (Function.update T.nodes p (some { pn with next := cn.next }))
          TlbNode.next T.head (l₁ ++ p :: l₂) := h.chain.unlink hc rfl
      exact hcut.update_of_notMem ha' _
    · rw [hperm.length_eq]
      exact h.len
  · rw [herase]
    simp

/-- A lookup finds the node of the address and moves it to the front, or there is none. -/
theorem checkTlb_cases (h : TlbInv T P l) (va : ℕ) :
    (∃ a ∈ l, ∃ n T' l', T.nodes a = some n ∧ n.va = va ∧ checkTlb T va = some (T', some n.pa) ∧
      TlbInv T' P l' ∧ Arranged T T' a l l') ∨
    (∀ a ∈ l, ∀ n, T.nodes a = some n → n.va ≠ va) ∧
      checkTlb T va = some ({ T with misses := T.misses + 1 }, none) := by
  unfold checkTlb
  rcases h.find_va va with ⟨l₁, a, l₂, n, hl, hn, hva, hfind⟩ | ⟨hne, hfind⟩
  · left
    have ha : a ∈ l := by rw [hl]; simp
    obtain ⟨T', l', harr, hinv, hmoved⟩ := arrange_spec h ha
    obtain ⟨n', hn'⟩ := hinv.chain.exists_of_mem ((hmoved.perm ha).mem_iff.2 ha)
    have hkey : n'.va = n.va ∧ n'.pa = n.pa := by
      simpa [Tlb.entryAt, hn, hn'] using hmoved.kept a ha
    refine ⟨a, ha, n, { T' with hits := T'.hits + 1 }, l', hn, hva, ?_, { hinv with },
      { hmoved with }⟩
    rw [hfind]
    simp [harr, hn', hkey.2]
  · exact .inr ⟨hne, by rw [hfind]; rfl⟩

/-- A lookup returns a translation that the TLB holds, or there is none for the address. -/
theorem checkTlb_spec (h : TlbInv T P l) (va : ℕ) :
    (∃ T' l' pa, checkTlb T va = some (T', some pa) ∧ TlbInv T' P l' ∧ T'.entries = T.entries ∧
      P va pa) ∨
    (∃ T', checkTlb T va = some (T', none) ∧ TlbInv T' (fun v p => P v p ∧ v ≠ va) l ∧
      T'.entries = T.entries) := by
  rcases checkTlb_cases h va with ⟨a, ha, n, T', l', hn, hva, hcheck, hinv, hmoved⟩ | ⟨hne, hcheck⟩
  · exact .inl ⟨T', l', n.pa, hcheck, hinv, hmoved.entries, hva ▸ h.holds a ha n hn⟩
  · exact .inr ⟨_, hcheck, { h.holds_ne hne with }, rfl⟩

/-- A new node `a` in front of some of the old ones, none of which translates its address. -/
theorem TlbInv.push {T' : Tlb} {l' : List ℕ} {nx : Option ℕ}
    (h : TlbInv T (fun v p => P v p ∧ v ≠ va) l) (hP : P va pa) (hsub : l'.Sublist l)
    (hhead : T'.head = some a) (ha : T'.nodes a = some ⟨va, pa, nx⟩)
    (hchain : Chain T.nodes TlbNode.next nx l') (hsame : ∀ b ∈ l', T'.nodes b = T.nodes b)
    (hlen : (l'.length : ℤ) + 1 ≤ T'.length) (hcap : T'.length ≤ T'.entries) :
    TlbInv T' P (a :: l') := by
  have hva' : l'.map T'.vaAt = l'.map T.vaAt :=
    List.map_congr_left fun b hb => by simp [Tlb.vaAt, hsame b hb]
  refine ⟨⟨hhead, _, ha, hchain.congr fun b hb => by rw [hsame b hb]⟩, ?_, ?_, by simpa using hlen,
    hcap, by simp [hhead]⟩
  · rw [List.map_cons, List.nodup_cons, hva']
    refine ⟨fun hmem => ?_, h.distinct.sublist (hsub.map _)⟩
    obtain ⟨b, hb, hbva⟩ := List.mem_map.1 hmem
    obtain ⟨n, hn⟩ := h.chain.exists_of_mem (hsub.subset hb)
    have : n.va = va := by simpa [Tlb.vaAt, hn, ha] using hbva
    exact (h.holds b (hsub.subset hb) n hn).2 this
  · intro b hb n hn
    rcases List.mem_cons.1 hb with rfl | hb
    · rw [ha] at hn
      cases hn
      exact hP
    · rw [hsame b hb] at hn
      exact (h.holds b (hsub.subset hb) n hn).1

/-- What an insertion leaves of the list `l`: a new node in front, at capacity instead of the
first. -/
structure Inserted (μ : Malloc TlbNode) (T T' : Tlb) (va pa : ℕ) (l l' : List ℕ) : Prop where
  kept : ∀ b ∈ l, b ∈ l' → T'.entryAt b = T.entryAt b
  entries : T'.entries = T.entries
  mallocs : T'.mallocs = T.mallocs + 1
  cases : μ.addr T.mallocs T.nodes = none ∧ l' = l ∧ T'.tail = T.tail ∧ T'.length = T.length ∨
    ∃ a, a ∉ l ∧ T'.entryAt a = some (va, pa) ∧
      (l = [] ∧ l' = [a] ∧ T'.tail = some a ∧ T'.length = T.length + 1 ∨
        l ≠ [] ∧ T'.tail = T.tail ∧
          (T.length < T.entries ∧ l' = a :: l ∧ T'.length = T.length + 1 ∨
            T.entries ≤ T.length ∧ l' = a :: l.tail ∧ T'.length = T.length))

/-- **Insertion.** Adding a translation for an address just missed keeps the invariant. -/
theorem addTlb_cases (μ : Malloc TlbNode) (h : TlbInv T (fun v p => P v p ∧ v ≠ va) l)
    (hP : P va pa) :
    ∃ T' l', addTlb μ T va pa = some T' ∧ TlbInv T' P l' ∧ Inserted μ T T' va pa l l' := by
  have hlen := h.len
  unfold addTlb
  cases hμ : μ.addr T.mallocs T.nodes with
  | none =>
    exact ⟨_, l, rfl, { h.mono fun _ _ hp => hp.1 with }, fun _ _ _ => rfl, rfl, rfl,
      .inl ⟨hμ, rfl, rfl, rfl⟩⟩
  | some a =>
    have hfresh : T.nodes a = none := μ.fresh hμ
    have hmem : ∀ b ∈ l, b ≠ a := by
      rintro b hb rfl
      obtain ⟨v, hv⟩ := h.chain.exists_of_mem hb
      rw [hfresh] at hv
      cases hv
    have ha : a ∉ l := fun hm => hmem a hm rfl
    cases hh : T.head with
    | none =>
      have hroom := h.room hh
      have hl : l = [] := h.chain.eq_nil_iff.2 hh
      have hentry : ((Function.update T.nodes a (some ⟨va, pa, none⟩)) a).map
          (fun n => (n.va, n.pa)) = some (va, pa) := by simp
      refine ⟨_, [a], rfl, h.push hP (List.nil_sublist l) rfl (Function.update_self ..) rfl
        (by simp) ?_ ?_, fun b hb => absurd hb (by simp [hl]), rfl, rfl,
        .inr ⟨a, ha, hentry, .inl ⟨hl, rfl, rfl, rfl⟩⟩⟩ <;>
        simp only [List.length_nil] <;> omega
    | some hd =>
      have hl : l ≠ [] := fun hl => by
        rw [h.chain.eq_nil_iff.1 hl] at hh
        cases hh
      simp only
      split_ifs with hlt
      · have hsame : ∀ b ∈ l, Function.update T.nodes a (some ⟨va, pa, some hd⟩) b = T.nodes b :=
          fun b hb => Function.update_of_ne (hmem b hb) ..
        have hentry : ((Function.update T.nodes a (some ⟨va, pa, some hd⟩)) a).map
            (fun n => (n.va, n.pa)) = some (va, pa) := by simp
        refine ⟨_, a :: l, rfl, h.push hP (List.Sublist.refl l) rfl (Function.update_self ..)
          (hh ▸ h.chain) hsame ?_ ?_, fun b hb _ => ?_, rfl, rfl,
          .inr ⟨a, ha, hentry, .inr ⟨hl, rfl, .inl ⟨hlt, rfl, rfl⟩⟩⟩⟩
        · simp only
          omega
        · simp only
          omega
        · simp only [Tlb.entryAt, hsame b hb]
      · -- At capacity the head is replaced.
        obtain ⟨l', rfl⟩ : ∃ l', l = hd :: l' := by
          have := h.chain.head?_eq
          rw [hh] at this
          exact List.head?_eq_some_iff.1 this.symm
        obtain ⟨-, old, hold, hrest⟩ := h.chain
        have hnd := List.nodup_cons.1 h.chain.nodup
        let T' : Tlb := { T with
          mallocs := T.mallocs + 1
          nodes := Function.update (Function.update T.nodes hd none) a (some ⟨va, pa, old.next⟩)
          head := some a }
        have hsame : ∀ b ∈ l', T'.nodes b = T.nodes b := fun b hb => by
          simp only [T']
          rw [Function.update_of_ne (hmem b (List.mem_cons_of_mem _ hb)),
            Function.update_of_ne (ne_of_mem_of_not_mem hb hnd.1)]
        refine ⟨T', a :: l', by rw [hold]; rfl, h.push hP (List.sublist_cons_self hd l') rfl
          (Function.update_self ..) hrest hsame ?_ h.cap, fun b hb hb' => ?_, rfl, rfl,
          .inr ⟨a, ha, by simp [Tlb.entryAt, T'], .inr ⟨hl, rfl, .inr ⟨by omega, rfl, rfl⟩⟩⟩⟩
        · simpa using hlen
        · rcases List.mem_cons.1 hb' with rfl | hb'
          · exact absurd hb ha
          · simp only [Tlb.entryAt, hsame b hb']

theorem addTlb_spec (μ : Malloc TlbNode) (h : TlbInv T (fun v p => P v p ∧ v ≠ va) l)
    (hP : P va pa) :
    ∃ T' l', addTlb μ T va pa = some T' ∧ TlbInv T' P l' ∧ T'.entries = T.entries := by
  obtain ⟨T', l', hadd, hinv, hins⟩ := addTlb_cases μ h hP
  exact ⟨T', l', hadd, hinv, hins.entries⟩

/-- What is left of the list after the node of `va` went. -/
theorem TlbInv.without {T' : Tlb} {l' : List ℕ} (h : TlbInv T P (l₁ ++ a :: l₂))
    (hn : T.nodes a = some n) (hva : n.va = va)
    (hchain : Chain T'.nodes TlbNode.next T'.head l') (hsub : l'.Sublist (l₁ ++ l₂))
    (hkey : ∀ b ∈ l', T'.entryAt b = T.entryAt b) (hlen : T'.length = T.length - 1)
    (hent : T'.entries = T.entries) : TlbInv T' (fun v p => P v p ∧ v ≠ va) l' := by
  have hnd := h.chain.notMem_rest
  have hsub' : l'.Sublist (l₁ ++ a :: l₂) :=
    hsub.trans ((List.Sublist.refl l₁).append (List.sublist_cons_self a l₂))
  have hlen' := h.len
  have hcap := h.cap
  have hle := hsub.length_le
  simp only [List.length_append, List.length_cons] at hlen' hle
  have hinv : TlbInv T' P l' :=
    h.of_sublist hchain hsub'.subperm hkey (by omega) (by omega) (fun _ => by omega)
  refine hinv.holds_ne fun b hb m hm hmva => hnd ?_
  obtain ⟨m', hm'⟩ := h.chain.exists_of_mem (hsub'.subset hb)
  have hmm : m.va = m'.va ∧ m.pa = m'.pa := by simpa [Tlb.entryAt, hm, hm'] using hkey b hb
  have hba : b = a := h.eq_of_va (hsub'.subset hb) (by simp) hm' hn
    (hmm.1.symm.trans (hmva.trans hva.symm))
  exact hba ▸ hsub.subset hb

/-- What a deletion leaves of the list `l`: when `tail` names the node of the address, only the
nodes before it are left, and `tail` names the last of them. -/
structure Deleted (T T' : Tlb) (va : ℕ) (l l' : List ℕ) : Prop where
  kept : ∀ b ∈ l', T'.entryAt b = T.entryAt b
  cases : (∀ b ∈ l, T.vaAt b ≠ some va) ∧ l' = l ∧ T'.tail = T.tail ∨
    ∃ l₁ a l₂, l = l₁ ++ a :: l₂ ∧ T.vaAt a = some va ∧
      (T.tail ≠ some a ∧ l' = l₁ ++ l₂ ∧ T'.tail = T.tail ∨
        T.tail = some a ∧ l' = l₁ ∧ T'.tail = l₁.getLast?)

/-- **Deletion.** Afterwards no node translates the address, whatever `tail` was. -/
theorem deleteFromTlb_cut (h : TlbInv T P l) (va : ℕ) :
    ∃ T' l', deleteFromTlb T va = some T' ∧ TlbInv T' (fun v p => P v p ∧ v ≠ va) l' ∧
      T'.entries = T.entries ∧ Deleted T T' va l l' ∧
      ((∀ b ∈ l, T.vaAt b ≠ some va) → T' = T) ∧
      ((∃ b ∈ l, T.vaAt b = some va) → T'.length = T.length - 1) := by
  unfold deleteFromTlb
  cases hh : T.head with
  | none =>
    have hl : l = [] := h.chain.eq_nil_iff.2 hh
    subst hl
    exact ⟨T, [], rfl, h.holds_ne (by simp), rfl, ⟨fun _ _ => rfl, .inl ⟨by simp, rfl, rfl⟩⟩,
      fun _ => rfl, by simp⟩
  | some hd =>
    obtain ⟨l', rfl⟩ : ∃ l', l = hd :: l' := by
      have := h.chain.head?_eq
      rw [hh] at this
      exact List.head?_eq_some_iff.1 this.symm
    obtain ⟨hn, hhn⟩ := h.chain.exists_of_mem (a := hd) (by simp)
    simp only [hhn, Option.bind_eq_bind, Option.bind_some]
    rw [← hh]
    split_ifs with hsingle
    · -- `tail` names the head: the whole list goes.
      have hvaAt : T.vaAt hd = some va := by simp [Tlb.vaAt, hhn, hsingle.2]
      exact ⟨_, [], rfl, (show TlbInv T P ([] ++ hd :: l') from h).without hhn hsingle.2 rfl
        (List.nil_sublist _) (by simp) rfl rfl, rfl,
        ⟨by simp, .inr ⟨[], hd, l', rfl, hvaAt, .inr ⟨hsingle.1 ▸ hh, rfl, rfl⟩⟩⟩,
        fun hnone => absurd hvaAt (hnone hd List.mem_cons_self), fun _ => rfl⟩
    rcases h.find_va va with ⟨l₁, a, l₂, n, hl, hna, hva, hfind⟩ | ⟨hne, hfind⟩
    swap
    · have hnone : ∀ b ∈ hd :: l', T.vaAt b ≠ some va := fun b hb hb' => by
        obtain ⟨m, hm, hmva⟩ := Option.map_eq_some_iff.1 hb'
        exact hne b hb m hm hmva
      exact ⟨T, _, by rw [hfind]; rfl, h.holds_ne hne, rfl, ⟨fun _ _ => rfl,
        .inl ⟨hnone, rfl, rfl⟩⟩, fun _ => rfl, fun ⟨b, hb, hb'⟩ => absurd hb' (hnone b hb)⟩
    rw [hfind]
    simp only [Option.bind_some, hna]
    have hvaAt : T.vaAt a = some va := by simp [Tlb.vaAt, hna, hva]
    rw [hl] at h ⊢
    have hnot := h.chain.notMem_rest
    rcases List.eq_nil_or_concat l₁ with rfl | ⟨l₁, p, rfl⟩
    · -- The head goes. It is not the node that `tail` names.
      have htail : T.tail ≠ some a := fun htail => by
        obtain ⟨rfl, -⟩ := List.cons.inj hl
        rw [hhn] at hna
        cases hna
        exact hsingle ⟨hh.trans htail.symm, hva⟩
      obtain ⟨hhead, n', hn', hrest⟩ := h.chain
      rw [hna] at hn'
      cases hn'
      rw [if_pos hhead]
      have hkept : ∀ b ∈ l₂, (Tlb.mk T.entries (Function.update T.nodes a none) n.next T.tail
          (T.length - 1) T.mallocs T.hits T.misses).entryAt b = T.entryAt b := fun b hb => by
        simp only [Tlb.entryAt, Function.update_of_ne (ne_of_mem_of_not_mem hb hnot)]
      exact ⟨_, l₂, rfl, h.without hna hva (hrest.update_of_notMem hnot _) (List.Sublist.refl _)
        hkept rfl rfl, rfl, ⟨hkept, .inr ⟨[], a, l₂, rfl, hvaAt, .inl ⟨htail, rfl, rfl⟩⟩⟩,
        fun hnone => absurd hvaAt (hnone a (by simp)), fun _ => rfl⟩
    -- The node has a predecessor `p`.
    rw [List.concat_eq_append] at h hnot ⊢
    have hchain : Chain T.nodes TlbNode.next T.head (l₁ ++ p :: a :: l₂) := by
      simpa using h.chain
    obtain ⟨pn, hp⟩ := hchain.exists_of_mem (a := p) (by simp)
    have hkey : ∀ (x : Option ℕ) (b : ℕ), b ≠ a →
        (Function.update (Function.update T.nodes p (some { pn with next := x })) a none b).map
          (fun n => (n.va, n.pa)) = T.entryAt b := by
      intro x b hba
      rw [Function.update_of_ne hba]
      by_cases hbp : b = p
      · simp [hbp, Tlb.entryAt, hp]
      · rw [Function.update_of_ne hbp, Tlb.entryAt]
    have hhead : T.head ≠ some a := by
      intro hha
      have := hchain.head?_eq
      rw [hha] at this
      rcases l₁ with _ | ⟨c, l₁⟩
      · exact hnot (by simp_all)
      · exact hnot (by simp_all)
    simp only [List.getLast?_concat, Option.bind_some, hp, if_neg hhead]
    split_ifs with htail
    · -- `tail` names it: the list is cut after `p`.
      have hcut : Chain (Function.update T.nodes p (some { pn with next := none })) TlbNode.next
          T.head (l₁ ++ [p]) := hchain.truncate rfl
      have hkept := fun b hb => hkey none b (ne_of_mem_of_not_mem (List.mem_append_left _ hb) hnot)
      exact ⟨_, l₁ ++ [p], rfl, h.without hna hva
        (hcut.update_of_notMem (fun hm => hnot (List.mem_append_left _ hm)) _)
        (List.sublist_append_left ..) hkept rfl rfl, rfl, ⟨hkept,
        .inr ⟨_, a, l₂, rfl, hvaAt, .inr ⟨htail, rfl, List.getLast?_concat.symm⟩⟩⟩,
        fun hnone => absurd hvaAt (hnone a (by simp)), fun _ => rfl⟩
    · have hcut : Chain (Function.update T.nodes p (some { pn with next := n.next })) TlbNode.next
          T.head (l₁ ++ p :: l₂) := hchain.unlink hna rfl
      rw [show l₁ ++ p :: l₂ = l₁ ++ [p] ++ l₂ by simp] at hcut
      have hkept := fun b hb => hkey n.next b (ne_of_mem_of_not_mem hb hnot)
      exact ⟨_, l₁ ++ [p] ++ l₂, rfl, h.without hna hva (hcut.update_of_notMem hnot _)
        (List.Sublist.refl _) hkept rfl rfl, rfl, ⟨hkept,
        .inr ⟨_, a, l₂, rfl, hvaAt, .inl ⟨htail, rfl, rfl⟩⟩⟩,
        fun hnone => absurd hvaAt (hnone a (by simp)), fun _ => rfl⟩

/-- The list after a deletion, whatever is left of it. -/
theorem deleteFromTlb_spec (h : TlbInv T P l) (va : ℕ) :
    ∃ T' l', deleteFromTlb T va = some T' ∧ TlbInv T' (fun v p => P v p ∧ v ≠ va) l' ∧
      T'.entries = T.entries := by
  obtain ⟨T', l', hdel, hinv, hent, -⟩ := deleteFromTlb_cut h va
  exact ⟨T', l', hdel, hinv, hent⟩

end UserOS.MyVm
