import UserOS.Lib.Run
import UserOS.MyVm.Tlb

/-!
# The list of the TLB over runs

`length` counts the nodes, and `tail` is the last of them, as long as no lookup hits the last node
of two or more: `arrange` moves that node to the front and leaves `tail` on it. From then on
`delete_from_tlb` takes the first node for the only one.

* `TlbCall`: the calls, with every `add_TLB` after a miss of its address.
* `Exact.step`, `Exact.step_ok`: a call keeps the list exact when it is not such a hit, and only
  then.
* `tlb_list_exact`: the list over every run.
-/

namespace UserOS.MyVm

open Lib

/-- The calls. -/
inductive TlbCall
  | check (va : ℕ)
  | add (va pa : ℕ)
  | delete (va : ℕ)
  deriving DecidableEq, Repr

/-- One call. `add_TLB` is called for an address that `check_TLB` has just missed. -/
inductive TlbCall.Step (μ : Malloc TlbNode) : Tlb → TlbCall → Tlb → Prop
  | check {T T' : Tlb} {va : ℕ} {pa : Option ℕ} :
    checkTlb T va = some (T', pa) → Step μ T (.check va) T'
  | add {T T₁ T' : Tlb} {va pa : ℕ} :
    checkTlb T va = some (T₁, none) → addTlb μ T₁ va pa = some T' → Step μ T (.add va pa) T'
  | delete {T T' : Tlb} {va : ℕ} :
    deleteFromTlb T va = some T' → Step μ T (.delete va) T'

/-- `length` counts the nodes that are reached from `head`, and `tail` is the last of them. -/
def WellFormed (T : Tlb) : Prop :=
  ∃ l, Chain T.nodes TlbNode.next T.head l ∧ T.length = l.length ∧ T.tail = l.getLast?

/-- The TLB holds the translation of `va` to `pa`. -/
def Tlb.Holds (T : Tlb) (va pa : ℕ) : Prop :=
  ∃ l, Chain T.nodes TlbNode.next T.head l ∧ ∃ a ∈ l, T.entryAt a = some (va, pa)

/-- `delete_from_tlb` removes the entry of `va` and no other. -/
def DeletesOnly (T : Tlb) (va : ℕ) : Prop :=
  ∃ T', deleteFromTlb T va = some T' ∧ ∀ v pa, T'.Holds v pa ↔ T.Holds v pa ∧ v ≠ va

/-- The node of `va` is the last of two or more. -/
def HitsLast (T : Tlb) (va : ℕ) : Prop :=
  ∃ l a, l ≠ [] ∧ Chain T.nodes TlbNode.next T.head (l ++ [a]) ∧ T.vaAt a = some va

/-- The call is not a lookup that hits the last of two or more nodes. -/
def TlbCall.Ok (T : Tlb) : TlbCall → Prop
  | .check va => ¬HitsLast T va
  | _ => True

variable {μ : Malloc TlbNode} {T T' : Tlb} {P : ℕ → ℕ → Prop} {l l' : List ℕ} {a va pa : ℕ}

/-! ## The exact list -/

/-- The list read from `head` is `l`, with the right `length` and `tail`. -/
structure Exact (T : Tlb) (l : List ℕ) : Prop where
  inv : TlbInv T (fun _ _ => True) l
  length : T.length = l.length
  tail : T.tail = l.getLast?
  capacity : 2 ≤ T.entries

theorem Tlb.holds_iff (h : Chain T.nodes TlbNode.next T.head l) :
    T.Holds va pa ↔ ∃ a ∈ l, T.entryAt a = some (va, pa) := by
  constructor
  · rintro ⟨l', h', hex⟩
    rwa [h.unique h']
  · exact fun hex => ⟨l, h, hex⟩

namespace Exact

theorem wellFormed (h : Exact T l) : WellFormed T := ⟨l, h.inv.chain, h.length, h.tail⟩

theorem empty : Exact Tlb.empty [] where
  inv := ⟨rfl, by simp, by simp, by decide, by decide, fun _ => by decide⟩
  length := rfl
  tail := rfl
  capacity := by decide

/-- A lookup moves a node that is not the last. -/
theorem arranged (h : Exact T l) (ha : a ∈ l) (hlast : ∀ l₁, l₁ ≠ [] → l ≠ l₁ ++ [a])
    (hinv : TlbInv T' (fun _ _ => True) l') (hmoved : Arranged T T' a l l') : Exact T' l' where
  inv := hinv
  length := by rw [hmoved.length, (hmoved.perm ha).length_eq, h.length]
  tail := by
    rw [hmoved.tail, h.tail]
    rcases hmoved.order with ⟨-, rfl⟩ | ⟨-, rfl⟩
    · rfl
    obtain ⟨l₁, l₂, rfl⟩ := List.append_of_mem ha
    rw [List.erase_append_right _ h.inv.chain.notMem_before, List.erase_cons_head]
    rcases List.eq_nil_or_concat l₂ with rfl | ⟨l₂, b, rfl⟩
    · have hl₁ : l₁ = [] := by
        by_contra hne
        exact hlast l₁ hne rfl
      simp [hl₁]
    · have hbefore : l₁ ++ a :: l₂.concat b = l₁ ++ a :: l₂ ++ [b] := by simp
      have hafter : a :: (l₁ ++ l₂.concat b) = a :: (l₁ ++ l₂) ++ [b] := by simp
      rw [hbefore, hafter, List.getLast?_concat, List.getLast?_concat]
  capacity := hmoved.entries ▸ h.capacity

theorem inserted (h : Exact T l) (hinv : TlbInv T' (fun _ _ => True) l')
    (hins : Inserted μ T T' va pa l l') : Exact T' l' := by
  have hlen := h.length
  have hcap := h.capacity
  have htail := h.tail
  refine ⟨hinv, ?_, ?_, hins.entries ▸ hcap⟩
  · rcases hins.cases with ⟨-, rfl, -, hl⟩ | ⟨a, -, -, ⟨rfl, rfl, -, hl⟩ | ⟨hne, -, hroom⟩⟩
    · rw [hl, hlen]
    · rw [hl, hlen]
      rfl
    · rcases hroom with ⟨-, rfl, hl⟩ | ⟨-, rfl, hl⟩
      · rw [hl, hlen, List.length_cons, Nat.cast_succ]
      · rw [hl, hlen, List.length_cons, List.length_tail,
          Nat.sub_add_cancel (List.length_pos_iff.2 hne)]
  · rcases hins.cases with ⟨-, rfl, ht, -⟩ | ⟨a, -, -, ⟨rfl, rfl, ht, -⟩ | ⟨hne, ht, hroom⟩⟩
    · rw [ht, htail]
    · rw [ht]
      rfl
    · obtain ⟨b, l₀, rfl⟩ := List.exists_cons_of_ne_nil hne
      rcases hroom with ⟨-, rfl, -⟩ | ⟨hfull, rfl, -⟩
      · rw [ht, htail, List.getLast?_cons_cons]
      · -- At capacity another node is left behind the first.
        rw [hlen, List.length_cons] at hfull
        obtain ⟨c, l₁, rfl⟩ : ∃ c l₁, l₀ = c :: l₁ :=
          List.exists_cons_of_ne_nil fun hnil => by
            rw [hnil, List.length_nil] at hfull
            omega
        rw [ht, htail]
        simp

/-- A deletion takes out the node of the address, if there is one. -/
theorem deleteFromTlb (h : Exact T l) (va : ℕ) :
    ∃ T' l', MyVm.deleteFromTlb T va = some T' ∧ Exact T' l' ∧
      ∀ v pa, T'.Holds v pa ↔ T.Holds v pa ∧ v ≠ va := by
  obtain ⟨T', l', hcall, hinv, hent, hdel, hsame, hlen⟩ := deleteFromTlb_cut h.inv va
  refine ⟨T', l', hcall, ?_⟩
  have hgone : ∀ b ∈ l', ∀ v pa, T'.entryAt b = some (v, pa) → v ≠ va := fun b hb v pa hbv => by
    obtain ⟨m, hm, hmv⟩ := Option.map_eq_some_iff.1 hbv
    obtain ⟨rfl, -⟩ := Prod.mk.inj hmv
    exact (hinv.holds b hb m hm).2
  have hinv' : TlbInv T' (fun _ _ => True) l' := hinv.mono fun _ _ _ => trivial
  rcases hdel.cases with ⟨hnone, rfl, -⟩ | ⟨l₁, a, l₂, rfl, hva, hcut⟩
  · obtain rfl := hsame hnone
    refine ⟨h, fun v pa => ⟨fun hv => ⟨hv, ?_⟩, And.left⟩⟩
    obtain ⟨b, hb, hbv⟩ := (Tlb.holds_iff hinv.chain).1 hv
    exact hgone b hb v pa hbv
  · have hlen' := hlen ⟨a, by simp, hva⟩
    have hlast := h.tail
    have hnd := h.inv.chain.nodup
    -- `tail` is right, so that no other node goes.
    obtain ⟨rfl, htail⟩ : l' = l₁ ++ l₂ ∧ T'.tail = (l₁ ++ l₂).getLast? := by
      rcases List.eq_nil_or_concat l₂ with rfl | ⟨l₂, b, rfl⟩
      · rcases hcut with ⟨hne, -, -⟩ | ⟨-, rfl, ht⟩
        · exact absurd (hlast.trans List.getLast?_concat) hne
        · exact ⟨(List.append_nil _).symm, by rw [ht, List.append_nil]⟩
      · have hbefore : l₁ ++ a :: l₂.concat b = l₁ ++ a :: l₂ ++ [b] := by simp
        have hafter : l₁ ++ l₂.concat b = l₁ ++ l₂ ++ [b] := by simp
        rw [hbefore, List.getLast?_concat] at hlast
        rcases hcut with ⟨-, rfl, ht⟩ | ⟨heq, -, -⟩
        · exact ⟨rfl, by rw [ht, hlast, hafter, List.getLast?_concat]⟩
        · rw [hlast, Option.some.injEq] at heq
          have hrest := (List.nodup_cons.1 (List.nodup_append.1 hnd).2.1).1
          exact absurd (by simp [heq]) hrest
    refine ⟨⟨hinv', ?_, htail, hent ▸ h.capacity⟩, fun v pa => ?_⟩
    · rw [hlen', h.length]
      simp only [List.length_append, List.length_cons]
      omega
    · rw [Tlb.holds_iff hinv.chain, Tlb.holds_iff h.inv.chain]
      constructor
      · rintro ⟨b, hb, hbv⟩
        refine ⟨⟨b, ?_, by rw [← hdel.kept b hb]; exact hbv⟩, hgone b hb v pa hbv⟩
        rcases List.mem_append.1 hb with hb | hb
        · exact List.mem_append_left _ hb
        · exact List.mem_append_right _ (List.mem_cons_of_mem _ hb)
      · rintro ⟨⟨b, hb, hbv⟩, hne⟩
        have hba : b ≠ a := by
          rintro rfl
          obtain ⟨m, hm, hmv⟩ := Option.map_eq_some_iff.1 hbv
          rw [Tlb.vaAt, hm, Option.map_some, Option.some.injEq] at hva
          exact hne ((congrArg Prod.fst hmv).symm.trans hva)
        have hb' : b ∈ l₁ ++ l₂ := by
          simp only [List.mem_append, List.mem_cons] at hb ⊢
          tauto
        exact ⟨b, hb', by rw [hdel.kept b hb']; exact hbv⟩

end Exact

/-! ## Runs -/

theorem Exact.step {call : TlbCall} (h : Exact T l)
    (hstep : Guarded TlbCall.Ok (TlbCall.Step μ) T call T') : ∃ l', Exact T' l' := by
  obtain ⟨hok, hstep⟩ := hstep
  cases hstep with
  | @check _ va _ hcheck =>
    rcases checkTlb_cases h.inv va with ⟨a, ha, n, T₁, l', hn, hva, hcall, hinv, hmoved⟩ |
      ⟨-, hcall⟩
    · rw [hcheck, Option.some.injEq, Prod.mk.injEq] at hcall
      obtain ⟨rfl, -⟩ := hcall
      refine ⟨l', h.arranged ha (fun l₁ hne hl => hok ⟨l₁, a, hne, hl ▸ h.inv.chain, ?_⟩) hinv
        hmoved⟩
      rw [Tlb.vaAt, hn, Option.map_some, hva]
    · rw [hcheck, Option.some.injEq, Prod.mk.injEq] at hcall
      obtain ⟨rfl, -⟩ := hcall
      exact ⟨l, { h with inv := { h.inv with } }⟩
  | @add T₁ _ va pa hcheck hadd =>
    rcases checkTlb_cases h.inv va with ⟨a, ha, n, T₂, l', hn, hva, hcall, hinv, hmoved⟩ |
      ⟨hne, hcall⟩
    · rw [hcheck] at hcall
      simp at hcall
    · rw [hcheck, Option.some.injEq, Prod.mk.injEq] at hcall
      obtain ⟨rfl, -⟩ := hcall
      have hmiss : Exact { T with misses := T.misses + 1 } l := { h with inv := { h.inv with } }
      obtain ⟨T₂, l', hadd', hinv, hins⟩ :=
        @addTlb_cases _ _ _ _ pa μ (hmiss.inv.holds_ne hne) trivial
      rw [hadd, Option.some.injEq] at hadd'
      obtain rfl := hadd'
      exact ⟨l', hmiss.inserted hinv hins⟩
  | @delete _ va hdel =>
    obtain ⟨T₁, l', hcall, hexact, -⟩ := h.deleteFromTlb va
    rw [hdel, Option.some.injEq] at hcall
    exact ⟨l', hcall ▸ hexact⟩

/-- The list after a lookup that hits the last of two or more nodes: `tail` is the first. -/
theorem Exact.not_wellFormed {l₁ : List ℕ} (h : Exact T (l₁ ++ [a])) (hne : l₁ ≠ [])
    (hinv : TlbInv T' (fun _ _ => True) l') (hmoved : Arranged T T' a (l₁ ++ [a]) l') :
    ¬ WellFormed T' := by
  rintro ⟨l₂, hchain, -, htail⟩
  obtain rfl := hinv.chain.unique hchain
  have hnd := h.inv.chain.nodup
  have ha : a ∉ l₁ := h.inv.chain.notMem_before
  rw [hmoved.tail, h.tail, List.getLast?_concat] at htail
  obtain ⟨l₃, b, rfl⟩ : ∃ l₃ b, l₁ = l₃ ++ [b] :=
    ⟨l₁.dropLast, l₁.getLast hne, (List.dropLast_concat_getLast hne).symm⟩
  have hab : a ≠ b := fun hab => ha (by simp [hab])
  rcases hmoved.order with ⟨heq, rfl⟩ | ⟨-, rfl⟩
  · -- `head` and `tail` are not the same.
    rw [h.tail, List.getLast?_concat, h.inv.chain.head?_eq] at heq
    rcases l₃ with _ | ⟨c, l₃⟩
    · exact hab (by simpa using heq.symm)
    · have hca : c = a := by simpa using heq
      exact ha (by simp [hca])
  · rw [List.erase_append_right _ ha, List.erase_cons_head, List.append_nil,
      ← List.cons_append, List.getLast?_concat, Option.some.injEq] at htail
    exact hab htail

theorem Exact.step_ok {call : TlbCall} (h : Exact T l) (hstep : TlbCall.Step μ T call T')
    (hwell : WellFormed T') : call.Ok T := by
  cases hstep with
  | @check _ va _ hcheck =>
    rintro ⟨l₁, a, hne, hchain, hva⟩
    obtain rfl := h.inv.chain.unique hchain
    rcases checkTlb_cases h.inv va with ⟨b, hb, n, T₁, l', hn, hvb, hcall, hinv, hmoved⟩ |
      ⟨hnone, -⟩
    · rw [hcheck, Option.some.injEq, Prod.mk.injEq] at hcall
      obtain ⟨rfl, -⟩ := hcall
      obtain ⟨m, hm, hmva⟩ := Option.map_eq_some_iff.1 hva
      obtain rfl : b = a := h.inv.eq_of_va hb (by simp) hn hm (hvb.trans hmva.symm)
      exact h.not_wellFormed hne hinv hmoved hwell
    · obtain ⟨m, hm, hmva⟩ := Option.map_eq_some_iff.1 hva
      exact hnone a (by simp) m hm hmva
  | add => trivial
  | delete => trivial

/-- `length` and `tail` are those of the list, and a deletion takes out one entry only. -/
def TlbSound (T : Tlb) : Prop := WellFormed T ∧ ∀ va, DeletesOnly T va

/-- **The list of the TLB.** It is sound in every state reached from an empty TLB without a lookup
that hits the last of two or more nodes; and a run that passes through sound states only has no
such lookup. -/
theorem tlb_list_exact {calls : List TlbCall} (μ : Malloc TlbNode) (T : Tlb) :
    (Run (Guarded TlbCall.Ok (TlbCall.Step μ)) Tlb.empty calls T → TlbSound T) ∧
    (Run (Reaching TlbSound (TlbCall.Step μ)) Tlb.empty calls T →
      Run (Guarded TlbCall.Ok (TlbCall.Step μ)) Tlb.empty calls T) := by
  have hkeep : ∀ (T : Tlb) call T', (∃ l, Exact T l) → call.Ok T → TlbCall.Step μ T call T' →
      ∃ l, Exact T' l := by
    rintro T call T' ⟨l, h⟩ hok hstep
    exact h.step ⟨hok, hstep⟩
  constructor
  · intro hrun
    obtain ⟨l, h⟩ := hrun.invariant (I := fun T => ∃ l, Exact T l) ⟨[], .empty⟩
      fun T call T' hI hs => hkeep T call T' hI hs.1 hs.2
    refine ⟨h.wellFormed, fun va => ?_⟩
    obtain ⟨T', -, hcall, -, hholds⟩ := h.deleteFromTlb va
    exact ⟨T', hcall, hholds⟩
  · refine Run.guarded_of_reaching (I := fun T => ∃ l, Exact T l) ⟨[], .empty⟩ hkeep ?_
    rintro T call T' ⟨l, h⟩ hstep ⟨hwell, -⟩
    exact h.step_ok hstep hwell

/-- Two insertions, and a deletion of the last node. -/
theorem tlb_list_exact_two : ∃ T, Run (Guarded TlbCall.Ok (TlbCall.Step (.bump _))) Tlb.empty
    [.add 0 4096, .add 65536 69632, .delete 0] T ∧ TlbSound T := by
  obtain ⟨T, hrun⟩ : ∃ T, Run (Guarded TlbCall.Ok (TlbCall.Step (.bump _))) Tlb.empty
      [.add 0 4096, .add 65536 69632, .delete 0] T :=
    ⟨_, ((Run.single ⟨trivial, .add rfl rfl⟩).append (.single ⟨trivial, .add rfl rfl⟩)).append
      (.single ⟨trivial, .delete rfl⟩)⟩
  exact ⟨T, hrun, (tlb_list_exact (.bump _) T).1 hrun⟩

/-- **The defect.** A lookup of the last of two entries leaves `tail` on the first, and the
deletion of that entry drops the other one. -/
theorem lookup_of_last_loses_entry :
    ¬∀ calls T, Run (TlbCall.Step (.bump _)) Tlb.empty calls T → TlbSound T := by
  intro hall
  obtain ⟨T, hrun, hhead, htail, h1, h2, hdel⟩ : ∃ T, Run (TlbCall.Step (.bump _)) Tlb.empty
      [.add 0 4096, .add 65536 69632, .check 0] T ∧ T.head = some 1 ∧ T.tail = some 1 ∧
      T.nodes 1 = some ⟨0, 4096, some 2⟩ ∧ T.nodes 2 = some ⟨65536, 69632, none⟩ ∧
      (deleteFromTlb T 0).any fun T' => T'.head = none :=
    ⟨_, ((Run.single (.add rfl rfl)).append (.single (.add rfl rfl))).append
      (.single (.check rfl)), rfl, rfl, rfl, rfl, rfl⟩
  have hchain : Chain T.nodes TlbNode.next T.head [1, 2] :=
    ⟨hhead, _, h1, rfl, _, h2, rfl⟩
  obtain ⟨-, hdeletes⟩ := hall _ T hrun
  obtain ⟨T', hcall, hholds⟩ := hdeletes 0
  rw [hcall, Option.any_some, decide_eq_true_eq] at hdel
  have hheld : T.Holds 65536 69632 := ⟨_, hchain, 2, by simp, by simp [Tlb.entryAt, h2]⟩
  obtain ⟨l, hl, a, ha, -⟩ := (hholds 65536 69632).2 ⟨hheld, by decide⟩
  rw [hl.eq_nil_iff.2 hdel] at ha
  cases ha

end UserOS.MyVm
