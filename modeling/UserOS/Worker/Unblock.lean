import UserOS.Worker.Effects

/-!
# The walk over the threads to release

`unblock_threads` follows the links of the nodes while it moves nodes from the waiting queue to the
end of the ready queue, and these are the same links. A released node may come up again at the end
of the walk, but each of them does so once.

* `Walkable`: the lists that the walk reads and changes end.
* `unblockLoop_returns`: then the walk ends.
-/

namespace UserOS.Worker

open Lib

variable {s s' : State} {a id fuel : ℕ} {p : Option ℕ} {l l' L W W' R : List ℕ}

/-- The threads of the nodes `l` exist. -/
def Peopled (s : State) (l : List ℕ) : Prop :=
  ∀ a ∈ l, ∀ id, tcbOf s.nodes a = some id → s.live id = true

/-- The waiting queue is a list `W` that ends, the ready queue holds a list `R`, no node is in both,
and their threads exist. -/
structure Walkable (s : State) (W R : List ℕ) : Prop where
  waiting : Chain s.nodes Node.next s.waitingQueue.head W
  ready : Holds s.nodes s.readyQueue R
  apart : ∀ a ∈ W, a ∉ R
  peopled : Peopled s (W ++ R)

theorem Peopled.live_of_mem (hl : Peopled s l) (ha : a ∈ l) :
    ∀ n, s.nodes a = some n → s.live n.tcb = true :=
  fun n hn => hl a ha n.tcb (by simp [tcbOf, hn])

/-- The threads stay there. -/
theorem Peopled.mono (hl : Peopled s l) (hsub : l' ⊆ l) (htcb : tcbOf s'.nodes = tcbOf s.nodes)
    (hlive : s'.live = s.live) : Peopled s' l' := by
  intro a ha id hid
  rw [hlive]
  exact hl a (hsub ha) id (by rw [← htcb, hid])

theorem findReadyThreads_returns (hw : Walkable s W R) (hf : R.length < fuel) :
    ∃ b, findReadyThreads fuel s id = some b := by
  obtain ⟨r, hr, -⟩ := findNode_returns id hw.ready.chain
    (fun a ha => hw.peopled.live_of_mem (List.mem_append_right _ ha)) hf
  exact ⟨_, by rw [findReadyThreads, hr]; rfl⟩

/-- A node that was taken from the waiting queue becomes ready. -/
theorem makeReady_returns (fuel : ℕ) (hw : Walkable s W R) (hn : s.nodes a = some ⟨id, none⟩)
    (hlive : s.live id = true) (haW : a ∉ W) (haR : a ∉ R) :
    ∃ s', makeReady fuel s a = some s' ∧ Walkable s' W (R ++ [a]) ∧
      tcbOf s'.nodes = tcbOf s.nodes ∧ s'.live = s.live ∧ ∀ p l, Chain s.nodes Node.next p l →
        ∃ l', Chain s'.nodes Node.next p l' ∧ l' ⊆ a :: l ∧ l'.length ≤ l.length + 1 := by
  obtain ⟨t, ht⟩ := Option.isSome_iff_exists.1 hlive
  obtain ⟨nodes, q, henq, hholds, hr⟩ := enqueue_spec fuel hw.ready haR hn
  let t' : Tcb := { t with status := .ready, waitingFor := -1 }
  have hlive' : (s.setTcb id t').live = s.live := by
    funext i
    by_cases hi : i = id
    · subst hi
      rw [hlive]
      simp [State.live, State.setTcb]
    · simp [State.live, State.setTcb, Function.update_of_ne hi]
  refine ⟨{ s.setTcb id t' with nodes := nodes, readyQueue := q }, ?_, ⟨?_, hholds, ?_, ?_⟩,
    tcbOf_enqueue henq, hlive', fun p l hl => enqueue_extends hw.ready haR hn henq hl⟩
  · simp only [makeReady, hn, ht, enqueueReady, State.setTcb, Option.bind_eq_bind,
      Option.bind_some, henq]
    rfl
  · exact hw.waiting.congr fun b hb => congrArg _ (hr.same b (hw.apart b hb))
  · intro b hb hmem
    rcases List.mem_append.1 hmem with hR | ha
    · exact hw.apart b hb hR
    · exact haW (List.mem_singleton.1 ha ▸ hb)
  · have hsame : Peopled s (W ++ (R ++ [a])) := by
      intro b hb i hi
      rw [← List.append_assoc] at hb
      rcases List.mem_append.1 hb with hb | ha
      · exact hw.peopled b hb i hi
      · rw [List.mem_singleton.1 ha] at hi
        simp only [tcbOf, hn, Option.map_some, Option.some.injEq] at hi
        exact hi ▸ hlive
    exact hsame.mono (fun _ hb => hb) (tcbOf_enqueue henq) hlive'

/-- **One turn of the walk.** It releases no thread and changes nothing, or it takes a node from the
waiting queue and appends it to the ready queue. -/
theorem deleteWaiting_returns (id : ℕ) (hw : Walkable s W R) (hf : W.length + R.length < fuel) :
    deleteWaiting fuel s id = some (s, none) ∨
    ∃ a s₁ s₂ W', deleteWaiting fuel s id = some (s₁, some a) ∧ makeReady fuel s₁ a = some s₂ ∧
      (∃ b, findReadyThreads fuel s₂ id = some b) ∧ Walkable s₂ W' (R ++ [a]) ∧
      W'.length < W.length ∧ ∀ p l, Chain s.nodes Node.next p l → Peopled s l →
        ∃ l', Chain s₂.nodes Node.next p l' ∧ Peopled s₂ l' ∧ l'.length ≤ l.length + 1 := by
  have hlive := fun a ha => hw.peopled.live_of_mem (a := a) (List.mem_append_left R ha)
  obtain heq | ⟨a, n, h', q', W', heq, haW, hn, hn', hr, hchain, hsub, hlen, hshort⟩ :=
    deleteFromQueue_returns s.live id hw.waiting hlive (by omega : W.length < fuel)
  · exact .inl (by rw [deleteWaiting, heq]; rfl)
  right
  have htcb : tcbOf h' = tcbOf s.nodes := funext hr.tcb
  have haW' : a ∉ W' := fun h => hw.waiting.nodup.not_mem_erase (hsub h)
  have hWW' : W' ⊆ W := fun b hb => List.mem_of_mem_erase (hsub hb)
  have hw₁ : Walkable { s with nodes := h', waitingQueue := q' } W' R := by
    refine ⟨hchain, hw.ready.relinked hr fun b hb hbW => hw.apart b hbW hb,
      fun b hb => hw.apart b (hWW' hb), hw.peopled.mono ?_ htcb rfl⟩
    exact List.append_subset.2 ⟨fun b hb => List.mem_append_left _ (hWW' hb),
      List.subset_append_right ..⟩
  have hid : s.live n.tcb = true := hlive a haW n hn
  obtain ⟨s₂, hready, hw₂, htcb₂, hlive₂, hext⟩ :=
    makeReady_returns fuel hw₁ hn' hid haW' (hw.apart a haW)
  refine ⟨a, _, s₂, W', by rw [deleteWaiting, heq]; rfl, hready,
    findReadyThreads_returns hw₂ ?_, hw₂, hlen, fun p l hl hpl => ?_⟩
  · simp only [List.length_append, List.length_singleton]
    omega
  · obtain ⟨l₁, hl₁, hsub₁, hlen₁⟩ := hshort p l hl
    obtain ⟨l₂, hl₂, hsub₂, hlen₂⟩ := hext p l₁ hl₁
    refine ⟨l₂, hl₂, fun b hb i hi => ?_, by omega⟩
    rw [htcb₂] at hi
    rw [hlive₂]
    change tcbOf h' b = some i at hi
    rw [htcb] at hi
    rcases List.mem_cons.1 (hsub₂ hb) with rfl | hb
    · exact hw.peopled b (List.mem_append_left _ haW) i hi
    · exact hpl b (hsub₁ hb) i hi

/-- **The walk ends.** The list ahead and the waiting queue together become shorter in each turn. -/
theorem unblockLoop_returns {n : ℕ} {released : List ℕ} (hw : Walkable s W R)
    (hL : Chain s.nodes Node.next p L) (hpeople : Peopled s L)
    (hf : W.length + R.length < fuel) (hn : L.length + W.length ≤ n) :
    ∃ r, unblockLoop fuel n s p released = some r := by
  induction n generalizing s p L W R released with
  | zero =>
    obtain rfl : L = [] := List.length_eq_zero_iff.1 (by omega)
    rw [Chain.nil_iff.1 hL]
    exact ⟨_, rfl⟩
  | succ n ih =>
    cases L with
    | nil =>
      rw [Chain.nil_iff.1 hL]
      exact ⟨_, rfl⟩
    | cons a L =>
      obtain ⟨rfl, node, hnode, hrest⟩ := hL
      rw [List.length_cons] at hn
      have hrestPeople : Peopled s L := fun b hb => hpeople b (List.mem_cons_of_mem _ hb)
      obtain ⟨t, ht⟩ := Option.isSome_iff_exists.1
        (hpeople.live_of_mem List.mem_cons_self node hnode)
      simp only [unblockLoop, hnode, ht, Option.bind_eq_bind, Option.bind_some]
      obtain hdel | ⟨c, s₁, s₂, W', hdel, hready, ⟨b, hfind⟩, hw', hlen, hkeep⟩ :=
        deleteWaiting_returns node.tcb hw hf
      · simp only [hdel, Option.bind_some]
        exact ih hw hrest hrestPeople hf (by omega)
      · obtain ⟨L', hL', hpeople', hlen'⟩ := hkeep node.next L hrest hrestPeople
        simp only [hdel, hready, hfind, Option.bind_some]
        refine ih hw' hL' hpeople' ?_ (by omega)
        simp only [List.length_append, List.length_singleton]
        omega

end UserOS.Worker
