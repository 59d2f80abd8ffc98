import Mathlib.Tactic.IntervalCases
import UserOS.Worker.Mlfq

/-!
# The priority boost

`boost_priority` empties the levels from 1 on, one node at a time, into the queue 0. Both lists use
the same link field.

* `Moved`: nodes of some levels are put at the end of the queue 0.
* `boostNode_spec`, `boostLevel_spec`: one turn of the loop for a level, and the loop.
* `boost_moves_all`: all levels.
-/

namespace UserOS.Worker.Mlfq

open Lib

/-! ## Levels -/

/-- The queue of each level holds a list of nodes of threads, and no node is in two queues. -/
structure Levels (s : State) (L : ℕ → List ℕ) : Prop where
  holds : ∀ i < mlfqLevels, Holds s.nodes (s.mlfqQueue i) (L i)
  apart : ∀ i < mlfqLevels, ∀ j < mlfqLevels, i ≠ j → ∀ a ∈ L i, a ∉ L j
  alive : ∀ i < mlfqLevels, ∀ a ∈ L i, ∃ id t, tcbOf s.nodes a = some id ∧ s.tcbs id = some t

/-- A control block with the priority 0. -/
def lowered (t : Tcb) : Tcb := { t with priority := 0 }

/-- From `s` to `s'` the nodes `l` of the levels `is` are put behind the nodes `l₀` of the queue 0,
and their threads get the priority 0. -/
structure Moved (s s' : State) (is l₀ l : List ℕ) : Prop where
  bottom : Holds s'.nodes (s'.mlfqQueue 0) (l₀ ++ l)
  other : ∀ j, j ≠ 0 → j ∉ is → s'.mlfqQueue j = s.mlfqQueue j
  relinked : Relinked s.nodes s'.nodes (l₀ ++ l)
  tcbs : ∀ id, s'.tcbs id =
    if some id ∈ l.map (tcbOf s.nodes) then (s.tcbs id).map lowered else s.tcbs id

variable {s s' s'' : State} {is js l l' l₀ : List ℕ} {i a fuel : ℕ} {L : ℕ → List ℕ}

theorem Moved.points (h : Moved s s' is l₀ l) : tcbOf s'.nodes = tcbOf s.nodes :=
  funext h.relinked.tcb

theorem Moved.nothing (h : Holds s.nodes (s.mlfqQueue 0) l₀) : Moved s s is l₀ [] where
  bottom := by simpa using h
  other _ _ _ := rfl
  relinked := .refl
  tcbs := by simp

theorem Moved.mono (h : Moved s s' is l₀ l) (hsub : is ⊆ js) : Moved s s' js l₀ l :=
  { h with other := fun j hj hnot => h.other j hj fun hmem => hnot (hsub hmem) }

/-- Nodes that are moved one after the other. -/
theorem Moved.append (h : Moved s s' is l₀ l) (h' : Moved s' s'' js (l₀ ++ l) l') :
    Moved s s'' (is ++ js) l₀ (l ++ l') where
  bottom := by simpa using h'.bottom
  other j hj hnot := by
    rw [List.mem_append, not_or] at hnot
    rw [h'.other j hj hnot.2, h.other j hj hnot.1]
  relinked := (h.relinked.trans h'.relinked).mono (by simp)
  tcbs id := by
    rw [h'.tcbs, h.tcbs, h.points, List.map_append]
    by_cases h1 : some id ∈ l.map (tcbOf s.nodes) <;> by_cases h2 : some id ∈ l'.map (tcbOf s.nodes)
    · simp only [h1, h2, if_true, List.mem_append, true_or, Option.map_map]
      rfl
    · simp only [h1, h2, if_true, if_false, List.mem_append, true_or]
    · simp only [h1, h2, if_true, if_false, List.mem_append, or_true]
    · simp only [h1, h2, if_false, List.mem_append, or_self]

/-- The threads of a list are there after a move. -/
theorem Moved.alive (h : Moved s s' is l₀ l)
    (ha : ∃ id t, tcbOf s.nodes a = some id ∧ s.tcbs id = some t) :
    ∃ id t, tcbOf s'.nodes a = some id ∧ s'.tcbs id = some t := by
  obtain ⟨id, t, hid, ht⟩ := ha
  rw [h.points]
  by_cases hmem : some id ∈ l.map (tcbOf s.nodes)
  · exact ⟨id, lowered t, hid, by rw [h.tcbs, if_pos hmem, ht]; rfl⟩
  · exact ⟨id, t, hid, by rw [h.tcbs, if_neg hmem, ht]⟩

/-! ## The loops -/

/-- One turn of the loop: the first node of the level goes to the end of the queue 0. -/
theorem boostNode_spec (fuel n : ℕ) (hi : i ≠ 0) (h₀ : Holds s.nodes (s.mlfqQueue 0) l₀)
    (hl : Holds s.nodes (s.mlfqQueue i) (a :: l)) (hapart : ∀ b ∈ a :: l, b ∉ l₀)
    (halive : ∃ id t, tcbOf s.nodes a = some id ∧ s.tcbs id = some t) :
    ∃ s₁, boostLevel fuel (n + 1) s i = boostLevel fuel n s₁ i ∧ Moved s s₁ [i] l₀ [a] ∧
      Holds s₁.nodes (s₁.mlfqQueue i) l := by
  obtain ⟨id, t, hid, ht⟩ := halive
  have hnd := (List.nodup_cons.1 hl.chain.nodup).1
  obtain ⟨h₁, q₁, node, hpop, hrest, hn, hcut, hrel₁⟩ := popFromQueue_spec hl
  obtain rfl : node.tcb = id := by
    rw [tcbOf, hn] at hid
    exact Option.some.inj hid
  have ha := hapart a List.mem_cons_self
  have h₀' : Holds h₁ (s.mlfqQueue 0) l₀ := h₀.relinked hrel₁ fun b hb hba =>
    ha (List.mem_singleton.1 hba ▸ hb)
  obtain ⟨h₂, q₂, henq, hholds, hrel₂⟩ := enqueue_spec fuel h₀' ha hcut
  have hpopLevel : popLevel s i = some ({ s with
      nodes := h₁, mlfqQueue := Function.update s.mlfqQueue i q₁ }, some a) := by
    rw [popLevel, hpop]
    rfl
  have henqLevel : enqueueLevel fuel { s with
      nodes := h₁, mlfqQueue := Function.update s.mlfqQueue i q₁ } 0 a = some { s with
        nodes := h₂
        mlfqQueue := Function.update (Function.update s.mlfqQueue i q₁) 0 q₂ } := by
    rw [enqueueLevel, if_pos (by decide)]
    dsimp only
    rw [Function.update_of_ne hi.symm, henq]
    rfl
  have hnode : h₂ a = some { node with next := none } := (hrel₂.same a ha).trans hcut
  refine ⟨State.setTcb { s with
    nodes := h₂
    mlfqQueue := Function.update (Function.update s.mlfqQueue i q₁) 0 q₂ } node.tcb (lowered t),
    ?_, ⟨?_, ?_, ?_, ?_⟩, ?_⟩
  · rw [boostLevel, hpopLevel]
    simp only [Option.bind_eq_bind, Option.bind_some, henqLevel, hnode, ht]
    rfl
  · simpa [State.setTcb] using hholds
  · intro j hj hji
    rw [List.mem_singleton] at hji
    change Function.update (Function.update s.mlfqQueue i q₁) 0 q₂ j = _
    rw [Function.update_of_ne hj, Function.update_of_ne hji]
  · exact (hrel₁.trans hrel₂).mono (by simp)
  · intro id
    rw [List.map_singleton, hid]
    by_cases heq : id = node.tcb
    · subst heq
      rw [if_pos (List.mem_singleton_self _), ht]
      exact Function.update_self ..
    · rw [if_neg fun hmem => heq (Option.some.inj (List.mem_singleton.1 hmem))]
      exact Function.update_of_ne heq _ _
  · change Holds h₂ (Function.update (Function.update s.mlfqQueue i q₁) 0 q₂ i) l
    rw [Function.update_of_ne hi, Function.update_self]
    exact hrest.relinked hrel₂ fun b hb => hapart b (List.mem_cons_of_mem _ hb)

/-- **One level** is emptied. -/
theorem boostLevel_spec (fuel : ℕ) (hi : i ≠ 0) : ∀ {l l₀ : List ℕ} {s : State} {n : ℕ},
    l.length < n → Holds s.nodes (s.mlfqQueue 0) l₀ → Holds s.nodes (s.mlfqQueue i) l →
    (∀ b ∈ l, b ∉ l₀) → (∀ a ∈ l, ∃ id t, tcbOf s.nodes a = some id ∧ s.tcbs id = some t) →
    ∃ s', boostLevel fuel n s i = some s' ∧ Moved s s' [i] l₀ l ∧ s'.mlfqQueue i = .empty := by
  intro l
  induction l with
  | nil =>
    intro l₀ s n hn h₀ hl _ _
    have hempty : s.mlfqQueue i = .empty := hl.eq
    obtain ⟨n, rfl⟩ : ∃ m, n = m + 1 := ⟨n - 1, by simp at hn; omega⟩
    refine ⟨s, ?_, .nothing h₀, hempty⟩
    rw [boostLevel, popLevel, popFromQueue_nil hl.head]
    simp
  | cons a l ih =>
    intro l₀ s n hn h₀ hl hapart halive
    obtain ⟨n, rfl⟩ : ∃ m, n = m + 1 := ⟨n - 1, by simp at hn; omega⟩
    obtain ⟨s₁, hturn, hmoved, hrest⟩ :=
      boostNode_spec fuel n hi h₀ hl hapart (halive a List.mem_cons_self)
    have hnd := (List.nodup_cons.1 hl.chain.nodup).1
    obtain ⟨s', hloop, hmoved', hempty⟩ := ih (by simpa using hn) hmoved.bottom hrest
      (fun b hb hmem => by
        rcases List.mem_append.1 hmem with hmem | hmem
        · exact hapart b (List.mem_cons_of_mem _ hb) hmem
        · exact hnd (List.mem_singleton.1 hmem ▸ hb))
      fun b hb => hmoved.alive (halive b (List.mem_cons_of_mem _ hb))
    exact ⟨s', hturn.trans hloop, (hmoved.append hmoved').mono (by simp), hempty⟩

/-- The levels of a list are emptied in order. -/
theorem boostLevels_spec (fuel : ℕ) : ∀ (is l₀ : List ℕ) (s : State), is.Nodup →
    (∀ i ∈ is, i ≠ 0) → Holds s.nodes (s.mlfqQueue 0) l₀ →
    (∀ i ∈ is, Holds s.nodes (s.mlfqQueue i) (L i) ∧ (L i).length < fuel ∧ (∀ b ∈ L i, b ∉ l₀) ∧
      (∀ a ∈ L i, ∃ id t, tcbOf s.nodes a = some id ∧ s.tcbs id = some t) ∧
      ∀ j ∈ is, i ≠ j → ∀ a ∈ L i, a ∉ L j) →
    ∃ s', is.foldlM (boostLevel fuel fuel) s = some s' ∧ Moved s s' is l₀ (is.flatMap L) ∧
      ∀ i ∈ is, s'.mlfqQueue i = .empty := by
  intro is
  induction is with
  | nil =>
    intro l₀ s _ _ h₀ _
    exact ⟨s, rfl, .nothing h₀, by simp⟩
  | cons i is ih =>
    intro l₀ s hnd hpos h₀ hL
    obtain ⟨hl, hlen, hapart, halive, hother⟩ := hL i List.mem_cons_self
    have hi := hpos i List.mem_cons_self
    obtain ⟨hnot, hnd⟩ := List.nodup_cons.1 hnd
    obtain ⟨s₁, hlevel, hmoved, hempty⟩ := boostLevel_spec fuel hi hlen h₀ hl hapart halive
    obtain ⟨s', hrest, hmoved', hempty'⟩ := ih (l₀ ++ L i) s₁ hnd
      (fun j hj => hpos j (List.mem_cons_of_mem _ hj)) hmoved.bottom fun j hj => by
        obtain ⟨hl', hlen', hapart', halive', hother'⟩ := hL j (List.mem_cons_of_mem _ hj)
        have hji : j ≠ i := fun heq => hnot (heq ▸ hj)
        have hout : ∀ b ∈ L j, b ∉ l₀ ++ L i := fun b hb hmem =>
          (List.mem_append.1 hmem).elim (hapart' b hb) (hother' i List.mem_cons_self hji b hb)
        refine ⟨?_, hlen', hout, fun a ha => hmoved.alive (halive' a ha),
          fun k hk => hother' k (List.mem_cons_of_mem _ hk)⟩
        rw [hmoved.other j (hpos j (List.mem_cons_of_mem _ hj)) (by simpa using hji)]
        exact hl'.relinked hmoved.relinked hout
    refine ⟨s', ?_, hmoved.append hmoved', fun j hj => ?_⟩
    · rw [List.foldlM_cons, hlevel]
      exact hrest
    · by_cases hji : j ∈ is
      · exact hempty' j hji
      · obtain rfl := (List.mem_cons.1 hj).resolve_right hji
        rw [hmoved'.other j hi hji, hempty]

/-! ## The boost -/

/-- The levels after a boost. -/
structure Boosted (s s' : State) (L : ℕ → List ℕ) : Prop where
  bottom : Holds s'.nodes (s'.mlfqQueue 0) (L 0 ++ L 1 ++ L 2 ++ L 3)
  above : ∀ i < mlfqLevels, i ≠ 0 → s'.mlfqQueue i = ⟨none, none⟩
  priority : ∀ i < mlfqLevels, i ≠ 0 → ∀ a ∈ L i, ∃ id t,
    tcbOf s'.nodes a = some id ∧ s'.tcbs id = some t ∧ t.priority = 0
  points : tcbOf s'.nodes = tcbOf s.nodes
  kept : ∀ id, some id ∉ (L 1 ++ L 2 ++ L 3).map (tcbOf s.nodes) → s'.tcbs id = s.tcbs id

/-- **The boost** moves everyone and loses no one: the queue 0 holds the nodes of all levels in
order, the other queues are empty, and the loops end. -/
theorem boost_moves_all (h : Levels s L) (hfuel : ∀ i < mlfqLevels, (L i).length < fuel) :
    ∃ s', boostPriority fuel s = some s' ∧ Boosted s s' L := by
  have hlevels : List.range' 1 (mlfqLevels - 1) = [1, 2, 3] := rfl
  have hlt : ∀ i ∈ [1, 2, 3], i < mlfqLevels ∧ i ≠ 0 := by decide
  obtain ⟨s', hboost, hmoved, hempty⟩ := boostLevels_spec fuel [1, 2, 3] _ _ (by decide)
    (fun i hi => (hlt i hi).2) (h.holds 0 (by decide)) fun i hi =>
      ⟨h.holds i (hlt i hi).1, hfuel i (hlt i hi).1,
        h.apart i (hlt i hi).1 0 (by decide) (hlt i hi).2, h.alive i (hlt i hi).1,
        fun j hj => h.apart i (hlt i hi).1 j (hlt j hj).1⟩
  have hflat : [1, 2, 3].flatMap L = L 1 ++ L 2 ++ L 3 := by simp
  have hmem : ∀ i < mlfqLevels, i ≠ 0 → i ∈ [1, 2, 3] := by decide
  refine ⟨s', by rw [boostPriority, hlevels, hboost], ?_, fun i hi hpos => ?_,
    fun i hi hpos a ha => ?_, hmoved.points, fun id hid => ?_⟩
  · have hbottom := hmoved.bottom
    rw [hflat] at hbottom
    simpa using hbottom
  · exact hempty i (hmem i hi hpos)
  · obtain ⟨id, t, hid, ht⟩ := h.alive i hi a ha
    refine ⟨id, lowered t, by rw [hmoved.points, hid], ?_, rfl⟩
    rw [hmoved.tcbs, if_pos, ht]
    · rfl
    · rw [← hid]
      exact List.mem_map_of_mem (List.mem_flatMap.2 ⟨i, hmem i hi hpos, ha⟩)
  · rw [hmoved.tcbs, hflat, if_neg hid]

/-- Two nodes of the threads 11 and 12 on the levels 0 and 2. -/
def twoLevels : State := { State.start with
  nodes := fun a => if a = 1 ∨ a = 2 then some ⟨a + 10, none⟩ else none
  mlfqQueue := fun i => if i = 0 then ⟨some 1, some 1⟩ else if i = 2 then ⟨some 2, some 2⟩
    else .empty
  tcbs := fun id => if id = 11 ∨ id = 12 then some { Tcb.new .ready false with priority := 2 }
    else none }

theorem twoLevels_levels :
    Levels twoLevels fun i => if i = 0 then [1] else if i = 2 then [2] else [] where
  holds := by
    intro i hi
    unfold mlfqLevels at hi
    interval_cases i
    · exact ⟨⟨rfl, _, rfl, rfl⟩, rfl⟩
    · exact ⟨rfl, rfl⟩
    · exact ⟨⟨rfl, _, rfl, rfl⟩, rfl⟩
    · exact ⟨rfl, rfl⟩
  apart := by
    intro i _ j _ hij a ha hb
    split_ifs at ha hb <;> simp_all
  alive := by
    intro i hi a ha
    unfold mlfqLevels at hi
    interval_cases i
    · obtain rfl := List.mem_singleton.1 ha
      exact ⟨11, _, rfl, rfl⟩
    · cases ha
    · obtain rfl := List.mem_singleton.1 ha
      exact ⟨12, _, rfl, rfl⟩
    · cases ha

/-- The thread of the level 2 follows that of the level 0. -/
theorem boost_moves_all_two : ∃ s', boostPriority 2 twoLevels = some s' ∧
    Holds s'.nodes (s'.mlfqQueue 0) [1, 2] ∧ s'.mlfqQueue 2 = ⟨none, none⟩ := by
  obtain ⟨s', hboost, hboosted⟩ := @boost_moves_all _ 2 _ twoLevels_levels (by decide)
  exact ⟨s', hboost, hboosted.bottom, hboosted.above 2 (by decide) (by decide)⟩

end UserOS.Worker.Mlfq
