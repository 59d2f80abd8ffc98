import UserOS.Worker.Effects

/-!
# The nodes of the threads

`Queues s X R W` says that the ready queue holds the nodes `R`, the waiting queue holds the nodes
`W`, and with the nodes `X` in hand there is one node for each thread. Each operation on the queues
moves nodes between the three lists.

* `Queues.enqueueReady`, `Queues.enqueueWaiting`, `Queues.pop`: the moves that always work.
* `Queues.deleteWaiting`: a thread leaves the waiting queue, unless it is the first of several.
-/

namespace UserOS.Worker

open Lib

/-! ## One node for each thread -/

/-- The nodes of `L` stand for different threads, those of `live`, and no other node exists. -/
structure Population (tcbOf : ℕ → Option ℕ) (live : ℕ → Bool) (L : List ℕ) : Prop where
  nodup : L.Nodup
  ids : (L.map tcbOf).Nodup
  alloc : ∀ a, tcbOf a ≠ none ↔ a ∈ L
  live : ∀ id, live id = true ↔ ∃ a ∈ L, tcbOf a = some id

/-- The status of the thread of a node. -/
def statusAt (s : State) (a : ℕ) : Option Status := do
  let id ← tcbOf s.nodes a
  let t ← s.tcbs id
  some t.status

/-- The ready queue holds `R` and the waiting queue `W`, and the nodes of `X` are in no queue. -/
structure Queues (s : State) (X R W : List ℕ) : Prop where
  ready : Holds s.nodes s.readyQueue R
  waiting : Holds s.nodes s.waitingQueue W
  people : Population (tcbOf s.nodes) s.live (X ++ (R ++ W))
  hand : ∀ a ∈ X, (s.nodes a).bind Node.next = none
  isReady : ∀ a ∈ R, statusAt s a = some .ready
  isBlocked : ∀ a ∈ W, statusAt s a = some .blocked
  bound : ∀ id, s.live id = true → id < s.threadCount

variable {μ : Malloc Node} {s s' : State} {X R W W₁ W₂ L L' : List ℕ} {a b id : ℕ} {t : Tcb}
  {fuel : ℕ} {h' : Nodes} {q : Queue}

theorem Population.perm {ids : ℕ → Option ℕ} {live : ℕ → Bool} (hp : Population ids live L)
    (hl : L.Perm L') : Population ids live L' where
  nodup := hl.nodup_iff.1 hp.nodup
  ids := (hl.map ids).nodup_iff.1 hp.ids
  alloc a := (hp.alloc a).trans hl.mem_iff
  live id := (hp.live id).trans ⟨fun ⟨a, ha, h⟩ => ⟨a, hl.mem_iff.1 ha, h⟩,
    fun ⟨a, ha, h⟩ => ⟨a, hl.mem_iff.2 ha, h⟩⟩

/-- A node and its thread leave. -/
theorem Population.drop {ids : ℕ → Option ℕ} {live : ℕ → Bool} (hp : Population ids live (a :: L))
    (hid : ids a = some id) :
    Population (Function.update ids a none) (Function.update live id false) L := by
  have hnd := List.nodup_cons.1 hp.nodup
  have hne : ∀ b ∈ L, b ≠ a := fun b hb heq => hnd.1 (heq ▸ hb)
  have hmap : L.map (Function.update ids a none) = L.map ids :=
    List.map_congr_left fun b hb => Function.update_of_ne (hne b hb) _ _
  have hids := hp.ids
  rw [List.map_cons, List.nodup_cons, hid] at hids
  refine ⟨hnd.2, hmap ▸ hids.2, fun b => ?_, fun i => ?_⟩
  · by_cases hba : b = a
    · subst hba
      simp [hnd.1]
    · rw [Function.update_of_ne hba, hp.alloc, List.mem_cons, or_iff_right hba]
  · by_cases hi : i = id
    · subst hi
      simp only [Function.update_self, Bool.false_eq_true, false_iff, not_exists, not_and]
      intro b hb heq
      rw [Function.update_of_ne (hne b hb)] at heq
      exact hids.1 (heq ▸ List.mem_map_of_mem hb)
    · rw [Function.update_of_ne hi, hp.live]
      constructor
      · rintro ⟨b, hb, heq⟩
        rcases List.mem_cons.1 hb with rfl | hb
        · exact absurd (Option.some.inj (heq.symm.trans hid)) hi
        · exact ⟨b, hb, by rw [Function.update_of_ne (hne b hb), heq]⟩
      · rintro ⟨b, hb, heq⟩
        rw [Function.update_of_ne (hne b hb)] at heq
        exact ⟨b, List.mem_cons_of_mem _ hb, heq⟩

/-- A new node comes with a new thread. -/
theorem Population.add {ids : ℕ → Option ℕ} {live : ℕ → Bool} (hp : Population ids live L)
    (ha : ids a = none) (hid : live id = false) :
    Population (Function.update ids a (some id)) (Function.update live id true) (a :: L) := by
  have hmem : a ∉ L := fun h => (hp.alloc a).2 h ha
  have hne : ∀ b ∈ L, b ≠ a := fun b hb heq => hmem (heq ▸ hb)
  have hmap : L.map (Function.update ids a (some id)) = L.map ids :=
    List.map_congr_left fun b hb => Function.update_of_ne (hne b hb) _ _
  have hnew : ∀ b ∈ L, ids b ≠ some id := fun b hb heq => by
    rw [(hp.live id).2 ⟨b, hb, heq⟩] at hid
    cases hid
  refine ⟨List.nodup_cons.2 ⟨hmem, hp.nodup⟩, ?_, fun b => ?_, fun i => ?_⟩
  · rw [List.map_cons, hmap, Function.update_self, List.nodup_cons]
    refine ⟨fun h => ?_, hp.ids⟩
    obtain ⟨b, hb, heq⟩ := List.mem_map.1 h
    exact hnew b hb heq
  · by_cases hba : b = a
    · subst hba
      simp
    · rw [Function.update_of_ne hba, hp.alloc, List.mem_cons, or_iff_right hba]
  · by_cases hi : i = id
    · subst hi
      simp only [Function.update_self, true_iff]
      exact ⟨a, List.mem_cons_self, Function.update_self ..⟩
    · rw [Function.update_of_ne hi, hp.live]
      constructor
      · rintro ⟨b, hb, heq⟩
        exact ⟨b, List.mem_cons_of_mem _ hb, by rw [Function.update_of_ne (hne b hb), heq]⟩
      · rintro ⟨b, hb, heq⟩
        rcases List.mem_cons.1 hb with rfl | hb
        · rw [Function.update_self, Option.some.injEq] at heq
          exact absurd heq.symm hi
        · rw [Function.update_of_ne (hne b hb)] at heq
          exact ⟨b, hb, heq⟩

/-! ## The moves -/

theorem statusAt_eq (hid : tcbOf s.nodes a = some id) (ht : s.tcbs id = some t) :
    statusAt s a = some t.status := by
  simp [statusAt, hid, ht]

/-- The status does not depend on the links. -/
theorem statusAt_congr (hids : tcbOf s'.nodes = tcbOf s.nodes) (ht : s'.tcbs = s.tcbs) :
    statusAt s' = statusAt s := by
  funext a
  unfold statusAt
  rw [hids, ht]

theorem Moved.statusAt (hm : Moved s s') : statusAt s' = statusAt s := by
  obtain ⟨h, r, w, rfl⟩ := hm.rest
  exact statusAt_congr hm.points rfl

theorem statusAt_setTcb_of_status (ht : s.tcbs id = some t) (t' : Tcb)
    (hst : t'.status = t.status) : statusAt (s.setTcb id t') = statusAt s := by
  funext b
  cases hb : tcbOf s.nodes b with
  | none => simp [statusAt, State.setTcb, hb]
  | some i =>
    by_cases hi : i = id
    · subst hi
      simp [statusAt, State.setTcb, hb, ht, hst]
    · simp [statusAt, State.setTcb, hb, Function.update_of_ne hi]

/-- A new thread with a new node, in no queue. -/
def State.addThread (s : State) (a : ℕ) (t : Tcb) : State :=
  { s.setTcb s.threadCount t with
    threadCount := s.threadCount + 1
    nodes := Function.update s.nodes a (some ⟨s.threadCount, none⟩) }

theorem tcbOf_addThread : tcbOf (s.addThread a t).nodes =
    Function.update (tcbOf s.nodes) a (some s.threadCount) := by
  funext b
  by_cases hb : b = a
  · subst hb
    simp [tcbOf, State.addThread]
  · simp [tcbOf, State.addThread, Function.update_of_ne hb]

namespace Queues

/-- The control block of a node. -/
theorem exists_tcb (hq : Queues s X R W) (ha : a ∈ X ++ (R ++ W)) :
    ∃ id t, tcbOf s.nodes a = some id ∧ s.tcbs id = some t := by
  obtain ⟨id, hid⟩ := Option.ne_none_iff_exists'.1 ((hq.people.alloc a).2 ha)
  obtain ⟨t, ht⟩ := Option.isSome_iff_exists.1 ((hq.people.live id).2 ⟨a, ha, hid⟩)
  exact ⟨id, t, hid, ht⟩

/-- The node of a thread. -/
theorem node_unique (hq : Queues s X R W) (ha : tcbOf s.nodes a = some id)
    (hb : tcbOf s.nodes b = some id) : a = b := by
  have ha' := (hq.people.alloc a).1 (by rw [ha]; exact Option.some_ne_none _)
  have hb' := (hq.people.alloc b).1 (by rw [hb]; exact Option.some_ne_none _)
  exact List.inj_on_of_nodup_map hq.people.ids ha' hb' (ha.trans hb.symm)

theorem ready_live (hq : Queues s X R W) : ∀ a ∈ R, ∀ n, s.nodes a = some n →
    s.live n.tcb = true := fun a ha n hn =>
  (hq.people.live _).2 ⟨a, by simp [ha], by simp [tcbOf, hn]⟩

theorem waiting_live (hq : Queues s X R W) : ∀ a ∈ W, ∀ n, s.nodes a = some n →
    s.live n.tcb = true := fun a ha n hn =>
  (hq.people.live _).2 ⟨a, by simp [ha], by simp [tcbOf, hn]⟩

theorem ids_ready (hq : Queues s X R W) : (R.map (tcbOf s.nodes)).Nodup := by
  have h := hq.people.ids
  rw [List.map_append, List.map_append] at h
  exact (List.nodup_append.1 (List.nodup_append.1 h).2.1).1

theorem ids_waiting (hq : Queues s X R W) : (W.map (tcbOf s.nodes)).Nodup := by
  have h := hq.people.ids
  rw [List.map_append, List.map_append] at h
  exact (List.nodup_append.1 (List.nodup_append.1 h).2.1).2.1

/-- A node is in one of the lists only. -/
theorem apart (hq : Queues s X R W) :
    (∀ a ∈ X, a ∉ R ∧ a ∉ W) ∧ ∀ a ∈ R, a ∉ W := by
  have h := List.nodup_append.1 hq.people.nodup
  have h' := List.nodup_append.1 h.2.1
  refine ⟨fun a ha => ⟨fun hr => ?_, fun hw => ?_⟩, fun a ha hw => h'.2.2 a ha a hw rfl⟩
  · exact h.2.2 a ha a (List.mem_append_left _ hr) rfl
  · exact h.2.2 a ha a (List.mem_append_right _ hw) rfl

theorem statusAt_setTcb (hid : tcbOf s.nodes a = some id) :
    statusAt (s.setTcb id t) a = some t.status := by
  simp [statusAt, State.setTcb, hid]

theorem statusAt_setTcb_of_ne (hq : Queues s X R W) (hid : tcbOf s.nodes a = some id)
    (hb : b ≠ a) : statusAt (s.setTcb id t) b = statusAt s b := by
  cases hb' : tcbOf s.nodes b with
  | none => simp [statusAt, State.setTcb, hb']
  | some i =>
    have hi : i ≠ id := fun heq => hb (hq.node_unique (heq ▸ hb') hid)
    simp [statusAt, State.setTcb, hb', Function.update_of_ne hi]

theorem live_setTcb (hq : Queues s X R W) (ha : a ∈ X ++ (R ++ W))
    (hid : tcbOf s.nodes a = some id) : (s.setTcb id t).live = s.live := by
  have hlive : s.live id = true := (hq.people.live id).2 ⟨a, ha, hid⟩
  funext i
  by_cases hi : i = id
  · subst hi
    rw [hlive]
    simp [State.live, State.setTcb]
  · simp [State.live, State.setTcb, Function.update_of_ne hi]

/-- Changing the control block of a node in hand. -/
theorem setTcb (hq : Queues s X R W) (ha : a ∈ X) (hid : tcbOf s.nodes a = some id) (t : Tcb) :
    Queues (s.setTcb id t) X R W := by
  have hsame := hq.live_setTcb (t := t) (List.mem_append_left _ ha) hid
  have hapart := hq.apart.1 a ha
  exact {
    ready := hq.ready
    waiting := hq.waiting
    people := hsame ▸ hq.people
    hand := hq.hand
    isReady := fun b hb => by
      rw [hq.statusAt_setTcb_of_ne hid fun heq => hapart.1 (heq ▸ hb)]
      exact hq.isReady b hb
    isBlocked := fun b hb => by
      rw [hq.statusAt_setTcb_of_ne hid fun heq => hapart.2 (heq ▸ hb)]
      exact hq.isBlocked b hb
    bound := fun i hi => hq.bound i (hsame ▸ hi) }

/-- Changing a control block but for its status. -/
theorem setTcb_of_status (hq : Queues s X R W) (ht : s.tcbs id = some t) (t' : Tcb)
    (hst : t'.status = t.status) : Queues (s.setTcb id t') X R W := by
  have hlive : (s.setTcb id t').live = s.live := by
    funext i
    by_cases hi : i = id
    · subst hi
      simp [State.live, State.setTcb, ht]
    · simp [State.live, State.setTcb, Function.update_of_ne hi]
  have hstatus : statusAt (s.setTcb id t') = statusAt s := statusAt_setTcb_of_status ht t' hst
  exact {
    ready := hq.ready
    waiting := hq.waiting
    people := hlive ▸ hq.people
    hand := hq.hand
    isReady := hstatus ▸ hq.isReady
    isBlocked := hstatus ▸ hq.isBlocked
    bound := hlive ▸ hq.bound }

/-- What the invariant does not read. -/
theorem congr (hq : Queues s X R W) (hn : s'.nodes = s.nodes) (hr : s'.readyQueue = s.readyQueue)
    (hw : s'.waitingQueue = s.waitingQueue) (ht : s'.tcbs = s.tcbs)
    (hc : s'.threadCount = s.threadCount) : Queues s' X R W := by
  have hlive : s'.live = s.live := by
    funext i
    simp [State.live, ht]
  have hst : statusAt s' = statusAt s := statusAt_congr (by rw [hn]) ht
  constructor
  · rw [hn, hr]
    exact hq.ready
  · rw [hn, hw]
    exact hq.waiting
  · rw [hn, hlive]
    exact hq.people
  · rw [hn]
    exact hq.hand
  · rw [hst]
    exact hq.isReady
  · rw [hst]
    exact hq.isBlocked
  · rw [hlive, hc]
    exact hq.bound

/-- A node in hand as it is stored. -/
theorem hand_eq (hq : Queues s X R W) (ha : a ∈ X) :
    ∃ id, s.nodes a = some ⟨id, none⟩ := by
  obtain ⟨id, t, hid, -⟩ := hq.exists_tcb (List.mem_append_left _ ha)
  obtain ⟨n, hn, rfl⟩ := Option.map_eq_some_iff.1 hid
  have hnext := hq.hand a ha
  rw [hn, Option.bind_some] at hnext
  refine ⟨n.tcb, ?_⟩
  rw [hn, ← hnext]

theorem perm_middle₂ (X R W : List ℕ) (a : ℕ) :
    ((a :: X) ++ (R ++ W)).Perm (X ++ ((R ++ [a]) ++ W)) := by
  simp only [List.append_assoc, List.cons_append, List.nil_append]
  rw [← List.append_assoc X R (a :: W), ← List.append_assoc X R W]
  exact List.perm_middle.symm

theorem perm_middle₃ (X R W : List ℕ) (a : ℕ) :
    ((a :: X) ++ (R ++ W)).Perm (X ++ (R ++ (W ++ [a]))) := by
  rw [← List.append_assoc, ← List.append_assoc, ← List.append_assoc]
  exact @List.perm_append_comm _ [a] (X ++ R ++ W)

/-- A list changes by links of its own nodes, so that the other list and the hand stay. -/
theorem relinked (hq : Queues s (a :: X) R W) (hr : Relinked s.nodes h' L)
    (hX : ∀ b ∈ X, b ∉ L) : ∀ b ∈ X, (h' b).bind Node.next = none := fun b hb => by
  rw [hr.same b (hX b hb)]
  exact hq.hand b (List.mem_cons_of_mem _ hb)

/-- A ready node is put into the ready queue. -/
theorem enqueueReady (hq : Queues s (a :: X) R W) (hst : statusAt s a = some .ready)
    (he : enqueueReady fuel s a = some s') : Queues s' X (R ++ [a]) W := by
  obtain ⟨id, ha⟩ := hq.hand_eq List.mem_cons_self
  have hapart := hq.apart
  obtain ⟨h', q, henq, hR, hr⟩ := enqueue_spec fuel hq.ready
    (hapart.1 a List.mem_cons_self).1 ha
  have hids : tcbOf h' = tcbOf s.nodes := funext hr.tcb
  simp only [Worker.enqueueReady, henq, Option.bind_eq_bind, Option.bind_some,
    Option.some.injEq] at he
  subst he
  have hstatus : statusAt { s with nodes := h', readyQueue := q } = statusAt s :=
    statusAt_congr hids rfl
  exact {
    ready := hR
    waiting := hq.waiting.relinked hr fun b hb hbR => hapart.2 b hbR hb
    people := by
      rw [hids]
      exact hq.people.perm (perm_middle₂ X R W a)
    hand := hq.relinked hr fun b hb => (hapart.1 b (List.mem_cons_of_mem _ hb)).1
    isReady := fun b hb => by
      rw [hstatus]
      rcases List.mem_append.1 hb with hb | hb
      · exact hq.isReady b hb
      · rw [List.mem_singleton.1 hb, hst]
    isBlocked := fun b hb => by
      rw [hstatus]
      exact hq.isBlocked b hb
    bound := hq.bound }

/-- A blocked node is put into the waiting queue. -/
theorem enqueueWaiting (hq : Queues s (a :: X) R W) (hst : statusAt s a = some .blocked)
    (he : enqueueWaiting fuel s a = some s') : Queues s' X R (W ++ [a]) := by
  obtain ⟨id, ha⟩ := hq.hand_eq List.mem_cons_self
  have hapart := hq.apart
  obtain ⟨h', q, henq, hW, hr⟩ := enqueue_spec fuel hq.waiting
    (hapart.1 a List.mem_cons_self).2 ha
  have hids : tcbOf h' = tcbOf s.nodes := funext hr.tcb
  simp only [Worker.enqueueWaiting, henq, Option.bind_eq_bind, Option.bind_some,
    Option.some.injEq] at he
  subst he
  have hstatus : statusAt { s with nodes := h', waitingQueue := q } = statusAt s :=
    statusAt_congr hids rfl
  exact {
    ready := hq.ready.relinked hr hapart.2
    waiting := hW
    people := by
      rw [hids]
      exact hq.people.perm (perm_middle₃ X R W a)
    hand := hq.relinked hr fun b hb => (hapart.1 b (List.mem_cons_of_mem _ hb)).2
    isReady := fun b hb => by
      rw [hstatus]
      exact hq.isReady b hb
    isBlocked := fun b hb => by
      rw [hstatus]
      rcases List.mem_append.1 hb with hb | hb
      · exact hq.isBlocked b hb
      · rw [List.mem_singleton.1 hb, hst]
    bound := hq.bound }

/-- The node of a thread leaves the waiting queue, unless it is the first of several. -/
theorem deleteWaiting {r : Option ℕ} (hq : Queues s X R W)
    (hd : deleteWaiting fuel s id = some (s', r)) :
    (r = none ∧ s' = s ∧ ∀ a ∈ W, tcbOf s.nodes a ≠ some id) ∨
    ∃ W₁ a W₂, W = W₁ ++ a :: W₂ ∧ r = some a ∧ tcbOf s.nodes a = some id ∧
      (W₁ ≠ [] ∨ W₂ = [] → Queues s' (a :: X) R (W₁ ++ W₂)) := by
  obtain ⟨⟨h', q, r'⟩, hdel, hd⟩ := Option.bind_eq_some_iff.1 hd
  simp only [Option.some.injEq, Prod.mk.injEq] at hd
  obtain ⟨rfl, rfl⟩ := hd
  obtain ⟨rfl, rfl, rfl, hne⟩ | ⟨W₁, a, W₂, n, rfl, hn, rfl, rfl, hr, ha, hW⟩ :=
    deleteFromQueue_spec hq.waiting hq.waiting_live hq.ids_waiting hdel
  · exact .inl ⟨rfl, rfl, hne⟩
  have hids : tcbOf h' = tcbOf s.nodes := funext hr.tcb
  have hapart := hq.apart
  refine .inr ⟨W₁, a, W₂, rfl, rfl, by simp [tcbOf, hn], fun hne => ?_⟩
  have hstatus : statusAt { s with nodes := h', waitingQueue := q } = statusAt s :=
    statusAt_congr hids rfl
  exact {
    ready := hq.ready.relinked hr hapart.2
    waiting := hW hne
    people := by
      rw [hids]
      refine hq.people.perm ?_
      rw [← List.append_assoc, ← List.append_assoc, List.cons_append, ← List.append_assoc,
        ← List.append_assoc]
      exact List.perm_middle
    hand := fun b hb => by
      rcases List.mem_cons.1 hb with rfl | hb
      · simp [ha]
      · change (h' b).bind Node.next = none
        rw [hr.same b (hapart.1 b hb).2]
        exact hq.hand b hb
    isReady := fun b hb => by
      rw [hstatus]
      exact hq.isReady b hb
    isBlocked := fun b hb => by
      rw [hstatus]
      refine hq.isBlocked b ?_
      rcases List.mem_append.1 hb with hb | hb <;> simp [hb]
    bound := hq.bound }

/-- The first node leaves the ready queue. -/
theorem pop (hq : Queues s X (a :: R) W) :
    ∃ h' q, popFromQueue s.nodes s.readyQueue = some (h', q, some a) ∧
      Queues { s with nodes := h', readyQueue := q } (a :: X) R W ∧
      tcbOf h' = tcbOf s.nodes := by
  obtain ⟨h', q, n, hpop, hR, hn, ha, hr⟩ := popFromQueue_spec hq.ready
  have hids : tcbOf h' = tcbOf s.nodes := funext hr.tcb
  have hapart := hq.apart
  refine ⟨h', q, hpop, ?_, hids⟩
  have hstatus : statusAt { s with nodes := h', readyQueue := q } = statusAt s :=
    statusAt_congr hids rfl
  exact {
    ready := hR
    waiting := hq.waiting.relinked hr fun b hb hba => by
      rw [List.mem_singleton.1 hba] at hb
      exact hapart.2 a List.mem_cons_self hb
    people := by
      rw [hids]
      refine hq.people.perm ?_
      rw [List.cons_append]
      exact List.perm_middle
    hand := fun b hb => by
      rcases List.mem_cons.1 hb with rfl | hb
      · simp [ha]
      · change (h' b).bind Node.next = none
        rw [hr.same b fun hba => (hapart.1 b hb).1 (by rw [List.mem_singleton.1 hba]; simp)]
        exact hq.hand b hb
    isReady := fun b hb => by
      rw [hstatus]
      exact hq.isReady b (List.mem_cons_of_mem _ hb)
    isBlocked := fun b hb => by
      rw [hstatus]
      exact hq.isBlocked b hb
    bound := hq.bound }

/-- The node in hand and its thread are freed. -/
theorem free (hq : Queues s (a :: X) R W) (hid : tcbOf s.nodes a = some id) :
    Queues { s with
      activeThreads := s.activeThreads - 1
      tcbs := Function.update s.tcbs id none
      nodes := Function.update s.nodes a none } X R W := by
  have hnd := (List.nodup_cons.1 hq.people.nodup).1
  have hapart := hq.apart.1 a List.mem_cons_self
  have hids : tcbOf (Function.update s.nodes a none) = Function.update (tcbOf s.nodes) a none := by
    funext b
    by_cases hb : b = a
    · subst hb
      simp [tcbOf]
    · simp [tcbOf, Function.update_of_ne hb]
  have hlive : (fun i => (Function.update s.tcbs id none i).isSome) =
      Function.update s.live id false := by
    funext i
    by_cases hi : i = id
    · subst hi
      simp
    · simp [State.live, Function.update_of_ne hi]
  have hne : ∀ b, b ∈ X ++ (R ++ W) → b ≠ a := fun b hb heq => hnd (heq ▸ hb)
  have hstatus : ∀ b, b ≠ a → ∀ st, statusAt s b = some st → statusAt { s with
      activeThreads := s.activeThreads - 1
      tcbs := Function.update s.tcbs id none
      nodes := Function.update s.nodes a none } b = some st := fun b hb st hst => by
    obtain ⟨i, hi, hst⟩ := Option.bind_eq_some_iff.1 hst
    have hii : i ≠ id := fun heq => hb (hq.node_unique (heq ▸ hi) hid)
    simp only [statusAt, hids, Function.update_of_ne hb, hi, Option.bind_eq_bind,
      Option.bind_some, Function.update_of_ne hii]
    exact hst
  exact {
    ready := ⟨hq.ready.chain.update_of_notMem hapart.1 none, hq.ready.tail⟩
    waiting := ⟨hq.waiting.chain.update_of_notMem hapart.2 none, hq.waiting.tail⟩
    people := by
      have h := hq.people.drop hid
      rw [← hids, ← hlive] at h
      exact h
    hand := fun b hb => by
      change (Function.update s.nodes a none b).bind Node.next = none
      rw [Function.update_of_ne (hne b (List.mem_append_left _ hb))]
      exact hq.hand b (List.mem_cons_of_mem _ hb)
    isReady := fun b hb => hstatus b (hne b (by simp [hb])) _ (hq.isReady b hb)
    isBlocked := fun b hb => hstatus b (hne b (by simp [hb])) _ (hq.isBlocked b hb)
    bound := fun i hi => by
      have hi' := congrFun hlive i
      change Option.isSome (Function.update s.tcbs id none i) = true at hi
      rw [hi'] at hi
      by_cases hii : i = id
      · subst hii
        rw [Function.update_self] at hi
        cases hi
      · rw [Function.update_of_ne hii] at hi
        exact hq.bound i hi }

/-- The status of the other threads when one is added. -/
theorem statusAt_addThread {st : Status} (hq : Queues s X R W) (hb : b ≠ a)
    (hst : statusAt s b = some st) : statusAt (s.addThread a t) b = some st := by
  obtain ⟨i, hi, hst⟩ := Option.bind_eq_some_iff.1 hst
  obtain ⟨u, hu, hst⟩ := Option.bind_eq_some_iff.1 hst
  have hii : i ≠ s.threadCount := Nat.ne_of_lt (hq.bound i (by simp [State.live, hu]))
  have hi' : tcbOf (s.addThread a t).nodes b = some i := by
    rw [tcbOf_addThread, Function.update_of_ne hb, hi]
  have hu' : (s.addThread a t).tcbs i = some u := (Function.update_of_ne hii _ _).trans hu
  rw [statusAt_eq hi' hu']
  exact hst

/-- A new thread gets a node. -/
theorem addThread (hq : Queues s X R W) (ha : s.nodes a = none) (t : Tcb) :
    Queues (s.addThread a t) (a :: X) R W := by
  have hfree : tcbOf s.nodes a = none := by simp [tcbOf, ha]
  have hmem : a ∉ X ++ (R ++ W) := fun h => (hq.people.alloc a).2 h hfree
  have hne : ∀ b ∈ X ++ (R ++ W), b ≠ a := fun b hb heq => hmem (heq ▸ hb)
  have hdead : s.live s.threadCount = false := by
    cases hl : s.live s.threadCount with
    | false => rfl
    | true => exact absurd (hq.bound _ hl) (Nat.lt_irrefl _)
  have hlive : (fun i => (Function.update s.tcbs s.threadCount (some t) i).isSome) =
      Function.update s.live s.threadCount true := by
    funext i
    by_cases hi : i = s.threadCount
    · subst hi
      simp
    · simp [State.live, Function.update_of_ne hi]
  exact {
    ready := ⟨hq.ready.chain.update_of_notMem (fun h => hmem (by simp [h])) _, hq.ready.tail⟩
    waiting := ⟨hq.waiting.chain.update_of_notMem (fun h => hmem (by simp [h])) _,
      hq.waiting.tail⟩
    people := by
      have h := hq.people.add hfree hdead
      rw [← tcbOf_addThread, ← hlive] at h
      exact h
    hand := fun b hb => by
      change (Function.update s.nodes a (some ⟨s.threadCount, none⟩) b).bind Node.next = none
      rcases List.mem_cons.1 hb with rfl | hb
      · simp
      · rw [Function.update_of_ne (hne b (List.mem_append_left _ hb))]
        exact hq.hand b hb
    isReady := fun b hb => hq.statusAt_addThread (hne b (by simp [hb])) (hq.isReady b hb)
    isBlocked := fun b hb => hq.statusAt_addThread (hne b (by simp [hb])) (hq.isBlocked b hb)
    bound := fun i hi => by
      have hi' := congrFun hlive i
      change Option.isSome (Function.update s.tcbs s.threadCount (some t) i) = true at hi
      rw [hi'] at hi
      by_cases hii : i = s.threadCount
      · exact hii ▸ Nat.lt_succ_self _
      · rw [Function.update_of_ne hii] at hi
        exact Nat.lt_succ_of_lt (hq.bound i hi) }

/-- A thread that is waiting leaves the waiting queue. -/
theorem deleteWaiting_mem {r : Option ℕ} (hq : Queues s X R (W₁ ++ a :: W₂))
    (hid : tcbOf s.nodes a = some id) (hne : W₁ ≠ [] ∨ W₂ = [])
    (hd : Worker.deleteWaiting fuel s id = some (s', r)) :
    r = some a ∧ Queues s' (a :: X) R (W₁ ++ W₂) := by
  obtain ⟨-, -, habs⟩ | ⟨V₁, b, V₂, hV, rfl, hb, hqV⟩ := hq.deleteWaiting hd
  · exact absurd hid (habs a (by simp))
  obtain rfl := hq.node_unique hid hb
  have hchain := hq.waiting.chain
  obtain ⟨rfl, -, rfl⟩ :=
    (List.append_cons_inj_of_notMem hchain.notMem_before hchain.notMem_after).1 hV
  exact ⟨rfl, hqV hne⟩

end Queues

end UserOS.Worker
