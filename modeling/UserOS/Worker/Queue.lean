import UserOS.Lib.Chain

/-!
# The queues of `worker.c`

A queue is a singly linked list of nodes with a head and a tail pointer. A node belongs to the list
of whatever queue links to it: a thread that blocks on a mutex is put into two queues with one node.

* `enqueue_spec`, `popFromQueue_spec`: the code appends and takes from the front.
* `deleteFromQueue_spec`: what it does where it is right. Deleting the head of a list of two nodes
  or more loses the others, because the head's link is cut before it is read.
-/

namespace UserOS.Worker

open Lib

/-- `struct QueueNode`. A pointer to a thread control block is the id of the thread. -/
structure Node where
  tcb : ℕ
  next : Option ℕ
  deriving DecidableEq, Repr

/-- `struct Queue`. -/
structure Queue where
  head : Option ℕ
  tail : Option ℕ
  deriving DecidableEq, Repr

/-- The nodes allocated, by address. -/
abbrev Nodes := ℕ → Option Node

/-- `malloc(sizeof(queue))`, which is assumed to be zeroed. -/
def Queue.empty : Queue := ⟨none, none⟩

/-- `a->next_node = p`. -/
def setNext (h : Nodes) (a : ℕ) (p : Option ℕ) : Option Nodes := do
  let n ← h a
  some (Function.update h a (some { n with next := p }))

/-- The last node of the list from `head` on. -/
def lastNode (fuel : ℕ) (h : Nodes) (head : ℕ) : Option ℕ := do
  let (_, last) ← walk h Node.next (fun _ n => some n.next.isNone) fuel none (some head)
  last

/-- `enqueue`. -/
def enqueue (fuel : ℕ) (h : Nodes) (q : Queue) (enqNode : ℕ) : Option (Nodes × Queue) :=
  match q.head with
  | none => some (h, ⟨some enqNode, some enqNode⟩)
  | some head => do
    let tail ← q.tail.or (lastNode fuel h head)
    let h ← setNext h tail (some enqNode)
    some (h, ⟨some head, some enqNode⟩)

/-- `pop_from_queue`. The result is the node popped, if any. -/
def popFromQueue (h : Nodes) (q : Queue) : Option (Nodes × Queue × Option ℕ) :=
  match q.head with
  | none => some (h, q, none)
  | some head => do
    let n ← h head
    let h ← setNext h head none
    some (h, if q.head = q.tail then .empty else ⟨n.next, q.tail⟩, some head)

/-- The loop that looks for the node of a thread. `live` tells the control blocks that exist;
reading the id of another one fails. -/
def findNode (fuel : ℕ) (h : Nodes) (live : ℕ → Bool) (q : Queue) (threadId : ℕ) :
    Option (Option ℕ × Option ℕ) :=
  walk h Node.next (fun _ n => if live n.tcb then some (n.tcb = threadId) else none) fuel none
    q.head

/-- `delete_from_queue`. The link of the node found is cut first, and the new head is read through
it. -/
def deleteFromQueue (fuel : ℕ) (h : Nodes) (live : ℕ → Bool) (q : Queue) (threadId : ℕ) :
    Option (Nodes × Queue × Option ℕ) := do
  let (prev, head) ← findNode fuel h live q threadId
  match head with
  | none => some (h, q, none)
  | some a =>
    let n ← h a
    let temp := n.next
    let h ← setNext h a none
    if q.head = some a then
      if q.head = q.tail then some (h, .empty, some a)
      else do
        let n ← h a
        some (h, ⟨n.next, q.tail⟩, some a)
    else
      let p ← prev
      if q.tail = some a then do
        let h ← setNext h p none
        some (h, ⟨q.head, some p⟩, some a)
      else do
        let h ← setNext h p temp
        some (h, q, some a)

/-! ## What the operations do to a list -/

/-- The queue `q` holds the list `l` of nodes. -/
structure Holds (h : Nodes) (q : Queue) (l : List ℕ) : Prop where
  chain : Chain h Node.next q.head l
  tail : q.tail = l.getLast?

/-- `h'` differs from `h` only in links of `l`. -/
structure Relinked (h h' : Nodes) (l : List ℕ) : Prop where
  same : ∀ a, a ∉ l → h' a = h a
  tcb : ∀ a, (h' a).map Node.tcb = (h a).map Node.tcb

variable {h h' h'' : Nodes} {q q' : Queue} {l l' l₁ l₂ : List ℕ} {a b : ℕ} {n : Node} {fuel : ℕ}

theorem Relinked.refl : Relinked h h l := ⟨fun _ _ => rfl, fun _ => rfl⟩

theorem Relinked.trans (hr : Relinked h h' l) (hr' : Relinked h' h'' l') :
    Relinked h h'' (l ++ l') where
  same a ha := by
    rw [List.mem_append, not_or] at ha
    rw [hr'.same a ha.2, hr.same a ha.1]
  tcb a := (hr'.tcb a).trans (hr.tcb a)

theorem Relinked.mono (hr : Relinked h h' l) (hsub : l ⊆ l') : Relinked h h' l' :=
  ⟨fun a ha => hr.same a fun hl => ha (hsub hl), hr.tcb⟩

/-- A list that shares no node keeps its shape. -/
theorem Holds.relinked (hq : Holds h q l) (hr : Relinked h h' l') (hd : ∀ a ∈ l, a ∉ l') :
    Holds h' q l :=
  ⟨hq.chain.congr fun a ha => by rw [hr.same a (hd a ha)], hq.tail⟩

theorem setNext_eq (hn : h a = some n) (p : Option ℕ) :
    setNext h a p = some (Function.update h a (some { n with next := p })) := by
  simp [setNext, hn]

theorem relinked_update (hn : h a = some n) (p : Option ℕ) :
    Relinked h (Function.update h a (some { n with next := p })) [a] where
  same b hb := Function.update_of_ne (by simpa using hb) _ _
  tcb b := by
    by_cases hba : b = a
    · subst hba
      simp [hn]
    · rw [Function.update_of_ne hba]

theorem Holds.head (hq : Holds h q l) : q.head = l.head? := hq.chain.head?_eq

theorem Holds.eq (hq : Holds h q l) : q = ⟨l.head?, l.getLast?⟩ := by
  rw [← hq.head, ← hq.tail]

/-- **Enqueue** appends a node that is in no list. -/
theorem enqueue_spec (fuel : ℕ) (hq : Holds h q l) (ha : a ∉ l) (hn : h a = some ⟨b, none⟩) :
    ∃ h' q', enqueue fuel h q a = some (h', q') ∧ Holds h' q' (l ++ [a]) ∧ Relinked h h' l := by
  unfold enqueue
  rcases List.eq_nil_or_concat l with rfl | ⟨l, t, rfl⟩
  · rw [hq.head]
    exact ⟨h, _, rfl, ⟨⟨rfl, _, hn, rfl⟩, rfl⟩, .refl⟩
  · rw [List.concat_eq_append] at hq ha ⊢
    obtain ⟨m, hm⟩ := hq.chain.exists_of_mem (a := t) (by simp)
    have htail : q.tail = some t := by rw [hq.tail, List.getLast?_concat]
    have hchain : Chain (Function.update h t (some { m with next := some a })) Node.next q.head
        (l ++ [t] ++ [a]) := hq.chain.append_cell rfl ha hn rfl
    cases hhead : q.head with
    | none => exact absurd (hq.chain.eq_nil_iff.2 hhead) (by simp)
    | some hd =>
      rw [hhead] at hchain
      simp only [htail, Option.some_or, Option.bind_eq_bind, Option.bind_some, setNext_eq hm]
      exact ⟨_, _, rfl, ⟨hchain, by simp⟩, (relinked_update hm _).mono (by simp)⟩

/-- The lists that end at the tail of the queue go on to the node, and the others stay. -/
theorem enqueue_extends (hq : Holds h q l) (ha : a ∉ l) (hn : h a = some ⟨b, none⟩)
    (he : enqueue fuel h q a = some (h', q')) {p : Option ℕ} {m : List ℕ}
    (hm : Chain h Node.next p m) :
    ∃ m', Chain h' Node.next p m' ∧ m' ⊆ a :: m ∧ m'.length ≤ m.length + 1 := by
  unfold enqueue at he
  rcases List.eq_nil_or_concat l with rfl | ⟨l, t, rfl⟩
  · rw [hq.head] at he
    cases he
    exact ⟨m, hm, List.subset_cons_self .., Nat.le_succ _⟩
  · rw [List.concat_eq_append] at hq ha
    obtain ⟨n, hn'⟩ := hq.chain.exists_of_mem (a := t) (by simp)
    have htail : q.tail = some t := by rw [hq.tail, List.getLast?_concat]
    cases hhead : q.head with
    | none => exact absurd (hq.chain.eq_nil_iff.2 hhead) (by simp)
    | some hd =>
      rw [hhead, htail] at he
      simp only [Option.some_or, Option.bind_eq_bind, Option.bind_some, setNext_eq hn'] at he
      cases he
      have hta : t ∉ [a] := fun h => ha (by simp [List.mem_singleton.1 h])
      have hlast : Chain h Node.next (Node.next { n with next := some a }) [a] := ⟨rfl, _, hn, rfl⟩
      obtain ⟨m', hm', rfl | ⟨m₁, m₂, rfl, rfl⟩⟩ := hm.relink hlast hta
      · exact ⟨m', hm', List.subset_cons_self .., Nat.le_succ _⟩
      · refine ⟨_, hm', fun c hc => ?_, by simp⟩
        simp only [List.mem_append, List.mem_cons, List.not_mem_nil, or_false] at hc ⊢
        tauto

/-- The head and the tail after an enqueue. -/
theorem enqueue_ends (he : enqueue fuel h q a = some (h', q')) :
    q' = ⟨q.head.or (some a), some a⟩ ∧ (q.head = none → h' = h) := by
  unfold enqueue at he
  cases hhead : q.head with
  | none =>
    rw [hhead] at he
    cases he
    exact ⟨rfl, fun _ => rfl⟩
  | some head =>
    rw [hhead] at he
    obtain ⟨tail, -, he⟩ := Option.bind_eq_some_iff.1 he
    obtain ⟨h₁, -, he⟩ := Option.bind_eq_some_iff.1 he
    cases he
    exact ⟨rfl, fun h => nomatch h⟩

/-- **Pop** takes the first node and cuts its link. -/
theorem popFromQueue_spec (hq : Holds h q (a :: l)) :
    ∃ h' q' n, popFromQueue h q = some (h', q', some a) ∧ Holds h' q' l ∧ h a = some n ∧
      h' a = some { n with next := none } ∧ Relinked h h' [a] := by
  obtain ⟨hhead, n, hn, hrest⟩ := hq.chain
  have hnd := (List.nodup_cons.1 hq.chain.nodup).1
  have hchain : Chain (Function.update h a (some { n with next := none })) Node.next n.next l :=
    Chain.update_of_notMem hrest hnd _
  refine ⟨_, if q.head = q.tail then .empty else ⟨n.next, q.tail⟩, n, ?_, ?_, hn,
    Function.update_self .., relinked_update hn none⟩
  · unfold popFromQueue
    rw [hhead]
    simp only [hn, setNext_eq hn, Option.bind_eq_bind, Option.bind_some]
  · split_ifs with htail
    · -- The head is the tail, so that nothing follows it.
      rw [hhead, hq.tail] at htail
      rcases List.eq_nil_or_concat l with rfl | ⟨l, t, rfl⟩
      · exact ⟨rfl, rfl⟩
      · rw [List.concat_eq_append, ← List.cons_append, List.getLast?_concat,
          Option.some.injEq] at htail
        exact absurd (by simp [htail]) hnd
    · refine ⟨hchain, ?_⟩
      rw [hq.tail]
      cases l with
      | nil => rw [hhead, hq.tail] at htail; exact absurd rfl htail
      | cons c l => simp [List.getLast?_cons_cons]

theorem popFromQueue_nil (hq : q.head = none) : popFromQueue h q = some (h, q, none) := by
  unfold popFromQueue
  rw [hq]

/-- The id that the node at `a` points to. -/
def tcbOf (h : Nodes) (a : ℕ) : Option ℕ := (h a).map Node.tcb

theorem findNode_spec {live : ℕ → Bool} {id : ℕ} {r : Option ℕ × Option ℕ} (hq : Holds h q l)
    (hlive : ∀ a ∈ l, ∀ n, h a = some n → live n.tcb = true) (hids : (l.map (tcbOf h)).Nodup)
    (hf : findNode fuel h live q id = some r) :
    (r.2 = none ∧ ∀ a ∈ l, tcbOf h a ≠ some id) ∨
    ∃ l₁ a l₂ n, l = l₁ ++ a :: l₂ ∧ h a = some n ∧ n.tcb = id ∧ r = (l₁.getLast?, some a) := by
  by_cases hex : ∃ a ∈ l, tcbOf h a = some id
  · right
    obtain ⟨a, ha, hid⟩ := hex
    obtain ⟨n, hn, rfl⟩ := Option.map_eq_some_iff.1 hid
    obtain ⟨l₁, l₂, rfl⟩ := List.append_of_mem ha
    refine ⟨l₁, a, l₂, n, rfl, hn, rfl, ?_⟩
    rw [← Option.or_none (o := l₁.getLast?)]
    refine walk_found_eq hq.chain (fun b hb m hm => ?_) hn ?_ hf
    · have hne : m.tcb ≠ n.tcb := fun heq => by
        have hba : b = a := List.inj_on_of_nodup_map hids (List.mem_append_left _ hb) ha (by
          simp [tcbOf, hm, hn, heq])
        exact hq.chain.notMem_before (hba ▸ hb)
      simp [hlive b (List.mem_append_left _ hb) m hm, hne]
    · simp [hlive a ha n hn]
  · left
    push Not at hex
    refine ⟨?_, hex⟩
    have hr := walk_end_eq hq.chain (fun b hb m hm => ?_) hf
    · rw [hr]
    · have hne : m.tcb ≠ id := fun heq => hex b hb (by simp [tcbOf, hm, heq])
      simp [hlive b hb m hm, hne]

/-- The search for a thread along a list returns. -/
theorem findNode_returns {live : ℕ → Bool} (id : ℕ) (hc : Chain h Node.next q.head l)
    (hlive : ∀ a ∈ l, ∀ n, h a = some n → live n.tcb = true) (hf : l.length < fuel) :
    ∃ r, findNode fuel h live q id = some r ∧
      (r.2 = none ∨ ∃ l₁ a l₂, l = l₁ ++ a :: l₂ ∧ r = (l₁.getLast?, some a)) := by
  obtain ⟨r, hr, hres⟩ : ∃ r, findNode fuel h live q id = some r ∧
      (r.2 = none ∨ ∃ l₁ a l₂, l = l₁ ++ a :: l₂ ∧ r = (l₁.getLast?.or none, some a)) := by
    refine walk_returns hc (fun b hb n hn => ?_) hf
    exact ⟨_, if_pos (hlive b hb n hn)⟩
  exact ⟨r, hr, by simpa only [Option.or_none] using hres⟩

/-- What a deletion stores when it finds the node `a`: the node is the first of the list, or it has
a predecessor. -/
theorem deleteFromQueue_eq {live : ℕ → Bool} {id : ℕ}
    (hc : Chain h Node.next q.head (l₁ ++ a :: l₂)) (hn : h a = some n)
    (hf : findNode fuel h live q id = some (l₁.getLast?, some a)) :
    l₁ = [] ∧ deleteFromQueue fuel h live q id =
      some (Function.update h a (some { n with next := none }),
        if q.head = q.tail then .empty else ⟨none, q.tail⟩, some a) ∨
    ∃ l₃ p m, l₁ = l₃ ++ [p] ∧ p ≠ a ∧ h p = some m ∧ deleteFromQueue fuel h live q id =
      some (Function.update (Function.update h a (some { n with next := none })) p
          (some { m with next := if q.tail = some a then none else n.next }),
        if q.tail = some a then ⟨q.head, some p⟩ else q, some a) := by
  have ha : a ∉ l₁ ++ l₂ := hc.notMem_rest
  unfold deleteFromQueue
  simp only [hf, hn, setNext_eq hn, Option.bind_eq_bind, Option.bind_some, Function.update_self]
  rcases List.eq_nil_or_concat l₁ with rfl | ⟨l₃, p, rfl⟩
  · left
    have hhead : q.head = some a := hc.head?_eq
    refine ⟨rfl, ?_⟩
    rw [if_pos hhead]
    split_ifs <;> rfl
  · right
    rw [List.concat_eq_append] at hc ha ⊢
    have hpa : p ≠ a := fun heq => ha (by simp [heq])
    have hhead : q.head ≠ some a := by
      rw [hc.head?_eq]
      intro heq
      rcases l₃ with - | ⟨c, l₃⟩
      · exact hpa (Option.some.inj heq)
      · exact ha (by rw [← Option.some.inj heq]; simp)
    obtain ⟨m, hm⟩ := hc.exists_of_mem (a := p) (by simp)
    have hm' : Function.update h a (some { n with next := none }) p = some m := by
      rw [Function.update_of_ne hpa, hm]
    refine ⟨l₃, p, m, rfl, hpa, hm, ?_⟩
    rw [if_neg hhead, List.getLast?_concat, Option.bind_some]
    split_ifs <;> rw [setNext_eq hm'] <;> rfl

/-- The links that a deletion stores when the node found has a predecessor. -/
theorem relinked_unlink {p : ℕ} {m : Node} (hpa : p ≠ a) (hn : h a = some n) (hm : h p = some m)
    (x : Option ℕ) :
    Relinked h (Function.update (Function.update h a (some { n with next := none })) p
        (some { m with next := x })) [a, p] ∧
      Function.update (Function.update h a (some { n with next := none })) p
        (some { m with next := x }) a = some ⟨n.tcb, none⟩ := by
  have hm' : Function.update h a (some { n with next := none }) p = some m := by
    rw [Function.update_of_ne hpa, hm]
  refine ⟨(relinked_update hn none).trans (relinked_update hm' x), ?_⟩
  rw [Function.update_of_ne hpa.symm, Function.update_self]

/-- The list of the queue after them. -/
theorem chain_unlink {p : ℕ} {m : Node} (hpa : p ≠ a) (hn : h a = some n)
    (hc : Chain h Node.next q.head (l₁ ++ p :: a :: l₂)) :
    Chain (Function.update (Function.update h a (some { n with next := none })) p
        (some { m with next := if q.tail = some a then none else n.next })) Node.next q.head
      (l₁ ++ p :: if q.tail = some a then [] else l₂) := by
  -- The cut of the node's own link does not matter once it is unlinked.
  have ha : a ∉ l₁ ++ [p] ++ l₂ := by
    rw [← List.singleton_append, ← List.append_assoc] at hc
    exact hc.notMem_rest
  rw [Function.update_comm hpa.symm]
  split_ifs
  · refine Chain.update_of_notMem (hc.truncate rfl) (fun hmem => ha ?_) _
    exact List.mem_append_left _ hmem
  · have hchain : Chain (Function.update h p (some { m with next := n.next })) Node.next q.head
        (l₁ ++ p :: l₂) := hc.unlink hn rfl
    exact hchain.update_of_notMem (fun hmem => ha (by simpa using hmem)) _

/-- **Delete.** The node found leaves the list, unless it is the first of several. -/
theorem deleteFromQueue_spec {live : ℕ → Bool} {id : ℕ} {r : Option ℕ}
    (hq : Holds h q l) (hlive : ∀ a ∈ l, ∀ n, h a = some n → live n.tcb = true)
    (hids : (l.map (tcbOf h)).Nodup) (hd : deleteFromQueue fuel h live q id = some (h', q', r)) :
    (r = none ∧ h' = h ∧ q' = q ∧ ∀ a ∈ l, tcbOf h a ≠ some id) ∨
    ∃ l₁ a l₂ n, l = l₁ ++ a :: l₂ ∧ h a = some n ∧ n.tcb = id ∧ r = some a ∧ Relinked h h' l ∧
      h' a = some ⟨id, none⟩ ∧ (l₁ ≠ [] ∨ l₂ = [] → Holds h' q' (l₁ ++ l₂)) := by
  obtain ⟨⟨prev, head⟩, hf, hd'⟩ := Option.bind_eq_some_iff.1 hd
  obtain ⟨hnone, hne⟩ | ⟨l₁, a, l₂, n, rfl, hn, rfl, hfound⟩ := findNode_spec hq hlive hids hf
  · left
    simp only at hnone
    subst hnone
    simp only [Option.some.injEq, Prod.mk.injEq] at hd'
    exact ⟨hd'.2.2.symm, hd'.1.symm, hd'.2.1.symm, hne⟩
  right
  rw [Prod.mk.injEq] at hfound
  obtain ⟨rfl, rfl⟩ := hfound
  obtain ⟨rfl, heq⟩ | ⟨l₃, p, m, rfl, hpa, hm, heq⟩ := deleteFromQueue_eq hq.chain hn hf
  · -- The node is the first of the list.
    rw [heq] at hd
    cases hd
    refine ⟨[], a, l₂, n, rfl, hn, rfl, rfl, (relinked_update hn none).mono (by simp),
      Function.update_self .., fun hone => ?_⟩
    obtain rfl : l₂ = [] := hone.resolve_left fun h => h rfl
    rw [if_pos (by rw [hq.head, hq.tail]; rfl)]
    exact ⟨rfl, rfl⟩
  · rw [heq] at hd
    cases hd
    obtain ⟨hrelinked, hself⟩ := relinked_unlink hpa hn hm
      (if q.tail = some a then none else n.next)
    refine ⟨l₃ ++ [p], a, l₂, n, rfl, hn, rfl, rfl, hrelinked.mono (by simp), hself, fun _ => ?_⟩
    have hchain := chain_unlink hpa hn (m := m) (by simpa using hq.chain)
    have htail := hq.tail
    split_ifs at hchain ⊢ with hlast
    · -- The node is the last of the list.
      obtain rfl : l₂ = [] := by
        rcases List.eq_nil_or_concat l₂ with rfl | ⟨l₂, t, rfl⟩
        · rfl
        · have ha := hq.chain.notMem_rest
          rw [htail, List.concat_eq_append, ← List.cons_append, ← List.append_assoc,
            List.getLast?_concat, Option.some.injEq] at hlast
          exact absurd (by simp [hlast]) ha
      exact ⟨by simpa using hchain, by simp⟩
    · refine ⟨by simpa using hchain, ?_⟩
      rw [htail]
      cases l₂ with
      | nil => exact absurd (by rw [htail]; simp) hlast
      | cons c l₂ => simp [List.getLast?_append, List.getLast?_cons_cons]

/-- No list becomes longer by them. -/
theorem shortens_unlink {p : ℕ} {m : Node} (hpa : p ≠ a)
    (hc : Chain h Node.next (some p) (p :: a :: l₂)) (hn : h a = some n) :
    Shortens Node.next h (Function.update (Function.update h a (some { n with next := none })) p
      (some { m with next := if q.tail = some a then none else n.next })) := by
  have hrest : Chain h Node.next n.next l₂ := by
    obtain ⟨-, v, -, -, n', hn', hrest⟩ := hc
    obtain rfl := Option.some.inj (hn.symm.trans hn')
    exact hrest
  have hp : p ∉ l₂ := fun hmem => (List.nodup_cons.1 hc.nodup).1 (List.mem_cons_of_mem _ hmem)
  rw [Function.update_comm hpa.symm]
  refine (shortens_update (m := if q.tail = some a then [] else l₂) ?_ ?_ fun l₀ hl₀ => ?_).trans
    (shortens_cut rfl)
  · show Chain h Node.next (if q.tail = some a then none else n.next) _
    split_ifs
    · rfl
    · exact hrest
  · split_ifs
    · exact List.not_mem_nil
    · exact hp
  · obtain rfl : a :: l₂ = l₀ := (List.cons.inj (hc.unique hl₀)).2
    split_ifs <;> simp

/-- **A deletion along a list returns.** It stores nothing, or the node found leaves the list and no
list becomes longer. -/
theorem deleteFromQueue_returns (live : ℕ → Bool) (id : ℕ) (hc : Chain h Node.next q.head l)
    (hlive : ∀ a ∈ l, ∀ n, h a = some n → live n.tcb = true) (hf : l.length < fuel) :
    deleteFromQueue fuel h live q id = some (h, q, none) ∨
    ∃ a n h' q' l', deleteFromQueue fuel h live q id = some (h', q', some a) ∧ a ∈ l ∧
      h a = some n ∧ h' a = some ⟨n.tcb, none⟩ ∧ Relinked h h' l ∧ Chain h' Node.next q'.head l' ∧
      l' ⊆ l.erase a ∧ l'.length < l.length ∧ Shortens Node.next h h' := by
  obtain ⟨⟨prev, head⟩, hfind, hnone | ⟨l₁, a, l₂, rfl, hr⟩⟩ := findNode_returns id hc hlive hf
  · left
    simp only at hnone
    subst hnone
    unfold deleteFromQueue
    rw [hfind]
    rfl
  right
  rw [Prod.mk.injEq] at hr
  obtain ⟨rfl, rfl⟩ := hr
  obtain ⟨n, hn⟩ := hc.exists_of_mem (a := a) (by simp)
  have ha : a ∉ l₁ := hc.notMem_before
  obtain ⟨rfl, heq⟩ | ⟨l₃, p, m, rfl, hpa, hm, heq⟩ := deleteFromQueue_eq hc hn hfind
  · refine ⟨a, n, _, _, [], heq, by simp, hn, Function.update_self ..,
      (relinked_update hn none).mono (by simp), ?_, by simp, by simp, shortens_cut rfl⟩
    split_ifs <;> rfl
  · have hc' : Chain h Node.next q.head (l₃ ++ p :: a :: l₂) := by simpa using hc
    obtain ⟨hrelinked, hself⟩ := relinked_unlink hpa hn hm
      (if q.tail = some a then none else n.next)
    refine ⟨a, n, _, _, l₃ ++ p :: if q.tail = some a then [] else l₂, heq, by simp, hn, hself,
      hrelinked.mono (by simp), ?_, ?_, ?_, shortens_unlink hpa hc'.suffix hn⟩
    · have hchain := chain_unlink hpa hn (m := m) hc'
      split_ifs at hchain ⊢ <;> exact hchain
    · rw [List.erase_append_right _ ha, List.erase_cons_head]
      split_ifs <;> simp
    · split_ifs <;> simp

end UserOS.Worker
