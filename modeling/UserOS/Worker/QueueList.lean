import UserOS.Lib.Run
import UserOS.Worker.Queue

/-!
# A queue is a list

The operations on one queue against the operations on a list: append, take the first, and take out
the node of a thread wherever it is. `delete_from_queue` cuts the link of the node that it found
before it reads the new head through it, so that the first of several nodes takes the others along.

* `Refines`: the nodes from the head on are those of the list, and so is the node given back.
* `step_refines`: a call refines the list operation unless it deletes the first of several nodes.
* `queue_list_exact`: this over runs, in both directions.
-/

namespace UserOS.Worker

open Lib

/-! ## Operations -/

/-- The calls on one queue. -/
inductive QueueOp
  | enqueue (node : ℕ)
  | pop
  | delete (threadId : ℕ)
  deriving DecidableEq, Repr

/-- The call. Every control block exists, so that every id can be read. -/
def QueueOp.exec (fuel : ℕ) (h : Nodes) (q : Queue) : QueueOp → Option (Nodes × Queue × Option ℕ)
  | .enqueue a => (Worker.enqueue fuel h q a).map fun (h, q) => (h, q, none)
  | .pop => popFromQueue h q
  | .delete id => deleteFromQueue fuel h (fun _ => true) q id

/-- The same on a list of nodes, where `tcb` gives the thread of a node: what is left of the list,
and the node taken out. -/
def QueueOp.onList (tcb : ℕ → Option ℕ) (l : List ℕ) : QueueOp → List ℕ × Option ℕ
  | .enqueue a => (l ++ [a], none)
  | .pop => (l.tail, l.head?)
  | .delete id => (l.eraseP fun a => tcb a = some id, l.find? fun a => tcb a = some id)

/-- The nodes and the queue, with the list that goes with them, and the node that the last call gave
back beside the one that was taken from the list. -/
structure Paired where
  nodes : Nodes
  queue : Queue
  list : List ℕ
  returned : Option ℕ
  expected : Option ℕ

/-- An empty queue. -/
def Paired.empty (h : Nodes) : Paired := ⟨h, .empty, [], none, none⟩

/-- A node that is enqueued is in no list, has no link, and is of a thread that is not queued. -/
def QueueOp.Ready (s : Paired) : QueueOp → Prop
  | .enqueue a => a ∉ s.list ∧ ∃ id, s.nodes a = some ⟨id, none⟩ ∧
      ∀ b ∈ s.list, tcbOf s.nodes b ≠ some id
  | _ => True

/-- One call, on the queue and on the list. -/
def QueueOp.Step (s : Paired) (op : QueueOp) (s' : Paired) : Prop :=
  op.Ready s ∧ (∃ fuel, op.exec fuel s.nodes s.queue = some (s'.nodes, s'.queue, s'.returned)) ∧
    op.onList (tcbOf s.nodes) s.list = (s'.list, s'.expected)

/-- A deletion does not hit the head of a queue of two or more. -/
def QueueOp.Ok (s : Paired) : QueueOp → Prop
  | .delete id => ∀ a, s.queue.head = some a → tcbOf s.nodes a = some id →
      s.queue.head = s.queue.tail
  | _ => True

/-- The queue holds the list, and the last call gave back the right node, with its link cut. -/
structure Refines (s : Paired) : Prop where
  holds : Holds s.nodes s.queue s.list
  returned : s.returned = s.expected
  unlinked : ∀ a, s.returned = some a → ∃ id, s.nodes a = some ⟨id, none⟩

/-- What carries the induction: the queue holds the list, and no thread is queued twice. -/
structure Listed (s : Paired) : Prop where
  holds : Holds s.nodes s.queue s.list
  distinct : (s.list.map (tcbOf s.nodes)).Nodup

variable {s s' : Paired} {op : QueueOp} {h h' : Nodes} {q q' : Queue} {l l₁ l₂ : List ℕ}
  {a b id fuel : ℕ} {r : Option ℕ}

/-! ## Deletion -/

/-- The list operation at the node of the thread. -/
theorem onList_delete (hids : ((l₁ ++ a :: l₂).map (tcbOf h)).Nodup) (ha : tcbOf h a = some id) :
    QueueOp.onList (tcbOf h) (l₁ ++ a :: l₂) (.delete id) = (l₁ ++ l₂, some a) := by
  have hother : ∀ b ∈ l₁, ¬ tcbOf h b = some id := by
    intro b hb hid
    rw [List.map_append, List.map_cons, List.nodup_append] at hids
    exact hids.2.2 _ (List.mem_map_of_mem hb) _ List.mem_cons_self (hid.trans ha.symm)
  have hnone : l₁.find? (fun b => decide (tcbOf h b = some id)) = none := by
    rw [List.find?_eq_none]
    intro b hb
    simpa using hother b hb
  simp only [QueueOp.onList]
  rw [List.eraseP_append_right _ fun b hb => by simpa using hother b hb,
    List.eraseP_cons_of_pos (by simpa using ha), List.find?_append, hnone,
    List.find?_cons_of_pos (by simpa using ha)]
  rfl

/-- The list operation when the thread is not queued. -/
theorem onList_delete_absent (hne : ∀ b ∈ l, tcbOf h b ≠ some id) :
    QueueOp.onList (tcbOf h) l (.delete id) = (l, none) := by
  simp only [QueueOp.onList]
  rw [List.eraseP_of_forall_not fun b hb => by simpa using hne b hb, Prod.mk.injEq]
  refine ⟨rfl, List.find?_eq_none.2 fun b hb => ?_⟩
  simpa using hne b hb

/-- **The first of several.** Its link is cut and becomes the new head. -/
theorem deleteFromQueue_first (hq : Holds h q (a :: b :: l)) (ha : tcbOf h a = some id)
    (hd : deleteFromQueue fuel h (fun _ => true) q id = some (h', q', r)) : q'.head = none := by
  obtain ⟨n, hn, rfl⟩ := Option.map_eq_some_iff.1 ha
  have hhead : q.head = some a := hq.head
  have htail : q.head ≠ q.tail := by
    rw [hhead, hq.tail, List.getLast?_cons_cons]
    intro heq
    have hmem : a ∈ b :: l := List.mem_of_getLast? heq.symm
    exact (List.nodup_cons.1 hq.chain.nodup).1 hmem
  obtain ⟨⟨prev, head⟩, hf, hd⟩ := Option.bind_eq_some_iff.1 hd
  have hfound : (prev, head) = ((none : Option ℕ), some a) :=
    walk_found_eq (show Chain h Node.next q.head ([] ++ a :: b :: l) from hq.chain) (by simp) hn
      (by simp) hf
  rw [Prod.mk.injEq] at hfound
  obtain ⟨rfl, rfl⟩ := hfound
  simp only [hn, setNext_eq hn, Option.bind_eq_bind, Option.bind_some, if_pos hhead, if_neg htail,
    Function.update_self, Option.some.injEq, Prod.mk.injEq] at hd
  rw [← hd.2.1]

/-! ## One call -/

/-- **One call** that does not delete the first of several nodes does to the queue what it does to
the list. -/
theorem step_refines (hl : Listed s) (hok : op.Ok s) (hs : op.Step s s') :
    Listed s' ∧ Refines s' := by
  obtain ⟨hready, ⟨fuel, hexec⟩, hlist⟩ := hs
  have hkept : ∀ {l l' : List ℕ}, Relinked s.nodes s'.nodes l' → (l.map (tcbOf s.nodes)).Nodup →
      (l.map (tcbOf s'.nodes)).Nodup := by
    intro l l' hr hnd
    have htcb : tcbOf s'.nodes = tcbOf s.nodes := funext hr.tcb
    rwa [htcb]
  cases op with
  | enqueue a =>
    obtain ⟨ha, id, hn, hnew⟩ := hready
    obtain ⟨h', q', henq, hholds, hr⟩ := enqueue_spec fuel hl.holds ha hn
    simp only [QueueOp.exec, henq, Option.map_some, Option.some.injEq, Prod.mk.injEq] at hexec
    obtain ⟨rfl, rfl, hret⟩ := hexec
    simp only [QueueOp.onList, Prod.mk.injEq] at hlist
    obtain ⟨hl', hexp⟩ := hlist
    rw [hl'] at hholds
    have hids : ((s.list ++ [a]).map (tcbOf s.nodes)).Nodup := by
      rw [List.map_append, List.nodup_append]
      refine ⟨hl.distinct, List.nodup_singleton _, ?_⟩
      intro x hx y hy
      obtain ⟨b, hb, rfl⟩ := List.mem_map.1 hx
      rw [List.mem_singleton.1 hy, show tcbOf s.nodes a = some id by simp [tcbOf, hn]]
      exact hnew b hb
    refine ⟨⟨hholds, ?_⟩, hholds, hret.symm.trans hexp, ?_⟩
    · rw [← hl']
      exact hkept hr hids
    · intro b hb
      rw [← hret] at hb
      cases hb
  | pop =>
    simp only [QueueOp.exec] at hexec
    simp only [QueueOp.onList, Prod.mk.injEq] at hlist
    obtain ⟨hl', hexp⟩ := hlist
    have hholds := hl.holds
    have hids := hl.distinct
    cases hcase : s.list with
    | nil =>
      rw [hcase] at hholds hids hl' hexp
      have hhead : s.queue.head = none := hholds.head
      rw [popFromQueue_nil hhead, Option.some.injEq, Prod.mk.injEq, Prod.mk.injEq] at hexec
      obtain ⟨hnodes, hqueue, hret⟩ := hexec
      rw [hnodes, hqueue, ← @List.tail_nil ℕ, hl'] at hholds
      refine ⟨⟨hholds, ?_⟩, hholds, hret.symm.trans hexp, ?_⟩
      · rw [← hl']
        exact List.nodup_nil
      · intro b hb
        rw [← hret] at hb
        cases hb
    | cons a l =>
      rw [hcase] at hholds hids hl' hexp
      obtain ⟨h', q', n, hpop, hholds', hn, hn', hr⟩ := popFromQueue_spec hholds
      rw [hpop, Option.some.injEq, Prod.mk.injEq, Prod.mk.injEq] at hexec
      obtain ⟨rfl, rfl, hret⟩ := hexec
      rw [List.tail_cons] at hl'
      rw [hl'] at hholds'
      refine ⟨⟨hholds', ?_⟩, hholds', hret.symm.trans hexp, ?_⟩
      · rw [← hl']
        exact hkept hr (List.nodup_cons.1 hids).2
      · intro b hb
        rw [← hret] at hb
        cases hb
        exact ⟨n.tcb, hn'⟩
  | delete id =>
    simp only [QueueOp.exec] at hexec
    obtain ⟨hret, hnodes, hqueue, habs⟩ | ⟨l₁, a, l₂, n, hsplit, hn, hid, hret, hr, hn', hholds⟩ :=
      deleteFromQueue_spec hl.holds (fun _ _ _ _ => rfl) hl.distinct hexec
    · rw [onList_delete_absent habs, Prod.mk.injEq] at hlist
      obtain ⟨hl', hexp⟩ := hlist
      have hholds := hl.holds
      have hids := hl.distinct
      rw [hl'] at hholds hids
      rw [← hnodes, ← hqueue] at hholds
      rw [← hnodes] at hids
      refine ⟨⟨hholds, hids⟩, hholds, hret.trans hexp, ?_⟩
      intro b hb
      rw [hret] at hb
      cases hb
    · have hids := hl.distinct
      have hida : tcbOf s.nodes a = some id := by simp [tcbOf, hn, hid]
      rw [hsplit] at hids hlist
      rw [onList_delete hids hida, Prod.mk.injEq] at hlist
      obtain ⟨hl', hexp⟩ := hlist
      -- The node is not the first of several.
      have hone : l₁ ≠ [] ∨ l₂ = [] := by
        rcases l₁ with - | ⟨c, l₁⟩
        · right
          have hhead : s.queue.head = some a := by
            rw [hl.holds.head, hsplit]
            rfl
          have hlast := hok a hhead hida
          rw [hhead, hl.holds.tail, hsplit, List.nil_append] at hlast
          rcases List.eq_nil_or_concat l₂ with rfl | ⟨l₂, b, rfl⟩
          · rfl
          · rw [List.concat_eq_append, ← List.cons_append, List.getLast?_concat] at hlast
            have hnd := hl.holds.chain.nodup
            rw [hsplit, Option.some.inj hlast] at hnd
            simp at hnd
        · exact .inl (List.cons_ne_nil _ _)
      have hholds' := hholds hone
      rw [hl'] at hholds'
      refine ⟨⟨hholds', ?_⟩, hholds', hret.trans hexp, ?_⟩
      · rw [← hl']
        refine hkept hr (hids.sublist ?_)
        exact ((List.Sublist.refl l₁).append (List.sublist_cons_self a l₂)).map _
      · intro b hb
        rw [hret] at hb
        cases hb
        exact ⟨id, hn'⟩

/-- A call that keeps the queue in step with the list does not delete the first of several. -/
theorem ok_of_refines (hl : Listed s) (hs : op.Step s s') (hr : Refines s') : op.Ok s := by
  obtain ⟨-, ⟨fuel, hexec⟩, hlist⟩ := hs
  cases op with
  | enqueue a => trivial
  | pop => trivial
  | delete id =>
    intro a hhead hid
    have hholds := hl.holds
    have hids := hl.distinct
    cases hcase : s.list with
    | nil =>
      rw [hholds.head, hcase] at hhead
      cases hhead
    | cons c l =>
      obtain rfl : c = a := by
        rw [hholds.head, hcase] at hhead
        exact Option.some.inj hhead
      rw [hcase] at hholds hids hlist
      rcases l with - | ⟨b, l⟩
      · rw [hhead, hholds.tail]
        rfl
      · have hempty := deleteFromQueue_first hholds hid hexec
        have hlist' : QueueOp.onList _ ([] ++ c :: b :: l) (.delete id) = _ :=
          onList_delete hids hid
        rw [List.nil_append, hlist, List.nil_append, Prod.mk.injEq] at hlist'
        have hhead' := hr.holds.head
        rw [hempty, hlist'.1] at hhead'
        cases hhead'

/-- Every call returns. -/
theorem step_returns (hl : Listed s) (hready : op.Ready s) : ∃ s', op.Step s s' := by
  suffices hexec : ∃ r, op.exec (s.list.length + 1) s.nodes s.queue = some r by
    obtain ⟨⟨nodes, queue, returned⟩, hexec⟩ := hexec
    exact ⟨⟨nodes, queue, _, returned, _⟩, hready, ⟨_, hexec⟩, rfl⟩
  cases op with
  | enqueue a =>
    obtain ⟨ha, id, hn, -⟩ := hready
    obtain ⟨h', q', henq, -⟩ := enqueue_spec (s.list.length + 1) hl.holds ha hn
    exact ⟨_, by rw [QueueOp.exec, henq]; rfl⟩
  | pop =>
    have hholds := hl.holds
    cases hcase : s.list with
    | nil =>
      rw [hcase] at hholds
      exact ⟨_, popFromQueue_nil hholds.head⟩
    | cons a l =>
      rw [hcase] at hholds
      obtain ⟨h', q', n, hpop, -⟩ := popFromQueue_spec hholds
      exact ⟨_, hpop⟩
  | delete id =>
    obtain heq | ⟨a, n, h', q', l', heq, -⟩ := deleteFromQueue_returns (fun _ => true) id
      hl.holds.chain (fun _ _ _ _ => rfl) (Nat.lt_succ_self _)
    · exact ⟨_, heq⟩
    · exact ⟨_, heq⟩

/-! ## Runs -/

theorem listed_empty : Listed (.empty h) := ⟨⟨rfl, rfl⟩, List.nodup_nil⟩

/-- **A queue is a list** in every state reached by calls none of which deletes the first of several
nodes, and these calls return; and a run through states in which it is a list has only such
calls. -/
theorem queue_list_exact (h : Nodes) (ops : List QueueOp) (s : Paired) :
    (Run (Guarded QueueOp.Ok QueueOp.Step) (.empty h) ops s →
      Refines s ∧ ∀ op : QueueOp, op.Ready s → ∃ s', op.Step s s') ∧
    (Run (Reaching Refines QueueOp.Step) (.empty h) ops s →
      Run (Guarded QueueOp.Ok QueueOp.Step) (.empty h) ops s) := by
  constructor
  · intro hrun
    have hboth := hrun.invariant (I := fun s => Listed s ∧ Refines s)
      ⟨listed_empty, ⟨rfl, rfl⟩, rfl, fun _ ha => nomatch ha⟩
      fun _ _ _ hI hs => step_refines hI.1 hs.1 hs.2
    exact ⟨hboth.2, fun op hready => step_returns hboth.1 hready⟩
  · exact Run.guarded_of_reaching (I := Listed) listed_empty
      (fun _ _ _ hI hok hs => (step_refines hI hok hs).1)
      fun _ _ _ hI hs hgood => ok_of_refines hI hs hgood

/-- A call that returns is a step. -/
theorem step_of_exec (fuel : ℕ) {nodes : Nodes} {queue : Queue} (hready : op.Ready s)
    (he : op.exec fuel s.nodes s.queue = some (nodes, queue, r)) :
    op.Step s ⟨nodes, queue, (op.onList (tcbOf s.nodes) s.list).1, r,
      (op.onList (tcbOf s.nodes) s.list).2⟩ := ⟨hready, ⟨fuel, he⟩, rfl⟩

/-- Two nodes, of the threads 11 and 12. -/
def twoNodes : Nodes := fun a => if a = 1 ∨ a = 2 then some ⟨a + 10, none⟩ else none

/-- The queue of the two nodes. -/
def twoQueued : Paired :=
  ⟨Function.update twoNodes 1 (some ⟨11, some 2⟩), ⟨some 1, some 2⟩, [1, 2], none, none⟩

theorem twoQueued_run :
    Run (Guarded QueueOp.Ok QueueOp.Step) (.empty twoNodes) [.enqueue 1, .enqueue 2] twoQueued := by
  have hfirst : QueueOp.Step (.empty twoNodes) (.enqueue 1)
      ⟨twoNodes, ⟨some 1, some 1⟩, [1], none, none⟩ :=
    step_of_exec 1 ⟨List.not_mem_nil, 11, rfl, fun b hb => nomatch hb⟩ rfl
  have hsecond : QueueOp.Step ⟨twoNodes, ⟨some 1, some 1⟩, [1], none, none⟩ (.enqueue 2)
      twoQueued := step_of_exec 1 ⟨by decide, 12, rfl, by decide⟩ rfl
  exact (Run.single ⟨trivial, hfirst⟩).snoc ⟨trivial, hsecond⟩

/-- The second of two nodes is deleted. -/
theorem queue_list_exact_second : ∃ s, Run (Guarded QueueOp.Ok QueueOp.Step) (.empty twoNodes)
    [.enqueue 1, .enqueue 2, .delete 12] s ∧ s.list = [1] ∧ Refines s := by
  have hdelete : QueueOp.Step twoQueued (.delete 12) _ := step_of_exec 3 trivial rfl
  have hok : QueueOp.Ok twoQueued (.delete 12) := by
    intro a ha hid
    cases ha
    cases hid
  have hrun := twoQueued_run.snoc ⟨hok, hdelete⟩
  exact ⟨_, hrun, rfl, ((queue_list_exact twoNodes _ _).1 hrun).1⟩

/-- **The defect.** The first of two nodes is deleted, and the queue is empty. -/
theorem delete_first_loses_second :
    ¬∀ (h : Nodes) (ops : List QueueOp) (s : Paired),
      Run QueueOp.Step (.empty h) ops s → Refines s := by
  intro hall
  have hdelete : QueueOp.Step twoQueued (.delete 11) _ := step_of_exec 3 trivial rfl
  have hrun := (twoQueued_run.mono fun _ _ _ hs => hs.2).snoc hdelete
  have hlist := (hall _ _ _ hrun).holds.head
  revert hlist
  decide

end UserOS.Worker
