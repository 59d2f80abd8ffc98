import UserOS.Worker.Preemption
import UserOS.Worker.Unblock

/-!
# Mutual exclusion and ownership

The words `is_locked` and `owner` are written one after the other, so that `owner` may be stale. A
thread that it names either holds the mutex or is about to overwrite it, and that is enough for
mutual exclusion. It is not enough for the holder: the late store of a thread that gave the mutex up
can hit the name of the next one.

* `mutual_exclusion`: at most one thread holds the mutex, whatever the timer does.
* `owner_consistent`: when no late store hits the name of a holder, the holder is always named, and
  its unlock returns 0.
-/

namespace UserOS.Worker

open Lib

variable {mutex id fuel : ℕ} {f g h : Threaded} {e : Move} {b b' : Bool} {o o' : ℤ} {pc' : Pc}
  {mem : State} {pc : Pc} {es fs : List Move}

/-! ## Mutual exclusion -/

/-- The words are `b` and `o`, and at most one thread holds the mutex, if it is locked. -/
structure Exclusive (mutex : ℕ) (f : Threaded) (b : Bool) (o : ℤ) : Prop where
  words : words f.mem mutex = some (b, o)
  unique : ∀ i j, f.holds i = true → f.holds j = true → i = j
  locked : b = true ↔ ∃ i, f.holds i = true
  critical : ∀ i, (f.pc i).critical = true → f.pc i ≠ .unlockOwner → f.holds i = true
  owner : ∀ i : ℕ, o = i → f.holds i = true ∨ f.pc i = .unlockOwner

/-- The state after a statement of thread `id`. -/
def Threaded.next (f : Threaded) (mem : State) (id : ℕ) (pc' : Pc) : Threaded :=
  ⟨mem, Function.update f.pc id pc',
    Function.update f.holds id (holdsAfter (f.pc id) pc' (f.holds id))⟩

theorem next_pc_self : (f.next mem id pc').pc id = pc' := Function.update_self ..

theorem next_pc_of_ne {i : ℕ} (hi : i ≠ id) : (f.next mem id pc').pc i = f.pc i :=
  Function.update_of_ne hi ..

theorem next_holds_of_ne {i : ℕ} (hi : i ≠ id) : (f.next mem id pc').holds i = f.holds i :=
  Function.update_of_ne hi ..

theorem next_holds_self : (f.next mem id pc').holds id = holdsAfter (f.pc id) pc' (f.holds id) :=
  Function.update_self ..

/-- A statement that neither takes the mutex nor gives it up changes no holder. -/
theorem next_holds (hpc : f.pc id = pc) (hacq : pc ≠ .lockTest ∨ pc' ≠ .takeOwner)
    (hclr : pc ≠ .unlockClear) : (f.next mem id pc').holds = f.holds := by
  funext i
  by_cases hi : i = id
  · subst hi
    rw [next_holds_self, holdsAfter, hpc, if_neg (not_and_or.2 hacq), if_neg hclr]
  · exact next_holds_of_ne hi

/-- A statement that leaves the words, and arrives at a critical one only if its thread holds the
mutex. -/
theorem Exclusive.stay (hx : Exclusive mutex f b o) (hw : Worker.words mem mutex = some (b, o))
    (hpc : f.pc id = pc) (hacq : pc ≠ .lockTest ∨ pc' ≠ .takeOwner) (hclr : pc ≠ .unlockClear)
    (hown : pc ≠ .unlockOwner) (hcrit : pc'.critical = true → f.holds id = true) :
    Exclusive mutex (f.next mem id pc') b o := by
  have hholds : (f.next mem id pc').holds = f.holds := next_holds hpc hacq hclr
  refine ⟨hw, hholds ▸ hx.unique, hholds ▸ hx.locked, fun i hi hne => ?_, fun i hi => ?_⟩
  · rw [hholds]
    by_cases hii : i = id
    · subst hii
      rw [next_pc_self] at hi
      exact hcrit hi
    · rw [next_pc_of_ne hii] at hi hne
      exact hx.critical i hi hne
  · rw [hholds]
    refine (hx.owner i hi).imp_right fun h => ?_
    have hii : i ≠ id := fun heq => hown (by rw [← hpc, ← heq, h])
    rw [next_pc_of_ne hii, h]

/-- **One statement** keeps the invariant. -/
theorem Exclusive.statement (hx : Exclusive mutex f b o)
    (hw : Worker.words mem mutex = some (b', o'))
    (hm : Moves id (b, o) (f.pc id) (b', o') pc') : Exclusive mutex (f.next mem id pc') b' o' := by
  generalize hpc : f.pc id = pc at hm
  have hcrit : pc.critical = true → pc ≠ .unlockOwner → f.holds id = true := by
    intro h hne
    rw [← hpc] at h hne
    exact hx.critical id h hne
  have hkeep : pc ≠ .lockTest → pc ≠ .unlockClear → (f.next mem id pc').holds = f.holds :=
    fun h h' => next_holds hpc (.inl h) h'
  cases hm with
  | acquire =>
    -- No one holds the mutex yet.
    have hnone : ∀ i, f.holds i ≠ true := fun i hi => by
      have h := hx.locked.2 ⟨i, hi⟩
      cases h
    have hself : (f.next mem id .takeOwner).holds id = true := by
      rw [next_holds_self, hpc]
      rfl
    have honly : ∀ i, (f.next mem id .takeOwner).holds i = true → i = id := by
      intro i hi
      by_contra hii
      rw [next_holds_of_ne hii] at hi
      exact hnone i hi
    refine ⟨hw, fun i j hi hj => (honly i hi).trans (honly j hj).symm, ⟨fun _ => ⟨id, hself⟩,
      fun _ => rfl⟩, fun i hi hne => ?_, fun i hi => ?_⟩
    · by_cases hii : i = id
      · exact hii ▸ hself
      · rw [next_pc_of_ne hii] at hi hne
        exact absurd (hx.critical i hi hne) (hnone i)
    · have howner := (hx.owner i hi).resolve_left (hnone i)
      have hii : i ≠ id := fun heq => by
        rw [heq, hpc] at howner
        cases howner
      exact .inr (by rw [next_pc_of_ne hii, howner])
  | fail =>
    exact hx.stay hw hpc (.inr (by decide)) (by decide) (by decide) fun h => (nomatch h)
  | setOwner =>
    have hself : f.holds id = true := hcrit rfl (by decide)
    have hholds := hkeep (by decide) (by decide)
    refine ⟨hw, hholds ▸ hx.unique, hholds ▸ hx.locked, fun i hi hne => ?_, fun i hi => ?_⟩
    · rw [hholds]
      by_cases hii : i = id
      · exact hii ▸ hself
      · rw [next_pc_of_ne hii] at hi hne
        exact hx.critical i hi hne
    · rw [hholds]
      exact .inl (Int.ofNat_inj.1 hi ▸ hself)
  | setLocked =>
    have hself : f.holds id = true := hcrit rfl (by decide)
    obtain rfl := hx.locked.2 ⟨id, hself⟩
    exact hx.stay hw hpc (.inl (by decide)) (by decide) (by decide) fun _ => hself
  | mayClear =>
    have hself : f.holds id = true := by
      refine (hx.owner id rfl).resolve_right fun h => ?_
      rw [hpc] at h
      cases h
    exact hx.stay hw hpc (.inl (by decide)) (by decide) (by decide) fun _ => hself
  | clear =>
    -- The holder gives the mutex up.
    have hself : f.holds id = true := hcrit rfl (by decide)
    have hnone : ∀ i, (f.next mem id .unlockOwner).holds i ≠ true := fun i hi => by
      by_cases hii : i = id
      · subst hii
        rw [next_holds_self, hpc] at hi
        cases hi
      · rw [next_holds_of_ne hii] at hi
        exact hii (hx.unique i id hi hself)
    refine ⟨hw, fun i _ hi => absurd hi (hnone i), ⟨fun h => (nomatch h), fun ⟨i, hi⟩ =>
      absurd hi (hnone i)⟩, fun i hi hne => ?_, fun i hi => .inr ?_⟩
    · have hii : i ≠ id := fun heq => hne (heq ▸ next_pc_self)
      rw [next_pc_of_ne hii] at hi hne
      exact absurd (hx.unique i id (hx.critical i hi hne) hself) hii
    · by_cases hii : i = id
      · exact hii ▸ next_pc_self
      · rw [next_pc_of_ne hii]
        exact (hx.owner i hi).resolve_left fun h => hii (hx.unique i id h hself)
  | clearOwner =>
    have hholds := hkeep (by decide) (by decide)
    refine ⟨hw, hholds ▸ hx.unique, hholds ▸ hx.locked, fun i hi hne => ?_, fun i hi => ?_⟩
    · rw [hholds]
      have hii : i ≠ id := fun heq => by
        rw [heq, next_pc_self] at hi
        cases hi
      rw [next_pc_of_ne hii] at hi hne
      exact hx.critical i hi hne
    · exact absurd hi.symm (by simp)
  | other hwrites hcritical =>
    refine hx.stay hw hpc (.inl ?_) ?_ ?_ fun h => by rw [hcritical] at h; cases h
    all_goals
      rintro rfl
      cases hwrites

/-- A switch. -/
theorem Exclusive.switch (hx : Exclusive mutex f b o)
    (hm : mem.mutexes mutex = f.mem.mutexes mutex) : Exclusive mutex { f with mem := mem } b o where
  words := by
    rw [← hx.words, Worker.words, hm, Worker.words]
  unique := hx.unique
  locked := hx.locked
  critical := hx.critical
  owner := hx.owner

/-- A step that executes no statement. -/
theorem Exclusive.jump (hx : Exclusive mutex f b o) (hm : mem.mutexes mutex = f.mem.mutexes mutex)
    (hpc : f.pc id = .idle ∨ f.pc id = .lockYield) (hpc' : pc' = .lockTest ∨ pc' = .unlockTest) :
    Exclusive mutex { f with mem := mem, pc := Function.update f.pc id pc' } b o := by
  have hw := (hx.switch hm).words
  have hnext : Exclusive mutex (f.next mem id pc') b o := by
    rcases hpc with hpc | hpc
    · refine hx.stay hw hpc (.inl (by decide)) (by decide) (by decide) fun h => ?_
      rcases hpc' with rfl | rfl <;> cases h
    · refine hx.stay hw hpc (.inl (by decide)) (by decide) (by decide) fun h => ?_
      rcases hpc' with rfl | rfl <;> cases h
  have hholds : (f.next mem id pc').holds = f.holds := by
    rcases hpc with hpc | hpc <;> exact next_holds hpc (.inl (by decide)) (by decide)
  exact ⟨hw, hx.unique, hx.locked, hholds ▸ hnext.critical, hholds ▸ hnext.owner⟩

theorem turn_exclusive (hx : ∃ b o, Exclusive mutex f b o) (ht : Turn mutex f e g) :
    ∃ b o, Exclusive mutex g b o := by
  obtain ⟨b, o, hx⟩ := hx
  cases ht with
  | switch _ hm => exact ⟨b, o, hx.switch hm⟩
  | yield _ hpc hm => exact ⟨b, o, hx.jump hm (.inr hpc) (.inl rfl)⟩
  | advance ha =>
    cases ha with
    | call _ hpc hpc' => exact ⟨b, o, hx.jump rfl (.inl hpc) hpc'⟩
    | statement _ hs =>
      obtain ⟨⟨b', o'⟩, hw, hm⟩ := statement_moves hs hx.words
      exact ⟨b', o', hx.statement hw hm⟩

theorem initialised_exclusive (h₀ : Initialised mutex f) : Exclusive mutex f false (-1) := by
  obtain ⟨⟨s, hs⟩, hpc, hholds⟩ := h₀
  have hnone : ∀ i, f.holds i ≠ true := fun i => by simp [hholds i]
  refine ⟨?_, fun i _ hi => absurd hi (hnone i), ⟨fun h => (nomatch h), fun ⟨i, hi⟩ =>
    absurd hi (hnone i)⟩, fun i hi => ?_, fun i hi => absurd hi.symm (by simp)⟩
  · injection hs with hmem
    rw [← hmem]
    simp [Worker.words, State.setMutex]
  · rw [hpc i] at hi
    cases hi

theorem run_exclusive (h₀ : Initialised mutex f) (hr : Run (Turn mutex) f es g) :
    ∃ b o, Exclusive mutex g b o :=
  hr.invariant (I := fun f => ∃ b o, Exclusive mutex f b o) ⟨_, _, initialised_exclusive h₀⟩
    fun _ _ _ hx ht => turn_exclusive hx ht

/-- Only the statements that write the words change them. -/
theorem Moves.words_eq {w w' : Bool × ℤ} (hm : Moves id w pc w' pc') (hpc : pc.writes = false) :
    w' = w := by
  cases hm with
  | mayClear | other => rfl
  | acquire | fail | setOwner | setLocked | clear | clearOwner => cases hpc

/-- A step in which a thread does not move leaves its program counter and its holding the mutex. -/
theorem turn_other (ht : Turn mutex f e g) (hcall : ∀ pc, e ≠ .call id pc)
    (hstatement : ∀ ret, e ≠ .statement id ret) (hyield : f.pc id ≠ .lockYield) :
    g.pc id = f.pc id ∧ g.holds id = f.holds id := by
  cases ht with
  | switch => exact ⟨rfl, rfl⟩
  | @yield i _ _ hpc _ =>
    have hi : id ≠ i := fun heq => hyield (heq ▸ hpc)
    exact ⟨Function.update_of_ne hi _ _, rfl⟩
  | advance ha =>
    cases ha with
    | @call i pc _ _ _ =>
      have hi : id ≠ i := fun heq => hcall pc (by rw [heq])
      exact ⟨Function.update_of_ne hi _ _, rfl⟩
    | @statement i _ mem pc ret _ _ =>
      have hi : id ≠ i := fun heq => hstatement ret (by rw [heq])
      exact ⟨Function.update_of_ne hi _ _, Function.update_of_ne hi _ _⟩

/-- Between two calls of a thread, what its statements keep of its program counter and of its
holding the mutex stays. -/
theorem during_call {I : Threaded → Prop} {P : Pc → Bool → Prop} {ok : Threaded → Move → Prop}
    (hI : I f) (hP : P (f.pc id) (f.holds id))
    (hkeep : ∀ g e h, I g → Guarded ok (Turn mutex) g e h → I h) (hyield : ∀ c, ¬P .lockYield c)
    (hstep : ∀ g ret h, I g → Guarded ok (Turn mutex) g (.statement id ret) h →
      P (g.pc id) (g.holds id) → P (h.pc id) (h.holds id))
    (hr : Run (Guarded ok (Turn mutex)) f es g) (hcall : ∀ pc, .call id pc ∉ es) :
    I g ∧ P (g.pc id) (g.holds id) := by
  induction hr with
  | nil => exact ⟨hI, hP⟩
  | @snoc es g h e hr hs ih =>
    obtain ⟨hIg, hPg⟩ := ih fun pc hmem => hcall pc (List.mem_append_left _ hmem)
    refine ⟨hkeep g e h hIg hs, ?_⟩
    by_cases hst : ∃ ret, e = .statement id ret
    · obtain ⟨ret, rfl⟩ := hst
      exact hstep g ret h hIg hs hPg
    · obtain ⟨hpc, hholds⟩ : h.pc id = g.pc id ∧ h.holds id = g.holds id :=
        turn_other hs.2 (fun pc heq => hcall pc (by simp [heq])) (fun ret heq => hst ⟨ret, heq⟩)
          fun heq => hyield _ (heq ▸ hPg)
      rwa [hpc, hholds]

/-- In a call of `worker_mutex_unlock` by a thread that does not hold the mutex. -/
def Intrudes (pc : Pc) (holds : Bool) : Prop :=
  (pc = .unlockTest ∨ pc = .unlockSame ∨ pc = .idle) ∧ holds = false

theorem intrudes_statement {ret : Option ℤ} (hx : Exclusive mutex f b o)
    (hs : Turn mutex f (.statement id ret) g) (hin : Intrudes (f.pc id) (f.holds id)) :
    Intrudes (g.pc id) (g.holds id) ∧ words g.mem mutex = words f.mem mutex := by
  obtain ⟨hpc, hholds⟩ := hin
  cases hs with
  | switch h => rcases h with h | h <;> cases h
  | advance ha =>
    cases ha with
    | @statement _ _ mem pc' _ hid hst =>
      obtain ⟨w', hw', hm⟩ := statement_moves hst hx.words
      have hflow := statement_flow hst
      have hkeep : holdsAfter (f.pc id) pc' (f.holds id) = false := by
        rcases hpc with h | h | h <;> rw [h, hholds] <;> rfl
      have hwrites : (f.pc id).writes = false := by
        rcases hpc with h | h | h <;> rw [h] <;> rfl
      have hwords : words mem mutex = words f.mem mutex := by
        rw [hw', hx.words, hm.words_eq hwrites]
      refine ⟨⟨?_, next_holds_self.trans hkeep⟩, hwords⟩
      change (f.next mem id pc').pc id = _ ∨ (f.next mem id pc').pc id = _ ∨
        (f.next mem id pc').pc id = _
      rw [next_pc_self]
      rcases hpc with h | h | h
      · rw [h] at hflow
        simp only [Pc.flow, List.mem_cons, Prod.mk.injEq, List.not_mem_nil, or_false] at hflow
        exact .inr (hflow.imp And.left And.left)
      · rw [h] at hflow hm
        simp only [Pc.flow, List.mem_cons, Prod.mk.injEq, List.not_mem_nil, or_false] at hflow
        refine .inr (.inr (hflow.resolve_left fun hclear => ?_).1)
        -- The thread is not named: it would hold the mutex or be in its release.
        rw [hclear.1] at hm
        cases hm with
        | mayClear =>
          rcases hx.owner id rfl with hown | hown
          · rw [hholds] at hown
            cases hown
          · rw [h] at hown
            cases hown
        | other _ hcritical => cases hcritical
      · rw [h] at hflow
        cases hflow

/-- **Mutual exclusion.** Whatever the timer does, at most one thread holds the mutex, it is locked
while one does, and a call of `worker_mutex_unlock` by a thread that does not hold it leaves the
words alone. -/
theorem mutual_exclusion (h₀ : Initialised mutex f) (hr : Run (Turn mutex) f es g) :
    (∀ i j, g.holds i = true → g.holds j = true → i = j) ∧
    ((∃ i, g.holds i = true) → ∃ o, words g.mem mutex = some (true, o)) ∧
    ∀ id fs h ret k, g.pc id = .unlockTest → g.holds id = false → Run (Turn mutex) g fs h →
      (∀ pc, .call id pc ∉ fs) → Turn mutex h (.statement id ret) k →
      words k.mem mutex = words h.mem mutex := by
  obtain ⟨b, o, hx⟩ := run_exclusive h₀ hr
  refine ⟨hx.unique, fun hex => ⟨o, ?_⟩, fun id fs h ret k hpc hholds hr hcall hs => ?_⟩
  · rw [hx.words, hx.locked.2 hex]
  · have hrun : Run (Guarded (fun _ _ => True) (Turn mutex)) g fs h :=
      hr.mono fun _ _ _ ht => ⟨trivial, ht⟩
    obtain ⟨⟨b', o', hx'⟩, hin⟩ := during_call (P := Intrudes)
      (I := fun f => ∃ b o, Exclusive mutex f b o) ⟨b, o, hx⟩ ⟨.inl hpc, hholds⟩
      (fun _ _ _ hx ht => turn_exclusive hx ht.2)
      (fun _ h => by rcases h.1 with h | h | h <;> cases h)
      (fun _ _ _ ⟨_, _, hx⟩ ht hin => (intrudes_statement hx ht.2 hin).1) hrun hcall
    exact (intrudes_statement hx' hs hin).2

/-- The main thread takes the mutex. -/
theorem mutual_exclusion_lock : ∃ o,
    words (played 0 [.create, .call 0 .lockTest, .statement 0 none]).mem 0 = some (true, o) :=
  (mutual_exclusion initialised_start ((run_played rfl).mono fun _ _ _ h => h.turn)).2.1 ⟨0, rfl⟩

/-! ## The owner -/

/-- A call and whether the thread has the mutex by its calls, after a move of thread `id`. -/
def Move.record (id : ℕ) (r : Pc × Bool) : Move → Pc × Bool
  | .call i pc => if i = id then (pc, r.2) else r
  | .statement i ret => if i = id ∧ ret = some 0 then (r.1, decide (r.1 = .lockTest)) else r
  | _ => r

/-- The last call of thread `id`, and whether its last successful one is a `worker_mutex_lock`. -/
def record (id : ℕ) (es : List Move) : Pc × Bool := es.foldl (Move.record id) (.idle, false)

/-- A `worker_mutex_lock` of thread `id` returned 0, and since then no `worker_mutex_unlock` of it
did. -/
def Unmatched (id : ℕ) (es : List Move) : Prop := (record id es).2 = true

/-- The function that a statement belongs to, named by its first statement. -/
def Pc.function : Pc → Pc
  | .idle => .idle
  | .unlockTest | .unlockSame | .unlockClear | .unlockOwner | .unlockHead | .unlockThreads
  | .unlockEmpty => .unlockTest
  | _ => .lockTest

/-- Whether the mutex is taken, or given up, in the middle of the call. -/
def Pc.decided : Pc → Option Bool
  | .takeOwner | .takeLocked | .takeCheck | .takeFrom | .takeFlag | .unlockClear => some true
  | .unlockOwner | .unlockHead | .unlockThreads | .unlockEmpty => some false
  | _ => none

/-- The record of a thread tells its call, and whether it holds the mutex as long as the call has
not decided it. -/
structure Recorded (f : Threaded) (id : ℕ) (r : Pc × Bool) : Prop where
  function : f.pc id ≠ .idle → r.1 = (f.pc id).function
  holds : f.holds id = ((f.pc id).decided).getD r.2

/-- No call is in progress but calls of `worker_mutex_lock` that have not taken the mutex, those of
the threads that are blocked among them. -/
def Quiescent (f : Threaded) : Prop :=
  ∀ id, f.pc id = .idle ∨ (f.pc id).function = .lockTest ∧ (f.pc id).decided = none

/-- A thread that finds itself named holds the mutex. -/
theorem Exclusive.named (hx : Exclusive mutex f b o) (ho : o = id)
    (hpc : f.pc id ≠ .unlockOwner) : f.holds id = true :=
  (hx.owner id ho).resolve_right hpc

theorem lockSame_owner {s s' : State} {ret : Option ℤ}
    (hs : statement fuel mutex s id .lockSame = some (s', .idle, ret))
    (hw : words s mutex = some (b, o)) : o = id := by
  obtain ⟨m, hm, hmw⟩ := Option.bind_eq_some_iff.1 hw
  cases hmw
  simp only [statement, hm, Option.bind_eq_bind, Option.bind_some] at hs
  split_ifs at hs with ho
  · exact ho
  · cases hs

theorem recorded_flow {r : Pc × Bool} {ret : Option ℤ} {c : Bool} (hflow : (pc', ret) ∈ pc.flow)
    (hfun : pc ≠ .idle → r.1 = pc.function) (hc : c = pc.decided.getD r.2)
    (hsame : pc = .lockSame → pc' = .idle → c = true)
    (hclear : pc = .unlockSame → pc' = .unlockClear → c = true) :
    (pc' ≠ .idle → r.1 = pc'.function) ∧
      holdsAfter pc pc' c =
        pc'.decided.getD (if ret = some 0 then decide (r.1 = .lockTest) else r.2) := by
  cases pc with
  | idle | lockYield => cases hflow
  | lockTest | lockSame | unlockTest | unlockSame | unlockHead =>
    simp only [Pc.flow, List.mem_cons, Prod.mk.injEq, List.not_mem_nil, or_false] at hflow
    rcases hflow with ⟨rfl, rfl⟩ | ⟨rfl, rfl⟩ <;> simp_all [Pc.function, Pc.decided, holdsAfter]
  | _ =>
    simp only [Pc.flow, List.mem_cons, Prod.mk.injEq, List.not_mem_nil, or_false] at hflow
    obtain ⟨rfl, rfl⟩ := hflow
    simp_all [Pc.function, Pc.decided, holdsAfter]

/-- A thread that starts or resumes a call. -/
theorem Recorded.jump {r r' : Pc × Bool} (hrec : Recorded f id r) (hfun : r'.1 = pc'.function)
    (hr : r'.2 = r.2) (hpc : (f.pc id).decided = none) (hpc' : pc'.decided = none) :
    Recorded { f with mem := mem, pc := Function.update f.pc id pc' } id r' where
  function _ := by
    change r'.1 = (Function.update f.pc id pc' id).function
    rw [Function.update_self, hfun]
  holds := by
    change f.holds id = ((Function.update f.pc id pc' id).decided).getD r'.2
    rw [Function.update_self, hpc', hr, hrec.holds, hpc]

theorem Recorded.congr {r : Pc × Bool} (hrec : Recorded f id r) (hpc : g.pc id = f.pc id)
    (hholds : g.holds id = f.holds id) : Recorded g id r :=
  ⟨fun h => hpc ▸ hrec.function (hpc ▸ h), by rw [hholds, hpc, hrec.holds]⟩

theorem turn_recorded {r : Pc × Bool} (hx : Exclusive mutex f b o) (hrec : Recorded f id r)
    (ht : Turn mutex f e g) : Recorded g id (e.record id r) := by
  cases ht with
  | switch he _ => rcases he with rfl | rfl <;> exact hrec.congr rfl rfl
  | @yield i mem _ hpc _ =>
    by_cases hi : i = id
    · subst hi
      have hfun : r.1 = .lockTest := by
        rw [hrec.function (by rw [hpc]; decide), hpc]
        rfl
      exact hrec.jump hfun rfl (by rw [hpc]; rfl) rfl
    · exact hrec.congr (Function.update_of_ne (Ne.symm hi) _ _) rfl
  | advance ha =>
    cases ha with
    | @call i pc _ hpc hpc' =>
      by_cases hi : i = id
      · subst hi
        refine hrec.jump ?_ ?_ (by rw [hpc]; rfl) ?_ <;>
          rcases hpc' with rfl | rfl <;> simp [Move.record, Pc.function, Pc.decided]
      · rw [Move.record, if_neg hi]
        exact hrec.congr (Function.update_of_ne (Ne.symm hi) _ _) rfl
    | @statement i _ mem pc' ret _ hst =>
      by_cases hi : i = id
      · subst hi
        obtain ⟨⟨b', o'⟩, -, hm⟩ := statement_moves hst hx.words
        have hkeep := recorded_flow (statement_flow hst) hrec.function hrec.holds
          (fun hpc hpc' => hx.named (lockSame_owner (hpc' ▸ hpc ▸ hst) hx.words)
            (by rw [hpc]; decide))
          (fun hpc hpc' => by
            rw [hpc, hpc'] at hm
            cases hm with
            | mayClear => exact hx.named rfl (by rw [hpc]; decide)
            | other _ hcritical => cases hcritical)
        have hrecord : Move.record i r (.statement i ret) =
            (r.1, if ret = some 0 then decide (r.1 = .lockTest) else r.2) := by
          by_cases hret : ret = some 0 <;> simp [Move.record, hret]
        rw [hrecord]
        exact ⟨fun _ => by simp_all, by simpa using hkeep.2⟩
      · rw [Move.record, if_neg (not_and_of_not_left _ hi)]
        exact hrec.congr (Function.update_of_ne (Ne.symm hi) _ _)
          (Function.update_of_ne (Ne.symm hi) _ _)

theorem run_recorded (h₀ : Initialised mutex f) (hr : Run (Turn mutex) f es g) (id : ℕ) :
    Recorded g id (record id es) := by
  refine (hr.history
    (I := fun es g => (∃ b o, Exclusive mutex g b o) ∧ Recorded g id (record id es))
    ⟨⟨_, _, initialised_exclusive h₀⟩, ?_⟩ fun es g e h hI ht => ?_).2
  · exact ⟨fun h => absurd (h₀.2.1 id) h, by rw [h₀.2.2 id, h₀.2.1 id]; rfl⟩
  · obtain ⟨⟨b, o, hx⟩, hrec⟩ := hI
    refine ⟨turn_exclusive ⟨b, o, hx⟩ ht, ?_⟩
    rw [record, List.foldl_append]
    exact turn_recorded hx hrec ht

/-- The store `owner = -1` of an unlock does not hit the name of a thread that holds the mutex. -/
def StoreSafe (mutex : ℕ) (f : Threaded) : Move → Prop
  | .statement id _ => f.pc id = .unlockOwner →
      ∀ b o, words f.mem mutex = some (b, o) → ∀ i : ℕ, f.holds i = true → o ≠ i
  | _ => True

/-- The words and the wait queue are there, and a thread that holds the mutex is named unless it is
about to write its name. -/
def Owned (mutex : ℕ) (f : Threaded) : Prop :=
  HasWaitQueue f.mem mutex ∧ ∃ b o, Exclusive mutex f b o ∧
    ∀ i : ℕ, f.holds i = true → o = i ∨ f.pc i = .takeOwner

/-- Who is named after a statement. -/
theorem named_statement (hx : Exclusive mutex f b o)
    (hn : ∀ i : ℕ, f.holds i = true → o = i ∨ f.pc i = .takeOwner)
    (hsafe : f.pc id = .unlockOwner → ∀ i : ℕ, f.holds i = true → o ≠ i)
    (hm : Moves id (b, o) (f.pc id) (b', o') pc') (i : ℕ)
    (hi : (f.next mem id pc').holds i = true) :
    o' = i ∨ (f.next mem id pc').pc i = .takeOwner := by
  generalize hpc : f.pc id = pc at hm
  by_cases hii : i = id
  · subst hii
    rw [next_pc_self]
    rw [next_holds_self, hpc] at hi
    have hpc_ne : ∀ pc', pc ≠ pc' → f.pc i ≠ pc' := fun pc' hne heq => hne (hpc ▸ heq)
    cases hm with
    | acquire => exact .inr rfl
    | fail => exact .inl ((hn i hi).resolve_right (hpc_ne _ (by decide)))
    | setOwner | mayClear => exact .inl rfl
    | setLocked => exact .inl ((hn i hi).resolve_right (hpc_ne _ (by decide)))
    | clear => cases hi
    | clearOwner =>
      exact absurd ((hn i hi).resolve_right (hpc_ne _ (by decide))) (hsafe hpc i hi)
    | other hwrites _ =>
      have hkeep : f.holds i = true := by
        rwa [holdsAfter, if_neg, if_neg] at hi
        · exact fun h => by rw [h] at hwrites; cases hwrites
        · exact fun h => by rw [h.1] at hwrites; cases hwrites
      refine .inl ((hn i hkeep).resolve_right (hpc_ne _ ?_))
      exact fun h => by rw [h] at hwrites; cases hwrites
  · rw [next_pc_of_ne hii]
    rw [next_holds_of_ne hii] at hi
    refine (hn i hi).imp_left fun ho => ?_
    cases hm with
    | setOwner =>
      -- The thread that writes its name is the one that holds the mutex.
      have hself : f.holds id = true :=
        hx.critical id (by rw [hpc]; rfl) (by rw [hpc]; decide)
      exact absurd (hx.unique i id hi hself) hii
    | clearOwner => exact absurd ho (hsafe hpc i hi)
    | mayClear | acquire | fail | setLocked | clear | other => exact ho

theorem turn_owned (ho : Owned mutex f) (ht : Guarded (StoreSafe mutex) (Turn mutex) f e g) :
    Owned mutex g := by
  obtain ⟨⟨m, q, hm, hq⟩, b, o, hx, hn⟩ := ho
  cases ht.2 with
  | switch _ hmem => exact ⟨⟨m, q, hmem.trans hm, hq⟩, b, o, hx.switch hmem, hn⟩
  | @yield id mem _ hpc hmem =>
    refine ⟨⟨m, q, hmem.trans hm, hq⟩, b, o, hx.jump hmem (.inr hpc) (.inl rfl), fun i hi => ?_⟩
    refine (hn i hi).imp_right fun h => ?_
    have hii : i ≠ id := fun heq => by
      rw [heq, hpc] at h
      cases h
    exact (Function.update_of_ne hii _ _).trans h
  | advance ha =>
    cases ha with
    | @call id pc _ hpc hpc' =>
      refine ⟨⟨m, q, hm, hq⟩, b, o, hx.jump rfl (.inl hpc) hpc', fun i hi => ?_⟩
      refine (hn i hi).imp_right fun h => ?_
      have hii : i ≠ id := fun heq => by
        rw [heq, hpc] at h
        cases h
      exact (Function.update_of_ne hii _ _).trans h
    | @statement id _ mem pc' ret _ hst =>
      obtain ⟨⟨b', o'⟩, hw, hmoves⟩ := statement_moves hst hx.words
      exact ⟨statement_hasWaitQueue hst ⟨m, q, hm, hq⟩, b', o', hx.statement hw hmoves,
        named_statement hx hn (fun hpc => ht.1 hpc b o hx.words) hmoves⟩

theorem initialised_owned (h₀ : Initialised mutex f) : Owned mutex f := by
  refine ⟨?_, false, -1, initialised_exclusive h₀, fun i hi => ?_⟩
  · obtain ⟨⟨s, hs⟩, -⟩ := h₀
    injection hs with hmem
    rw [← hmem]
    exact hasWaitQueue_setMutex rfl
  · rw [h₀.2.2 i] at hi
    cases hi

/-- In a call of `worker_mutex_unlock` by the thread that holds the mutex, or after it. -/
def Gives (pc : Pc) (holds : Bool) : Prop :=
  (pc = .unlockTest ∨ pc = .unlockSame) ∧ holds = true ∨
    pc = .idle ∨ pc.function = .unlockTest ∧ pc ≠ .unlockTest ∧ pc ≠ .unlockSame

theorem gives_flow {ret : Option ℤ} {c : Bool} (hflow : (pc', ret) ∈ pc.flow) (hg : Gives pc c)
    (hstay : pc = .unlockTest ∨ pc = .unlockSame → pc' ≠ .idle) :
    Gives pc' (holdsAfter pc pc' c) ∧ ∀ r, ret = some r → r = 0 := by
  rcases hg with ⟨rfl | rfl, rfl⟩ | rfl | ⟨hfun, hne, hne'⟩
  · simp only [Pc.flow, List.mem_cons, Prod.mk.injEq, List.not_mem_nil, or_false] at hflow
    obtain ⟨rfl, rfl⟩ := hflow.resolve_right fun h => hstay (.inl rfl) h.1
    refine ⟨.inl ⟨.inr rfl, rfl⟩, fun _ h => ?_⟩
    cases h
  · simp only [Pc.flow, List.mem_cons, Prod.mk.injEq, List.not_mem_nil, or_false] at hflow
    obtain ⟨rfl, rfl⟩ := hflow.resolve_right fun h => hstay (.inr rfl) h.1
    refine ⟨.inr (.inr ⟨rfl, by decide, by decide⟩), fun _ h => ?_⟩
    cases h
  · cases hflow
  · cases pc <;> simp_all [Pc.flow, Pc.function, Gives]
    grind [Pc.function]

/-- The unlock of a thread that holds the mutex and is named goes on. -/
theorem owned_statement {s s' : State} {ret : Option ℤ}
    (hs : statement fuel mutex s id pc = some (s', pc', ret))
    (hw : words s mutex = some (true, (id : ℤ)))
    (hpc : pc = .unlockTest ∨ pc = .unlockSame) : pc' ≠ .idle := by
  obtain ⟨m, hm, hmw⟩ := Option.bind_eq_some_iff.1 hw
  simp only [Option.some.injEq, Prod.mk.injEq] at hmw
  rcases hpc with rfl | rfl
  · simp only [statement, hm, Option.bind_eq_bind, Option.bind_some, if_pos hmw.1] at hs
    cases hs
    decide
  · simp only [statement, hm, Option.bind_eq_bind, Option.bind_some, if_pos hmw.2] at hs
    cases hs
    decide

theorem gives_statement {ret : Option ℤ} (ho : Owned mutex f)
    (hs : Turn mutex f (.statement id ret) g) (hg : Gives (f.pc id) (f.holds id)) :
    Gives (g.pc id) (g.holds id) ∧ ∀ r, ret = some r → r = 0 := by
  obtain ⟨-, b, o, hx, hn⟩ := ho
  cases hs with
  | switch h => rcases h with h | h <;> cases h
  | advance ha =>
    cases ha with
    | @statement _ _ mem pc' _ _ hst =>
      have hkeep := gives_flow (statement_flow hst) hg fun hpc => by
        have hself : f.holds id = true := by
          rcases hg with h | h | h
          · exact h.2
          · rcases hpc with hpc | hpc <;> rw [hpc] at h <;> cases h
          · rcases hpc with hpc | hpc
            · exact absurd hpc h.2.1
            · exact absurd hpc h.2.2
        have howner : o = id := (hn id hself).resolve_right fun h => by
          rcases hpc with hpc | hpc <;> rw [hpc] at h <;> cases h
        refine owned_statement hst ?_ hpc
        rw [hx.words, hx.locked.2 ⟨id, hself⟩, howner]
      refine ⟨?_, hkeep.2⟩
      change Gives ((f.next mem id pc').pc id) ((f.next mem id pc').holds id)
      rw [next_pc_self, next_holds_self]
      exact hkeep.1

/-- The lists that `unblock_threads` walks along end: those that start at the head of the mutex's
wait queue and of the waiting queue. The ready queue holds a list that shares no node with the
waiting queue, and the threads of the nodes exist. -/
def ListsEnd (mutex : ℕ) (s : State) : Prop :=
  ∀ m q, s.mutexes mutex = some m → m.waitQueue = some q →
    ∃ L W R, Chain s.nodes Node.next q.head L ∧ Peopled s L ∧ Walkable s W R

theorem unlock_enabled {s : State} (hw : HasWaitQueue s mutex) (hpc : pc.function = .unlockTest)
    (hlists : pc = .unlockThreads → ListsEnd mutex s) :
    ∃ fuel r, statement fuel mutex s id pc = some r := by
  obtain ⟨m, q, hm, hq⟩ := hw
  cases pc with
  | unlockTest | unlockSame | unlockHead =>
    simp only [statement, hm, hq, Option.bind_eq_bind, Option.bind_some]
    exact ⟨0, by split_ifs <;> exact ⟨_, rfl⟩⟩
  | unlockClear | unlockOwner | unlockEmpty =>
    simp only [statement, hm, hq, Option.bind_eq_bind, Option.bind_some]
    exact ⟨0, _, rfl⟩
  | unlockThreads =>
    obtain ⟨L, W, R, hL, hpeople, hwalk⟩ := hlists rfl m q hm hq
    obtain ⟨fuel, hfuel⟩ : ∃ fuel, fuel = L.length + W.length + R.length + 1 := ⟨_, rfl⟩
    obtain ⟨⟨s', ids⟩, hu⟩ : ∃ r, unblockLoop fuel fuel s q.head [] = some r :=
      unblockLoop_returns hwalk hL hpeople (by omega) (by omega)
    simp only [statement, hm, hq, Option.bind_eq_bind, Option.bind_some, unblockThreads]
    exact ⟨_, _, by rw [hu]; rfl⟩
  | _ => cases hpc

/-- Whether thread `id` executes a statement. -/
def Move.isStatement (id : ℕ) : Move → Bool
  | .statement i _ => i == id
  | _ => false

/-- How many statements `worker_mutex_unlock` has from here on, at most. -/
def Pc.left : Pc → ℕ
  | .unlockTest => 7
  | .unlockSame => 6
  | .unlockClear => 5
  | .unlockOwner => 4
  | .unlockHead => 3
  | .unlockThreads => 2
  | .unlockEmpty => 1
  | _ => 0

theorem left_flow {ret : Option ℤ} (hflow : (pc', ret) ∈ pc.flow)
    (hpc : pc.function = .unlockTest ∨ pc = .idle) :
    (pc'.function = .unlockTest ∨ pc' = .idle) ∧ pc'.left < pc.left := by
  cases pc <;> simp_all [Pc.flow, Pc.function] <;> grind [Pc.function, Pc.left]

/-- A call of `worker_mutex_unlock` has at most seven statements. -/
theorem unlock_statements (hr : Run (Turn mutex) f es g)
    (hpc : (f.pc id).function = .unlockTest ∨ f.pc id = .idle) (hcall : ∀ pc, .call id pc ∉ es) :
    ((g.pc id).function = .unlockTest ∨ g.pc id = .idle) ∧
      es.countP (Move.isStatement id) + (g.pc id).left ≤ (f.pc id).left := by
  induction hr with
  | nil => exact ⟨hpc, by simp⟩
  | @snoc es g h e hr ht ih =>
    obtain ⟨hfun, hcount⟩ := ih fun pc hmem => hcall pc (List.mem_append_left _ hmem)
    rw [List.countP_append, List.countP_singleton]
    by_cases hst : ∃ ret, e = .statement id ret
    · obtain ⟨ret, rfl⟩ := hst
      cases ht with
      | switch h => rcases h with h | h <;> cases h
      | advance ha =>
        cases ha with
        | @statement _ _ mem pc' _ _ hst =>
          obtain ⟨hfun', hleft⟩ := left_flow (statement_flow hst) hfun
          simp only [Function.update_self]
          refine ⟨hfun', ?_⟩
          simp only [Move.isStatement, BEq.rfl, if_true]
          omega
    · obtain ⟨hpc', -⟩ : h.pc id = g.pc id ∧ h.holds id = g.holds id :=
        turn_other ht (fun pc heq => hcall pc (by simp [heq])) (fun ret heq => hst ⟨ret, heq⟩)
          fun heq => by
            rw [heq] at hfun
            rcases hfun with hfun | hfun <;> cases hfun
      have hmove : Move.isStatement id e = false := by
        cases e with
        | statement i ret =>
          refine beq_false_of_ne fun heq => hst ⟨ret, by rw [heq]⟩
        | _ => rfl
      rw [hpc', hmove]
      exact ⟨hfun, hcount⟩

/-- **The owner is consistent.** When no late store hits the name of a thread that holds the mutex:
while no call is in progress the mutex is locked exactly if a lock is unmatched, and then it names
its thread. The unlock of that thread goes on until it returns when the lists that it walks along
end, it returns after at most seven statements of the thread, and it returns 0. -/
theorem owner_consistent (h₀ : Initialised mutex f)
    (hr : Run (Guarded (StoreSafe mutex) (Turn mutex)) f es g) :
    (Quiescent g → ∃ b o, words g.mem mutex = some (b, o) ∧ (b = true ↔ ∃ id, Unmatched id es) ∧
      ∀ id : ℕ, Unmatched id es → o = id) ∧
    ∀ id fs h, Unmatched id es → g.pc id = .unlockTest →
      Run (Guarded (StoreSafe mutex) (Turn mutex)) g fs h → (∀ pc, .call id pc ∉ fs) →
      (∀ ret k, Turn mutex h (.statement id (some ret)) k → ret = 0) ∧
      (h.mem.runningThread = some id → h.pc id ≠ .idle →
        (h.pc id = .unlockThreads → ListsEnd mutex h.mem) →
        ∃ ret k, Turn mutex h (.statement id ret) k) ∧
      fs.countP (Move.isStatement id) ≤ 7 := by
  have howned : Owned mutex g :=
    hr.invariant (I := Owned mutex) (initialised_owned h₀) fun _ _ _ ho ht => turn_owned ho ht
  have hrecord := run_recorded h₀ (hr.mono fun _ _ _ h => h.2)
  refine ⟨fun hquiet => ?_, fun id fs h hun hpc hrun hcall => ?_⟩
  · obtain ⟨-, b, o, hx, hn⟩ := howned
    have hholds : ∀ id, g.holds id = true ↔ Unmatched id es := fun id => by
      rw [(hrecord id).holds, Unmatched]
      rcases hquiet id with hidle | ⟨-, hnone⟩
      · rw [hidle]
        rfl
      · rw [hnone]
        rfl
    refine ⟨b, o, hx.words, hx.locked.trans (exists_congr hholds), fun id hun => ?_⟩
    refine (hn id ((hholds id).2 hun)).resolve_right fun h => ?_
    rcases hquiet id with hidle | ⟨-, hnone⟩
    · rw [hidle] at h
      cases h
    · rw [h] at hnone
      cases hnone
  · have hself : g.holds id = true := by
      rw [(hrecord id).holds, hpc]
      exact hun
    obtain ⟨howned, hgives⟩ := during_call (P := Gives) howned (.inl ⟨.inl hpc, hself⟩)
      (fun _ _ _ ho ht => turn_owned ho ht)
      (fun _ h => by
        rcases h with ⟨h | h, -⟩ | h | ⟨h, -⟩ <;> cases h)
      (fun _ _ _ ho ht hg => (gives_statement ho ht.2 hg).1) hrun hcall
    refine ⟨fun ret k ht => (gives_statement howned ht hgives).2 ret rfl,
      fun hid hne hlists => ?_, ?_⟩
    · have hfun : (h.pc id).function = .unlockTest := by
        rcases hgives with ⟨hpc | hpc, -⟩ | hpc | hpc
        · rw [hpc]
          rfl
        · rw [hpc]
          rfl
        · exact absurd hpc hne
        · exact hpc.1
      obtain ⟨fuel, ⟨mem, pc', ret⟩, hst⟩ : ∃ fuel r,
          statement fuel mutex h.mem id (h.pc id) = some r :=
        unlock_enabled howned.1 hfun hlists
      exact ⟨ret, _, .advance (.statement hid hst)⟩
    · obtain ⟨-, hcount⟩ := unlock_statements (hrun.mono fun _ _ _ h => h.2)
        (.inl (by rw [hpc]; rfl)) hcall
      rw [hpc] at hcount
      exact Nat.le_trans (Nat.le_add_right _ _) hcount

/-- The moves by which the main thread takes the mutex. -/
def mainLocks : List Move :=
  [.create, .call 0 .lockTest, .statement 0 none, .statement 0 none, .statement 0 none,
    .statement 0 none, .statement 0 none, .statement 0 (some 0)]

/-- The main thread takes the mutex and is named, and when it calls `worker_mutex_unlock` the call
goes on. -/
theorem owner_consistent_lock : words (played 0 mainLocks).mem 0 = some (true, 0) ∧
    ∃ ret k, Turn 0 (played 0 (mainLocks ++ [.call 0 .unlockTest])) (.statement 0 ret) k := by
  have hsafe : ∀ f e, avoids [.unlockOwner] f e = true → StoreSafe 0 f e := by
    intro f e hcheck
    cases e with
    | statement id ret => exact fun hpc => absurd hpc (avoids_statement hcheck (by simp))
    | _ => trivial
  have hr : ∀ es, play (Malloc.bump Node) 9 0 (avoids [.unlockOwner]) (.start 0) es =
      some (played 0 es) → Run (Guarded (StoreSafe 0) (Turn 0)) (.start 0) es (played 0 es) :=
    fun es hplay => (run_of_play (μ := Malloc.bump Node) 9 (avoids [.unlockOwner]) hsafe hplay).mono
      fun _ _ _ h => ⟨h.1, h.2.turn⟩
  have hquiet : Quiescent (played 0 mainLocks) := fun id => .inl <| by
    match id with
    | 0 => rfl
    | n + 1 => rfl
  obtain ⟨b, o, hw, hiff, ho⟩ := (owner_consistent initialised_start (hr mainLocks rfl)).1 hquiet
  have hcall := hr (mainLocks ++ [.call 0 .unlockTest]) rfl
  obtain ⟨-, hgo, -⟩ := (owner_consistent initialised_start hcall).2 0 [] _ rfl rfl .nil (by simp)
  refine ⟨?_, hgo rfl (by decide) fun hpc => absurd hpc (by decide)⟩
  rw [hw, hiff.2 ⟨0, rfl⟩, ho 0 rfl]
  rfl

/-- Thread 1 gives the mutex up, is interrupted before it stores `owner = -1`, and stores it when
thread 2 has taken the mutex. -/
def lateStore : List Move :=
  [.create, .create, .switch, .call 1 .lockTest, .statement 1 none, .statement 1 none,
    .statement 1 none, .statement 1 none, .statement 1 none, .statement 1 (some 0),
    .call 1 .unlockTest, .statement 1 none, .statement 1 none, .statement 1 none, .switch,
    .call 2 .lockTest, .statement 2 none, .statement 2 none, .statement 2 none, .statement 2 none,
    .statement 2 none, .statement 2 (some 0), .switch, .switch, .statement 1 none,
    .statement 1 (some 0)]

/-- The thread that holds the mutex is not named. -/
theorem owner_lost : ¬∀ f es g, Initialised 0 f → Run (Preempt (Malloc.bump Node) 0) f es g →
    Quiescent g → ∃ b o, words g.mem 0 = some (b, o) ∧ (b = true ↔ ∃ id, Unmatched id es) ∧
      ∀ id : ℕ, Unmatched id es → o = id := by
  intro hall
  have hquiet : Quiescent (played 0 lateStore) := fun id => .inl <| by
    match id with
    | 0 => rfl
    | 1 => rfl
    | 2 => rfl
    | n + 3 => rfl
  obtain ⟨b, o, hw, -, ho⟩ := hall _ lateStore _ initialised_start (run_played rfl) hquiet
  have hlost : words (played 0 lateStore).mem 0 = some (true, -1) := rfl
  rw [hlost] at hw
  cases hw
  exact absurd (ho 2 rfl) (by decide)

end UserOS.Worker
