import Mathlib.Data.BitVec
import UserOS.Lib.Stride
import UserOS.Worker.Critical

/-!
# The benchmarks

Each benchmark splits a sum among threads, which add their parts under the mutex, and then computes
the sum again without threads, in `verify`. The 32-bit integers wrap around.

* `vector_multiply_sum`, `parallel_calculate_sum`, `external_calculate_sum`: both sums are the same,
  whatever the number of threads and whenever the timer switches them.
-/

namespace UserOS.Worker

open Lib Finset

/-- `int`. -/
abbrev CInt := BitVec 32

/-- The programs of `thread_num` threads, by their ids: the thread that gets `counter[n]` is created
after `n` others and the main thread. -/
def started (threadNum : ℕ) (work : ℕ → List (Stmt CInt)) (id : ℕ) : List (Stmt CInt) :=
  if 1 ≤ id ∧ id ≤ threadNum then work (id - 1) else []

/-! ## `vector_multiply.c` -/

/-- `vector_multiply`. -/
def vectorMultiply (vectorSize threadNum : ℕ) (r s : ℕ → CInt) (n : ℕ) : List (Stmt CInt) :=
  (stride threadNum n vectorSize).map fun i => .add fun _ => r i * s i

/-- `verify` of `vector_multiply.c`. -/
def verifyVector (vectorSize : ℕ) (r s : ℕ → CInt) : CInt :=
  (List.range vectorSize).foldl (fun res i => res + r i * s i) 0

/-! ## `parallel_cal.c` -/

/-- `parallel_calculate`. -/
def parallelCalculate (cSize rSize threadNum : ℕ) (a : ℕ → ℕ → CInt) (n : ℕ) : List (Stmt CInt) :=
  ((stride threadNum n rSize).flatMap fun j =>
    (List.range cSize).map fun i => .write j fun pSum => pSum j + a j i * i) ++
  (stride threadNum n rSize).map fun j => .add fun pSum => pSum j

/-- `verify` of `parallel_cal.c`. -/
def verifyParallel (cSize rSize : ℕ) (a : ℕ → ℕ → CInt) : CInt :=
  let pSum := (List.range rSize).foldl
    (fun pSum j => (List.range cSize).foldl
      (fun pSum i => Function.update pSum j (pSum j + a j i * i)) pSum) fun _ => 0
  (List.range rSize).foldl (fun sum j => sum + pSum j) 0

/-! ## `external_cal.c` -/

/-- The statements of both loops inside a record. The number at `m` in the file `k` is `record k m`,
and `fscanf` leaves the variable alone where there is none. -/
def addRecord (itr : ℕ) (record : ℕ → ℕ → Option CInt) (k : ℕ) : List (Stmt CInt) :=
  (List.range itr).flatMap fun i => (List.range 4).flatMap fun j =>
    [.write (k * 4 + j) fun mem => (record k (i * 4 + j)).getD (mem (k * 4 + j)),
      .add fun mem => mem (k * 4 + j)]

/-- `external_calculate`. -/
def externalCalculate (itr recordNum threadNum : ℕ) (record : ℕ → ℕ → Option CInt) (n : ℕ) :
    List (Stmt CInt) :=
  (stride threadNum n recordNum).flatMap (addRecord itr record)

/-- `verify` of `external_cal.c`: the memory and the sum after all records. -/
def verifyExternal (itr recordNum : ℕ) (record : ℕ → ℕ → Option CInt) : CInt :=
  ((List.range recordNum).foldl
    (fun st k => (List.range itr).foldl
      (fun st i => (List.range 4).foldl
        (fun st j =>
          let mem := Function.update st.1 (k * 4 + j)
            ((record k (i * 4 + j)).getD (st.1 (k * 4 + j)))
          (mem, st.2 + mem (k * 4 + j))) st) st)
    ((fun _ => 0 : ℕ → CInt), (0 : CInt))).2

/-! ## Threads -/

variable {threadNum mutex : ℕ} {work : ℕ → List (Stmt CInt)} {f g : Summing CInt} {es : List Act}
  {group : ℕ → ℕ}

/-- The cells of a thread: those whose group has its turn in the stride. -/
def threadCells (threadNum : ℕ) (group : ℕ → ℕ) (id : ℕ) : Set ℕ :=
  {x | group x % threadNum + 1 = id}

theorem threadCells_separate : Separate (threadCells threadNum group) :=
  fun _ _ hne _ hi hj => hne (hi.symm.trans hj)

/-- The sum of all threads, when each adds for its own groups. -/
theorem started_sum (huses : ∀ n < threadNum, ∀ s ∈ work n, s.Uses {x | group x % threadNum = n})
    (hstart : f.Starts mutex (started threadNum work)) (hrun : Run (Summing.Step mutex) f es g)
    (hdone : g.Done) : g.sum = f.sum + ∑ n ∈ range threadNum, added (work n) f.cells := by
  have hnil : ∀ id, threadNum + 1 ≤ id → started threadNum work id = [] :=
    fun id hid => if_neg (by omega)
  rw [sum_of_threads (O := threadCells threadNum group) (T := threadNum + 1) threadCells_separate
    (fun id s hs => ?_) hnil hstart hrun hdone, sum_range_succ']
  · congr 1
    have hmain : added (started threadNum work 0) f.cells = 0 := rfl
    rw [hmain, add_zero]
    refine sum_congr rfl fun n hn => ?_
    rw [mem_range] at hn
    rw [started, if_pos (by omega), Nat.add_sub_cancel]
  · unfold started at hs
    split_ifs at hs with hid
    · refine (huses (id - 1) (by omega) s hs).mono fun x hx => ?_
      have hx' : group x % threadNum = id - 1 := hx
      unfold threadCells
      change group x % threadNum + 1 = id
      omega
    · cases hs

/-! ## The sums -/

theorem foldl_add (F : ℕ → CInt) (l : List ℕ) (x : CInt) :
    l.foldl (fun x i => x + F i) x = x + (l.map F).sum := by
  induction l generalizing x with
  | nil => exact (add_zero x).symm
  | cons i l ih => rw [List.foldl_cons, ih, List.map_cons, List.sum_cons, add_assoc]

theorem sum_map_range (F : ℕ → CInt) (n : ℕ) :
    ((List.range n).map F).sum = ∑ i ∈ range n, F i := by
  rw [← List.sum_toFinset F List.nodup_range]
  exact sum_congr (by ext i; simp) fun _ _ => rfl

/-- **`vector_multiply`.** When all threads are done, `res` is what `verify` computes. -/
theorem vector_multiply_sum {vectorSize : ℕ} {r s : ℕ → CInt} (hT : 0 < threadNum)
    (hstart : f.Starts mutex (started threadNum (vectorMultiply vectorSize threadNum r s)))
    (hzero : f.sum = 0) (hrun : Run (Summing.Step mutex) f es g) (hdone : g.Done) :
    g.sum = verifyVector vectorSize r s := by
  have huses : ∀ n < threadNum, ∀ st ∈ vectorMultiply vectorSize threadNum r s n,
      st.Uses {x | x % threadNum = n} := by
    intro n _ st hst
    obtain ⟨i, -, rfl⟩ := List.mem_map.1 hst
    exact fun _ _ _ => rfl
  rw [started_sum huses hstart hrun hdone, hzero, zero_add, verifyVector, foldl_add, zero_add,
    sum_map_range, ← sum_stride hT fun i => r i * s i]
  exact sum_congr rfl fun n _ => added_map_add

/-- Two threads, of which one interrupts the other's addition. -/
theorem vector_multiply_contended : ∃ es g,
    Run (Summing.Step 0) (.begin (started 2 (vectorMultiply 2 2 (fun i => i + 3) fun i => i + 5)))
      es g ∧ g.sum = 39 := by
  have hrun := run_performed
    (.begin (started 2 (vectorMultiply 2 2 (fun i => i + 3) fun i => i + 5)))
    ([.move .create, .move .create, .move .switch] ++ contended) rfl
  refine ⟨_, _, hrun, ?_⟩
  rw [vector_multiply_sum (by decide) begin_starts rfl hrun fun id => ?_]
  · rfl
  · match id with
    | 0 => rfl
    | 1 => rfl
    | 2 => rfl
    | n + 3 => rfl

/-- The row sums, for the rows `l`. -/
def fillRows (cSize : ℕ) (a : ℕ → ℕ → CInt) (l : List ℕ) : List (Stmt CInt) :=
  l.flatMap fun j => (List.range cSize).map fun i => .write j fun pSum => pSum j + a j i * i

theorem cellsAfter_row {a : ℕ → ℕ → CInt} {c : ℕ → CInt} {j k : ℕ} (l : List ℕ) :
    cellsAfter (l.map fun i => .write j fun pSum => pSum j + a j i * i) c k =
      if k = j then c j + (l.map fun i => a j i * (i : CInt)).sum else c k := by
  induction l generalizing c with
  | nil => split_ifs with h <;> simp [cellsAfter, h]
  | cons i l ih =>
    rw [List.map_cons, cellsAfter, ih]
    split_ifs with h
    · rw [Function.update_self, List.map_cons, List.sum_cons, add_assoc]
    · exact Function.update_of_ne h ..

theorem cellsAfter_fillRows {cSize : ℕ} {a : ℕ → ℕ → CInt} {c : ℕ → CInt} {k : ℕ} {l : List ℕ}
    (hl : l.Nodup) : cellsAfter (fillRows cSize a l) c k =
      if k ∈ l then c k + ((List.range cSize).map fun i => a k i * (i : CInt)).sum else c k := by
  induction l generalizing c with
  | nil => rfl
  | cons j l ih =>
    obtain ⟨hj, hl⟩ := List.nodup_cons.1 hl
    rw [fillRows, List.flatMap_cons, cellsAfter_append, ← fillRows, ih hl, cellsAfter_row]
    by_cases hkj : k = j
    · subst hkj
      rw [if_neg hj, if_pos rfl, if_pos List.mem_cons_self]
    · rw [if_neg hkj]
      exact if_congr (by simp [hkj]) rfl rfl

/-- A program that fills its rows and adds them up. -/
theorem added_rows {cSize : ℕ} {a : ℕ → ℕ → CInt} {l : List ℕ} (hl : l.Nodup) :
    added (fillRows cSize a l ++ l.map fun j => .add fun pSum => pSum j) (fun _ => 0) =
      (l.map fun j => ((List.range cSize).map fun i => a j i * (i : CInt)).sum).sum := by
  have hfill : added (fillRows cSize a l) (fun _ => 0) = 0 := by
    refine added_of_writes fun s hs => ?_
    obtain ⟨j, -, hs⟩ := List.mem_flatMap.1 hs
    obtain ⟨i, -, rfl⟩ := List.mem_map.1 hs
    exact ⟨_, _, rfl⟩
  rw [added_append, hfill, zero_add, added_map_add]
  refine congrArg _ (List.map_congr_left fun j hj => ?_)
  rw [cellsAfter_fillRows hl, if_pos hj, zero_add]

theorem verifyParallel_eq {cSize rSize : ℕ} {a : ℕ → ℕ → CInt} :
    verifyParallel cSize rSize a =
      ∑ j ∈ range rSize, ((List.range cSize).map fun i => a j i * (i : CInt)).sum := by
  have hrow : ∀ (l : List ℕ) (j : ℕ) (c : ℕ → CInt),
      l.foldl (fun pSum i => Function.update pSum j (pSum j + a j i * (i : CInt))) c =
        cellsAfter (l.map fun i => .write j fun pSum => pSum j + a j i * i) c := by
    intro l j
    induction l with
    | nil => exact fun _ => rfl
    | cons i l ih => exact fun c => ih _
  have hrows : ∀ (l : List ℕ) (c : ℕ → CInt),
      l.foldl (fun pSum j => (List.range cSize).foldl
        (fun pSum i => Function.update pSum j (pSum j + a j i * (i : CInt))) pSum) c =
        cellsAfter (fillRows cSize a l) c := by
    intro l
    induction l with
    | nil => exact fun _ => rfl
    | cons j l ih =>
      intro c
      rw [List.foldl_cons, hrow, ih]
      exact cellsAfter_append.symm
  rw [verifyParallel, hrows, foldl_add, zero_add, ← sum_map_range]
  refine congrArg _ (List.map_congr_left fun j hj => ?_)
  rw [cellsAfter_fillRows List.nodup_range, if_pos hj, zero_add]

/-- **`parallel_calculate`.** When all threads are done, `sum` is what `verify` computes. -/
theorem parallel_calculate_sum {cSize rSize : ℕ} {a : ℕ → ℕ → CInt} (hT : 0 < threadNum)
    (hstart : f.Starts mutex (started threadNum (parallelCalculate cSize rSize threadNum a)))
    (hzero : f.sum = 0) (hcells : f.cells = fun _ => 0) (hrun : Run (Summing.Step mutex) f es g)
    (hdone : g.Done) : g.sum = verifyParallel cSize rSize a := by
  have huses : ∀ n < threadNum, ∀ st ∈ parallelCalculate cSize rSize threadNum a n,
      st.Uses {x | x % threadNum = n} := by
    intro n hn st hst
    have hmem : ∀ j ∈ stride threadNum n rSize, j % threadNum = n :=
      fun j hj => ((mem_stride hn).1 hj).2
    rcases List.mem_append.1 hst with hst | hst
    · obtain ⟨j, hj, hst⟩ := List.mem_flatMap.1 hst
      obtain ⟨i, -, rfl⟩ := List.mem_map.1 hst
      exact ⟨hmem j hj, fun c c' heq => congrArg (· + a j i * (i : CInt)) (heq (hmem j hj))⟩
    · obtain ⟨j, hj, rfl⟩ := List.mem_map.1 hst
      exact fun c c' heq => heq (hmem j hj)
  rw [started_sum huses hstart hrun hdone, hzero, zero_add, hcells, verifyParallel_eq,
    ← sum_stride hT fun j => ((List.range cSize).map fun i => a j i * (i : CInt)).sum]
  exact sum_congr rfl fun n _ => added_rows (nodup_stride hT)

/-- Two rows of two numbers each, added by two threads that interrupt each other. -/
theorem parallel_calculate_contended : ∃ es g,
    Run (Summing.Step 0) (.begin (started 2 (parallelCalculate 2 2 2 fun j i => j + i + 6))) es g ∧
      g.sum = 15 := by
  have hrun := run_performed (.begin (started 2 (parallelCalculate 2 2 2 fun j i => j + i + 6)))
    ([.move .create, .move .create, .move .switch, .execute 1, .move .switch] ++
      List.replicate 4 (.execute 2) ++ [.move .switch, .move .switch] ++
      List.replicate 3 (.execute 1) ++ contended) rfl
  refine ⟨_, _, hrun, ?_⟩
  rw [parallel_calculate_sum (by decide) begin_starts rfl rfl hrun fun id => ?_]
  · rfl
  · match id with
    | 0 => rfl
    | 1 => rfl
    | 2 => rfl
    | n + 3 => rfl

theorem uses_addRecord {itr k : ℕ} {record : ℕ → ℕ → Option CInt} :
    ∀ st ∈ addRecord itr record k, st.Uses {x | x / 4 = k} := by
  intro st hst
  obtain ⟨i, -, hst⟩ := List.mem_flatMap.1 hst
  obtain ⟨j, hj, hst⟩ := List.mem_flatMap.1 hst
  rw [List.mem_range] at hj
  have hcell : (k * 4 + j) / 4 = k := by omega
  simp only [List.mem_cons, List.not_mem_nil, or_false] at hst
  rcases hst with rfl | rfl
  · exact ⟨hcell, fun c c' heq => congrArg (Option.getD _) (heq hcell)⟩
  · exact fun c c' heq => heq hcell

/-- The records of a list, added up one by one. -/
theorem added_records {itr : ℕ} {record : ℕ → ℕ → Option CInt} {l : List ℕ} {c : ℕ → CInt}
    (hl : l.Nodup) : added (l.flatMap (addRecord itr record)) c =
      (l.map fun k => added (addRecord itr record k) c).sum :=
  added_flatMap (U := fun k => {x | x / 4 = k}) (fun _ => uses_addRecord)
    (fun _ _ hne _ hi hj => hne (hi.symm.trans hj)) hl

theorem verifyExternal_eq {itr recordNum : ℕ} {record : ℕ → ℕ → Option CInt} :
    verifyExternal itr recordNum record =
      ∑ k ∈ range recordNum, added (addRecord itr record k) fun _ => 0 := by
  have hrun : verifyExternal itr recordNum record =
      (((List.range recordNum).flatMap (addRecord itr record)).foldl Stmt.run
        (fun _ => 0, 0)).2 := by
    simp only [verifyExternal, addRecord, List.foldl_flatMap, List.foldl_cons, List.foldl_nil,
      Stmt.run]
  rw [hrun, foldl_run, zero_add, added_records List.nodup_range, sum_map_range]

/-- **`external_calculate`.** When all threads are done, `sum` is what `verify` computes, also when
files end early. -/
theorem external_calculate_sum {itr recordNum : ℕ} {record : ℕ → ℕ → Option CInt}
    (hT : 0 < threadNum)
    (hstart : f.Starts mutex (started threadNum (externalCalculate itr recordNum threadNum record)))
    (hzero : f.sum = 0) (hcells : f.cells = fun _ => 0) (hrun : Run (Summing.Step mutex) f es g)
    (hdone : g.Done) : g.sum = verifyExternal itr recordNum record := by
  have huses : ∀ n < threadNum, ∀ st ∈ externalCalculate itr recordNum threadNum record n,
      st.Uses {x | x / 4 % threadNum = n} := by
    intro n hn st hst
    obtain ⟨k, hk, hst⟩ := List.mem_flatMap.1 hst
    have hmod := ((mem_stride hn).1 hk).2
    exact (uses_addRecord st hst).mono fun x hx => by
      have hx' : x / 4 = k := hx
      exact (congrArg (· % threadNum) hx').trans hmod
  rw [started_sum huses hstart hrun hdone, hzero, zero_add, hcells, verifyExternal_eq,
    ← sum_stride hT fun k => added (addRecord itr record k) fun _ => 0]
  exact sum_congr rfl fun n _ => added_records (nodup_stride hT)

/-- Thread `id` reads numbers and adds them up. -/
def adds (id n : ℕ) : List Act :=
  (List.range n).flatMap fun _ =>
    [.execute id, .execute id] ++ takes id ++ [.execute id, .execute id] ++ gives id

set_option maxRecDepth 4000 in
/-- Two files of three and of two numbers, of each of which four are read, by two threads that
interrupt each other. -/
theorem external_calculate_short : ∃ es g,
    Run (Summing.Step 0) (.begin (started 2 (externalCalculate 1 2 2
      fun k m => if m + k < 3 then some (m + 7) else none))) es g ∧ g.sum = 39 := by
  have hrun := run_performed (.begin (started 2 (externalCalculate 1 2 2
    fun k m => if m + k < 3 then some (m + 7) else none)))
    ([.move .create, .move .create, .move .switch] ++ adds 1 2 ++ [.execute 1, .move .switch] ++
      adds 2 4 ++ [.move .switch, .move .switch, .execute 1] ++ takes 1 ++
      [.execute 1, .execute 1] ++ gives 1 ++ adds 1 1) rfl
  refine ⟨_, _, hrun, ?_⟩
  rw [external_calculate_sum (by decide) begin_starts rfl rfl hrun fun id => ?_]
  · rfl
  · match id with
    | 0 => rfl
    | 1 => rfl
    | 2 => rfl
    | n + 3 => rfl

end UserOS.Worker
