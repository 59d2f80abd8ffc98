import Mathlib.Data.List.Nodup
import Mathlib.Logic.Function.Basic

/-!
# Singly linked lists in a heap

A heap maps addresses to cells; an address without a cell is not allocated. `next` reads the link
of a cell, and `none` is the null pointer.

* `Seg h next p l q`: following `next` from `p` visits the addresses `l` and arrives at `q`.
* `Chain h next p l`: the same with `q` null, a complete list.
* `walk`: the loop that follows the links until a cell meets a test, keeping the previous address.
* `Malloc`: an allocator, which never returns an address in use.

A chain is determined by its start, has no address twice, and survives every update outside it.
-/

namespace UserOS.Lib

variable {ν : Type} {h h' : ℕ → Option ν} {next : ν → Option ℕ}

/-- From `p`, the links visit `l` and arrive at `q`. -/
def Seg (h : ℕ → Option ν) (next : ν → Option ℕ) : Option ℕ → List ℕ → Option ℕ → Prop
  | p, [], q => p = q
  | p, a :: l, q => p = some a ∧ ∃ v, h a = some v ∧ Seg h next (next v) l q

/-- From `p`, the links visit `l` and end. -/
def Chain (h : ℕ → Option ν) (next : ν → Option ℕ) (p : Option ℕ) (l : List ℕ) : Prop :=
  Seg h next p l none

namespace Seg

variable {p q r : Option ℕ} {l l' : List ℕ} {a : ℕ}

theorem append_iff :
    Seg h next p (l ++ l') q ↔ ∃ r, Seg h next p l r ∧ Seg h next r l' q := by
  induction l generalizing p with
  | nil => simp [Seg]
  | cons a l ih =>
    simp only [List.cons_append, Seg, ih]
    constructor
    · rintro ⟨hp, v, hv, r, h1, h2⟩
      exact ⟨r, ⟨hp, v, hv, h1⟩, h2⟩
    · rintro ⟨r, ⟨hp, v, hv, h1⟩, h2⟩
      exact ⟨hp, v, hv, r, h1, h2⟩

theorem concat_iff :
    Seg h next p (l ++ [a]) q ↔ Seg h next p l (some a) ∧ ∃ v, h a = some v ∧ next v = q := by
  rw [append_iff]
  simp only [Seg]
  constructor
  · rintro ⟨r, h1, rfl, h2⟩
    exact ⟨h1, h2⟩
  · rintro ⟨h1, h2⟩
    exact ⟨_, h1, rfl, h2⟩

/-- A segment reads only the links of the addresses it visits. -/
theorem congr (hs : Seg h next p l q) (hc : ∀ a ∈ l, (h' a).map next = (h a).map next) :
    Seg h' next p l q := by
  induction l generalizing p with
  | nil => exact hs
  | cons a l ih =>
    obtain ⟨hp, v, hv, hs⟩ := hs
    have ha := hc a List.mem_cons_self
    rw [hv, Option.map_some, Option.map_eq_some_iff] at ha
    obtain ⟨v', hv', hn⟩ := ha
    refine ⟨hp, v', hv', ?_⟩
    rw [hn]
    exact ih hs fun b hb => hc b (List.mem_cons_of_mem _ hb)

theorem update_of_notMem (hs : Seg h next p l q) (ha : a ∉ l) (x : Option ν) :
    Seg (Function.update h a x) next p l q :=
  hs.congr fun b hb => by
    rw [Function.update_of_ne (ne_of_mem_of_not_mem hb ha)]

theorem exists_of_mem (hs : Seg h next p l q) (ha : a ∈ l) : ∃ v, h a = some v := by
  induction l generalizing p with
  | nil => simp at ha
  | cons b l ih =>
    obtain ⟨-, v, hv, hs⟩ := hs
    rcases List.mem_cons.1 ha with rfl | ha
    · exact ⟨v, hv⟩
    · exact ih hs ha

end Seg

namespace Chain

variable {p q : Option ℕ} {l l' l₁ l₂ : List ℕ} {a : ℕ} {v : ν}

@[simp] theorem nil_iff : Chain h next p [] ↔ p = none := Iff.rfl

theorem congr (hs : Chain h next p l) (hc : ∀ a ∈ l, (h' a).map next = (h a).map next) :
    Chain h' next p l := Seg.congr hs hc

theorem update_of_notMem (hs : Chain h next p l) (ha : a ∉ l) (x : Option ν) :
    Chain (Function.update h a x) next p l := Seg.update_of_notMem hs ha x

theorem exists_of_mem (hs : Chain h next p l) (ha : a ∈ l) : ∃ v, h a = some v :=
  Seg.exists_of_mem hs ha

theorem head?_eq (hs : Chain h next p l) : p = l.head? := by
  cases l with
  | nil => exact hs
  | cons a l => exact hs.1

theorem eq_nil_iff (hs : Chain h next p l) : l = [] ↔ p = none := by
  cases l with
  | nil => simpa using hs
  | cons a l => simp [hs.1]

/-- The addresses of a chain are determined by its start. -/
theorem unique (hs : Chain h next p l) (hs' : Chain h next p l') : l = l' := by
  induction l generalizing p l' with
  | nil => exact (hs'.eq_nil_iff.2 hs).symm
  | cons a l ih =>
    obtain ⟨rfl, v, hv, hs⟩ := hs
    cases l' with
    | nil => exact absurd hs' (by simp)
    | cons b l' =>
      obtain ⟨hab, v', hv', hs'⟩ := hs'
      cases hab
      rw [hv] at hv'
      cases hv'
      rw [ih hs hs']

/-- The part of a chain from one of its addresses on is the chain from there. -/
theorem suffix (hs : Chain h next p (l₁ ++ a :: l₂)) : Chain h next (some a) (a :: l₂) := by
  obtain ⟨r, -, hr⟩ := Seg.append_iff.1 hs
  obtain ⟨rfl, h2⟩ := hr
  exact ⟨rfl, h2⟩

/-- **No address is visited twice**: the chains from its two visits would be one list. -/
theorem nodup (hs : Chain h next p l) : l.Nodup := by
  induction l generalizing p with
  | nil => exact List.nodup_nil
  | cons a l ih =>
    have hchain := hs
    obtain ⟨-, v, -, hs⟩ := hs
    refine List.nodup_cons.2 ⟨fun ha => ?_, ih hs⟩
    obtain ⟨l₁, l₂, rfl⟩ := List.append_of_mem ha
    have h1 : Chain h next (some a) (a :: (l₁ ++ a :: l₂)) :=
      ⟨rfl, hchain.2⟩
    have h2 : Chain h next (some a) (a :: l₂) :=
      Chain.suffix (show Chain h next (some a) ((a :: l₁) ++ a :: l₂) from h1)
    have := congrArg List.length (h1.unique h2)
    simp only [List.length_cons, List.length_append] at this
    omega

theorem notMem_rest (hs : Chain h next p (l₁ ++ a :: l₂)) : a ∉ l₁ ++ l₂ :=
  (List.nodup_cons.1 (List.nodup_middle.1 hs.nodup)).1

theorem notMem_before (hs : Chain h next p (l₁ ++ a :: l₂)) : a ∉ l₁ := fun h =>
  hs.notMem_rest (List.mem_append_left _ h)

theorem notMem_after (hs : Chain h next p (l₁ ++ a :: l₂)) : a ∉ l₂ := fun h =>
  hs.notMem_rest (List.mem_append_right _ h)

/-- Append a fresh last cell: the old last cell now links to it. -/
theorem append_cell {v' : ν} (hs : Chain h next p (l ++ [a])) {b : ℕ} {w : ν}
    (hv : next v' = some b) (hb : b ∉ l ++ [a]) (hw : h b = some w) (hwn : next w = none) :
    Chain (Function.update h a (some v')) next p (l ++ [a] ++ [b]) := by
  have ha : a ∉ l := hs.notMem_before
  have hab : b ≠ a := fun h => hb (by simp [h])
  have h1 := (Seg.concat_iff.1 hs).1
  refine Seg.concat_iff.2 ⟨Seg.concat_iff.2 ⟨h1.update_of_notMem ha _, v', ?_, hv⟩, w, ?_, hwn⟩
  · simp
  · rw [Function.update_of_ne hab, hw]

/-- Unlink a cell in the middle: its predecessor takes over its link. -/
theorem unlink {b : ℕ} {v' w : ν} (hs : Chain h next p (l₁ ++ a :: b :: l₂)) (hb : h b = some w)
    (hv : next v' = next w) :
    Chain (Function.update h a (some v')) next p (l₁ ++ a :: l₂) := by
  have hl₁ : a ∉ l₁ := hs.notMem_before
  have hl₂ : a ∉ l₂ := fun h => hs.notMem_after (List.mem_cons_of_mem _ h)
  obtain ⟨r, h1, h2⟩ := Seg.append_iff.1 hs
  obtain ⟨rfl, u, hu, rest⟩ := h2
  obtain ⟨-, w', hw', rest⟩ := rest
  rw [hb] at hw'
  cases hw'
  refine Seg.append_iff.2 ⟨_, h1.update_of_notMem hl₁ _, rfl, v', by simp, ?_⟩
  rw [hv]
  exact Seg.update_of_notMem rest hl₂ _

/-- Cut a chain after one of its cells. -/
theorem truncate {v' : ν} (hs : Chain h next p (l₁ ++ a :: l₂)) (hv : next v' = none) :
    Chain (Function.update h a (some v')) next p (l₁ ++ [a]) := by
  have hl₁ : a ∉ l₁ := hs.notMem_before
  obtain ⟨r, h1, h2⟩ := Seg.append_iff.1 hs
  obtain ⟨rfl, -⟩ := h2
  exact Seg.concat_iff.2 ⟨h1.update_of_notMem hl₁ _, v', by simp, hv⟩

/-- Relink a cell to a chain that does not visit it: the chains that visit the cell go on there. -/
theorem relink {v' : ν} {m : List ℕ} (hs : Chain h next p l) (hm : Chain h next (next v') m)
    (ham : a ∉ m) : ∃ l', Chain (Function.update h a (some v')) next p l' ∧
      (l' = l ∨ ∃ l₁ l₀, l = l₁ ++ a :: l₀ ∧ l' = l₁ ++ a :: m) := by
  by_cases ha : a ∈ l
  · obtain ⟨l₁, l₀, rfl⟩ := List.append_of_mem ha
    have hl₁ : a ∉ l₁ := hs.notMem_before
    obtain ⟨r, h1, rfl, -⟩ := Seg.append_iff.1 hs
    refine ⟨l₁ ++ a :: m, Seg.append_iff.2 ⟨_, h1.update_of_notMem hl₁ _, rfl, v', by simp, ?_⟩,
      .inr ⟨l₁, l₀, rfl, rfl⟩⟩
    exact hm.update_of_notMem ham _
  · exact ⟨l, hs.update_of_notMem ha _, .inl rfl⟩

end Chain

/-! ## Lists that become shorter -/

/-- Every list of `h` is one of `h'` that starts at the same place, visits no other cells and is not
longer. -/
def Shortens (next : ν → Option ℕ) (h h' : ℕ → Option ν) : Prop :=
  ∀ p l, Chain h next p l → ∃ l', Chain h' next p l' ∧ l' ⊆ l ∧ l'.length ≤ l.length

theorem Shortens.trans {h'' : ℕ → Option ν} (hs : Shortens next h h')
    (hs' : Shortens next h' h'') : Shortens next h h'' := by
  intro p l hl
  obtain ⟨l', hl', hsub, hlen⟩ := hs p l hl
  obtain ⟨l'', hl'', hsub', hlen'⟩ := hs' p l' hl'
  exact ⟨l'', hl'', fun a ha => hsub (hsub' ha), Nat.le_trans hlen' hlen⟩

/-- A cell is relinked to a part of what follows it. -/
theorem shortens_update {v' : ν} {a : ℕ} {m : List ℕ} (hm : Chain h next (next v') m) (ham : a ∉ m)
    (hpart : ∀ l₀, Chain h next (some a) (a :: l₀) → m ⊆ l₀ ∧ m.length ≤ l₀.length) :
    Shortens next h (Function.update h a (some v')) := by
  intro p l hl
  obtain ⟨l', hl', rfl | ⟨l₁, l₀, rfl, rfl⟩⟩ := hl.relink hm ham
  · exact ⟨l', hl', fun _ hb => hb, Nat.le_refl _⟩
  · obtain ⟨hsub, hlen⟩ := hpart l₀ hl.suffix
    refine ⟨_, hl', fun b hb => ?_, ?_⟩
    · simp only [List.mem_append, List.mem_cons] at hb ⊢
      exact hb.imp_right (Or.imp_right fun hb => hsub hb)
    · simp only [List.length_append, List.length_cons]
      omega

/-- A link is cut. -/
theorem shortens_cut {v' : ν} {a : ℕ} (hv : next v' = none) :
    Shortens next h (Function.update h a (some v')) :=
  shortens_update (m := []) hv List.not_mem_nil fun _ _ => ⟨List.nil_subset _, Nat.zero_le _⟩

/-! ## Walking a list -/

/-- The loop `while (p != NULL && !stop(p)) { prev = p; p = p->next; }`. It fails on an
address without a cell, when the test does, or when it runs out of fuel. -/
def walk (h : ℕ → Option ν) (next : ν → Option ℕ) (stop : ℕ → ν → Option Bool) :
    ℕ → Option ℕ → Option ℕ → Option (Option ℕ × Option ℕ)
  | 0, _, _ => none
  | _ + 1, prev, none => some (prev, none)
  | fuel + 1, prev, some a => do
    let v ← h a
    if ← stop a v then some (prev, some a) else walk h next stop fuel (some a) (next v)

variable {stop : ℕ → ν → Option Bool} {fuel : ℕ} {p prev : Option ℕ} {l l₁ l₂ : List ℕ} {a : ℕ}

/-- A walk over cells that all fail the test arrives where their segment does. -/
theorem walk_seg {q : Option ℕ} (hs : Seg h next p l q)
    (hstop : ∀ b ∈ l, ∀ v, h b = some v → stop b v = some false) :
    walk h next stop (fuel + l.length) prev p =
      walk h next stop fuel (l.getLast?.or prev) q := by
  induction l generalizing p prev with
  | nil => cases hs; simp
  | cons b l ih =>
    obtain ⟨rfl, v, hv, hs⟩ := hs
    have hb := hstop b List.mem_cons_self v hv
    have hl := @ih _ (some b) hs fun c hc => hstop c (List.mem_cons_of_mem _ hc)
    rw [List.length_cons, ← Nat.add_assoc, walk]
    simp only [hv, hb, Option.bind_eq_bind, Option.bind_some, Bool.false_eq_true, if_false, hl]
    cases l <;> simp [List.getLast?_cons]

/-- The walk finds the first cell that meets the test. -/
theorem walk_found {v : ν} (hs : Chain h next p (l₁ ++ a :: l₂))
    (hstop : ∀ b ∈ l₁, ∀ v, h b = some v → stop b v = some false) (ha : h a = some v)
    (hav : stop a v = some true) (hf : (l₁ ++ a :: l₂).length < fuel) :
    walk h next stop fuel prev p = some (l₁.getLast?.or prev, some a) := by
  obtain ⟨r, h1, h2⟩ := Seg.append_iff.1 hs
  obtain ⟨rfl, -⟩ := h2
  obtain ⟨k, rfl⟩ : ∃ k, fuel = k + 1 + l₁.length := ⟨fuel - 1 - l₁.length, by
    simp only [List.length_append, List.length_cons] at hf; omega⟩
  rw [walk_seg h1 hstop, walk]
  simp [ha, hav]

/-- The walk ends at the null pointer when no cell meets the test. -/
theorem walk_end (hs : Chain h next p l)
    (hstop : ∀ b ∈ l, ∀ v, h b = some v → stop b v = some false) (hf : l.length < fuel) :
    walk h next stop fuel prev p = some (l.getLast?.or prev, none) := by
  obtain ⟨k, rfl⟩ : ∃ k, fuel = k + 1 + l.length := ⟨fuel - 1 - l.length, by omega⟩
  rw [walk_seg hs hstop, walk]

/-- A walk along a list on which the test can be made returns: at one of its cells, or at its end.
-/
theorem walk_returns (hs : Chain h next p l)
    (hstop : ∀ b ∈ l, ∀ v, h b = some v → ∃ c, stop b v = some c) (hf : l.length < fuel) :
    ∃ r, walk h next stop fuel prev p = some r ∧
      (r.2 = none ∨ ∃ l₁ a l₂, l = l₁ ++ a :: l₂ ∧ r = (l₁.getLast?.or prev, some a)) := by
  induction l generalizing p prev fuel with
  | nil =>
    obtain ⟨k, rfl⟩ : ∃ k, fuel = k + 1 := ⟨fuel - 1, by omega⟩
    rw [Chain.nil_iff.1 hs]
    exact ⟨_, rfl, .inl rfl⟩
  | cons b l ih =>
    obtain ⟨rfl, v, hv, hs⟩ := hs
    obtain ⟨k, rfl⟩ : ∃ k, fuel = k + 1 := ⟨fuel - 1, by omega⟩
    obtain ⟨c, hc⟩ := hstop b List.mem_cons_self v hv
    rw [walk]
    simp only [hv, hc, Option.bind_eq_bind, Option.bind_some]
    cases c with
    | true => exact ⟨_, rfl, .inr ⟨[], b, l, rfl, by simp⟩⟩
    | false =>
      obtain ⟨r, hr, hres⟩ : ∃ r, walk h next stop k (some b) (next v) = some r ∧
          (r.2 = none ∨ ∃ l₁ a l₂, l = l₁ ++ a :: l₂ ∧ r = (l₁.getLast?.or (some b), some a)) :=
        ih hs (fun d hd => hstop d (List.mem_cons_of_mem _ hd)) (by simp at hf; omega)
      refine ⟨r, by simpa using hr, hres.imp_right ?_⟩
      rintro ⟨l₁, a, l₂, rfl, rfl⟩
      refine ⟨b :: l₁, a, l₂, rfl, ?_⟩
      cases l₁ <;> simp [List.getLast?_cons]

/-- More fuel does not change the result of a walk. -/
theorem walk_mono {fuel' : ℕ} {r : Option ℕ × Option ℕ}
    (hw : walk h next stop fuel prev p = some r) (hle : fuel ≤ fuel') :
    walk h next stop fuel' prev p = some r := by
  induction fuel generalizing fuel' prev p with
  | zero => cases hw
  | succ fuel ih =>
    obtain ⟨k, rfl⟩ : ∃ k, fuel' = k + 1 := ⟨fuel' - 1, by omega⟩
    cases p with
    | none => exact hw
    | some a =>
      rw [walk] at hw ⊢
      obtain ⟨v, hv, hw⟩ := Option.bind_eq_some_iff.1 hw
      obtain ⟨b, hb, hw⟩ := Option.bind_eq_some_iff.1 hw
      rw [hv, Option.bind_eq_bind, Option.bind_some, hb, Option.bind_eq_bind, Option.bind_some]
      cases b with
      | true => exact hw
      | false => exact ih hw (by omega)

/-- The cell that a walk stops at meets the test, whatever the links are. -/
theorem walk_stop {last : Option ℕ} (hw : walk h next stop fuel prev p = some (last, some a)) :
    ∃ v, h a = some v ∧ stop a v = some true := by
  induction fuel generalizing prev p with
  | zero => cases hw
  | succ fuel ih =>
    cases p with
    | none => cases hw
    | some b =>
      rw [walk] at hw
      obtain ⟨v, hv, hw⟩ := Option.bind_eq_some_iff.1 hw
      obtain ⟨c, hc, hw⟩ := Option.bind_eq_some_iff.1 hw
      cases c with
      | true =>
        cases hw
        exact ⟨v, hv, hc⟩
      | false => exact ih hw

/-- A walk that returns has found the first cell that meets the test. -/
theorem walk_found_eq {v : ν} {r : Option ℕ × Option ℕ} (hs : Chain h next p (l₁ ++ a :: l₂))
    (hstop : ∀ b ∈ l₁, ∀ v, h b = some v → stop b v = some false) (ha : h a = some v)
    (hav : stop a v = some true) (hw : walk h next stop fuel prev p = some r) :
    r = (l₁.getLast?.or prev, some a) := by
  have hmore := walk_mono hw (Nat.le_add_right fuel ((l₁ ++ a :: l₂).length + 1))
  rw [walk_found hs hstop ha hav (by omega)] at hmore
  exact (Option.some.inj hmore).symm

/-- A walk that returns has found no cell when none meets the test. -/
theorem walk_end_eq {r : Option ℕ × Option ℕ} (hs : Chain h next p l)
    (hstop : ∀ b ∈ l, ∀ v, h b = some v → stop b v = some false)
    (hw : walk h next stop fuel prev p = some r) : r = (l.getLast?.or prev, none) := by
  have hmore := walk_mono hw (Nat.le_add_right fuel (l.length + 1))
  rw [walk_end hs hstop (by omega)] at hmore
  exact (Option.some.inj hmore).symm

/-! ## Allocation -/

/-- An allocator. The `n`-th call on a heap returns the address of a new cell, which is not in
use, or null (`none`). -/
structure Malloc (ν : Type) where
  /-- The address the `n`-th call returns. -/
  addr : ℕ → (ℕ → Option ν) → Option ℕ
  /-- It is not in use. -/
  fresh : ∀ {n h a}, addr n h = some a → h a = none

/-- The allocator that takes a new address at each call. -/
def Malloc.bump (ν : Type) : Malloc ν where
  addr n h := match h (n + 1) with
    | none => some (n + 1)
    | some _ => none
  fresh {n h a} ha := by
    cases hn : h (n + 1) with
    | none =>
      rw [hn, Option.some.injEq] at ha
      exact ha ▸ hn
    | some _ => simp [hn] at ha

end UserOS.Lib
