import Mathlib.Data.List.Nodup
import UserOS.Lib.Run

/-!
# Taking turns

One member has the turn and the others stand in line. Members are numbered as they come. A newcomer
joins the line at its end; the member that has the turn goes back to the end of the line, or leaves
for good, and the first of the line gets the turn.

* `Rotation`: the one whose turn it is, and the line.
* `Shift`, `Rotation.shift`: what can happen, and what it does.
* `fair`: between two turns of a member, every other one that stays gets exactly one.
-/

namespace UserOS.Lib

/-- The members, each once: the one whose turn it is, and the line. -/
structure Rotation where
  created : ℕ
  current : ℕ
  waiting : List ℕ
  nodup : (current :: waiting).Nodup
  bound : ∀ a ∈ current :: waiting, a < created

/-- A member comes, gives up its turn, or leaves. -/
inductive Shift
  | add
  | rotate
  | drop
  deriving DecidableEq, Repr

/-- The turn passes on. -/
def Shift.passes : Shift → Bool
  | .add => false
  | .rotate | .drop => true

namespace Rotation

variable {r r' : Rotation} {a b T U n : ℕ} {A B w : List ℕ}

/-- All members. -/
def members (r : Rotation) : List ℕ := r.current :: r.waiting

@[ext] theorem ext (hc : r.created = r'.created) (hcur : r.current = r'.current)
    (hw : r.waiting = r'.waiting) : r = r' := by
  cases r
  cases r'
  cases hc
  cases hcur
  cases hw
  rfl

/-- A newcomer stands at the end of the line. -/
def add (r : Rotation) : Rotation where
  created := r.created + 1
  current := r.current
  waiting := r.waiting ++ [r.created]
  nodup := by
    rw [← List.cons_append, List.nodup_append]
    refine ⟨r.nodup, List.nodup_singleton _, fun a ha b hb => ?_⟩
    rw [List.mem_singleton.1 hb]
    exact Nat.ne_of_lt (r.bound a ha)
  bound a ha := by
    rw [← List.cons_append, List.mem_append, List.mem_singleton] at ha
    rcases ha with ha | rfl
    · exact Nat.lt_succ_of_lt (r.bound a ha)
    · exact Nat.lt_succ_self _

/-- The one that has the turn goes to the end of the line. -/
def rotate (r : Rotation) : Rotation :=
  match h : r.waiting with
  | [] => r
  | b :: w => {
    created := r.created
    current := b
    waiting := w ++ [r.current]
    nodup := by
      have hnd := r.nodup
      rw [h] at hnd
      exact (List.perm_append_singleton r.current (b :: w)).nodup_iff.2 hnd
    bound := fun a ha => by
      refine r.bound a ?_
      rw [h]
      exact (List.perm_append_singleton r.current (b :: w)).mem_iff.1 ha }

/-- The one that has the turn leaves. The last one cannot. -/
def drop (r : Rotation) : Option Rotation :=
  match h : r.waiting with
  | [] => none
  | b :: w => some {
    created := r.created
    current := b
    waiting := w
    nodup := by
      have hnd := r.nodup
      rw [h] at hnd
      exact hnd.of_cons
    bound := fun a ha => by
      refine r.bound a ?_
      rw [h]
      exact List.mem_cons_of_mem _ ha }

/-- What happens. -/
def shift (r : Rotation) : Shift → Option Rotation
  | .add => some r.add
  | .rotate => some r.rotate
  | .drop => r.drop

theorem rotate_nil (h : r.waiting = []) : r.rotate = r := by
  unfold rotate
  split
  · rfl
  · simp_all

theorem rotate_cons (h : r.waiting = b :: w) : r.rotate.created = r.created ∧
    r.rotate.current = b ∧ r.rotate.waiting = w ++ [r.current] := by
  unfold rotate
  split
  · simp_all
  · simp_all

theorem drop_cons (h : r.waiting = b :: w) : ∃ r', r.drop = some r' ∧
    r'.created = r.created ∧ r'.current = b ∧ r'.waiting = w := by
  unfold drop
  split
  · simp_all
  · simp_all

theorem drop_nil (h : r.waiting = []) : r.drop = none := by
  unfold drop
  split
  · rfl
  · simp_all

theorem rotate_members : r.rotate.members = r.waiting ++ [r.current] := by
  cases hw : r.waiting with
  | nil => simp [members, rotate_nil hw, hw]
  | cons b w => simp [members, rotate_cons hw]

theorem rotate_created : r.rotate.created = r.created := by
  cases hw : r.waiting with
  | nil => rw [rotate_nil hw]
  | cons b w => rw [(rotate_cons hw).1]

/-! ## Fairness -/

/-- What happens, with the member that gets the turn. -/
def Step (r : Rotation) (e : Shift × Option ℕ) (r' : Rotation) : Prop :=
  r.shift e.1 = some r' ∧ e.2 = if e.1.passes then some r'.current else none

variable {e : Shift × Option ℕ} {es : List (Shift × Option ℕ)}

/-- What happens determines who gets the turn. -/
theorem run_unique {r₁ r₂ : Rotation} {fs : List (Shift × Option ℕ)} (h : Run Step r es r₁)
    (h' : Run Step r fs r₂) (heq : es.map Prod.fst = fs.map Prod.fst) : es = fs ∧ r₁ = r₂ := by
  induction h generalizing fs r₂ with
  | nil =>
    rw [List.map_nil, eq_comm, List.map_eq_nil_iff] at heq
    subst heq
    exact ⟨rfl, h'.nil_inv.symm⟩
  | @snoc es t u e _ hstep ih =>
    obtain ⟨fs, e', rfl⟩ : ∃ fs' e', fs = fs' ++ [e'] := by
      rcases List.eq_nil_or_concat fs with rfl | ⟨fs', e', rfl⟩
      · simp at heq
      · exact ⟨fs', e', List.concat_eq_append⟩
    obtain ⟨t', hrun, hstep'⟩ := h'.snoc_inv
    rw [List.map_append, List.map_append] at heq
    obtain ⟨hinit, hlast⟩ := List.append_inj' heq rfl
    obtain ⟨rfl, rfl⟩ := ih hrun hinit
    obtain ⟨x, d⟩ := e
    obtain ⟨x', d'⟩ := e'
    obtain rfl : x = x' := List.singleton_inj.1 hlast
    obtain rfl := Option.some.inj (hstep.1.symm.trans hstep'.1)
    exact ⟨by rw [show d = d' from hstep.2.trans hstep'.2.symm], rfl⟩

/-- A newcomer stands in line, a single member keeps the turn, or the first of the line gets it. -/
theorem Step.cases (hs : Step r e r') :
    (e.2 = none ∧ r' = r.add) ∨ (r.waiting = [] ∧ e.2 = some r.current ∧ r' = r) ∨
    ∃ b w, r.waiting = b :: w ∧ e.2 = some b ∧ r'.created = r.created ∧ r'.current = b ∧
      (r'.waiting = w ++ [r.current] ∨ r'.waiting = w) := by
  obtain ⟨shift, d⟩ := e
  obtain ⟨hshift, hd⟩ := hs
  cases shift with
  | add => exact .inl ⟨hd, (Option.some.inj hshift).symm⟩
  | rotate =>
    obtain rfl := Option.some.inj hshift
    cases hw : r.waiting with
    | nil =>
      rw [rotate_nil hw] at hd ⊢
      exact .inr (.inl ⟨rfl, hd, rfl⟩)
    | cons b w =>
      obtain ⟨hc, hcur, hwait⟩ := rotate_cons hw
      exact .inr (.inr ⟨b, w, rfl, hd.trans (congrArg some hcur), hc, hcur, .inl hwait⟩)
  | drop =>
    change r.drop = some r' at hshift
    cases hw : r.waiting with
    | nil =>
      rw [drop_nil hw] at hshift
      cases hshift
    | cons b w =>
      obtain ⟨r₁, hr₁, hc, hcur, hwait⟩ := drop_cons hw
      obtain rfl := Option.some.inj (hshift.symm.trans hr₁)
      exact .inr (.inr ⟨b, w, rfl, hd.trans (congrArg some hcur), hc, hcur, .inr hwait⟩)

/-- Since the last turn of `T`, which has not got another one, `U` had `n` turns: none if `T` has
the turn still or stands behind `U`, and one if it stands before `U`. -/
inductive Due (T U : ℕ) (r : Rotation) (n : ℕ) : Prop
  | current : r.current = T → U ∈ r.waiting → n = 0 → Due T U r n
  | waiting {A B : List ℕ} : r.waiting = A ++ T :: B → (U ∈ A → n = 0) →
      (U = r.current ∨ U ∈ B → n = 1) → Due T U r n
  | gone : T ∉ r.members → T < r.created → Due T U r n

/-- The first of the line gets the turn, and it is not `T`. -/
theorem Due.pass (hd : Due T U r n) (hw : r.waiting = b :: w) (hb : b ≠ T)
    (hcreated : r'.created = r.created) (hcurrent : r'.current = b)
    (hwaiting : r'.waiting = w ++ [r.current] ∨ r'.waiting = w) :
    Due T U r' (n + if b = U then 1 else 0) := by
  have hnd := r.nodup
  rw [hw] at hnd
  have hbw : b ∉ w := (List.nodup_cons.1 hnd.of_cons).1
  have hmem : ∀ x, x ∈ r'.waiting → x ∈ w ∨ x = r.current := fun x hx => by
    rcases hwaiting with h | h
    · rw [h, List.mem_append, List.mem_singleton] at hx
      exact hx
    · exact .inl (h ▸ hx)
  cases hd with
  | current hT hU hn =>
    rcases hwaiting with h | h
    · -- `T` goes to the end of the line.
      rw [hT] at h
      refine .waiting h (fun hUw => ?_) fun hUc => ?_
      · rw [hn, if_neg fun heq : b = U => hbw (heq ▸ hUw)]
      · rcases hUc with hUc | hUc
        · rw [hn, if_pos (hUc.trans hcurrent).symm]
        · cases hUc
    · refine .gone (fun hT' => ?_) ?_
      · rcases List.mem_cons.1 hT' with hT' | hT'
        · exact hb (hT'.trans hcurrent).symm
        · exact (List.nodup_cons.1 hnd).1 (hT ▸ List.mem_cons_of_mem _ (h ▸ hT'))
      · rw [hcreated, ← hT]
        exact r.bound _ List.mem_cons_self
  | @waiting A B hline hA hB =>
    rw [hw] at hline
    cases A with
    | nil => exact absurd (List.cons.inj hline).1 hb
    | cons a A =>
      obtain ⟨rfl, rfl⟩ := List.cons.inj hline
      have hend : ∃ B', r'.waiting = A ++ T :: B' ∧ ∀ x ∈ B', x ∈ B ∨ x = r.current := by
        rcases hwaiting with h | h
        · refine ⟨B ++ [r.current], by simp [h], fun x hx => ?_⟩
          rwa [List.mem_append, List.mem_singleton] at hx
        · exact ⟨B, h, fun x hx => .inl hx⟩
      obtain ⟨B', hline', hB'⟩ := hend
      refine .waiting hline' (fun hUA => ?_) fun hUB => ?_
      · rw [hA (List.mem_cons_of_mem _ hUA), if_neg fun heq => hbw (by simp [heq, hUA])]
      · by_cases hbU : b = U
        · rw [hA (hbU ▸ List.mem_cons_self), if_pos hbU]
        · rw [if_neg hbU]
          refine hB ?_
          rcases hUB with hUc | hUB
          · exact absurd (hUc.trans hcurrent).symm hbU
          · exact (hB' U hUB).symm
  | gone hT hlt =>
    refine .gone (fun hT' => hT ?_) (hcreated ▸ hlt)
    rcases List.mem_cons.1 hT' with hT' | hT'
    · exact absurd (hT'.trans hcurrent).symm hb
    · rw [members, hw]
      rcases hmem T hT' with h | h
      · simp [h]
      · simp [h]

/-- One thing happens, and `T` does not get the turn. -/
theorem Due.step (hd : Due T U r n) (hU : U < r.created) (hs : Step r e r') (hT : e.2 ≠ some T) :
    Due T U r' (n + [e.2].count (some U)) := by
  rcases hs.cases with ⟨he, rfl⟩ | ⟨hw, he, rfl⟩ | ⟨b, w, hw, he, hc, hcur, hwait⟩
  · rw [he]
    cases hd with
    | current hcur hmem hn => exact .current hcur (List.mem_append_left _ hmem) hn
    | @waiting A B hline hA hB =>
      refine @Due.waiting T U _ _ A (B ++ [r.created]) (by simp [add, hline]) hA fun h => hB ?_
      refine h.imp_right fun h => (List.mem_append.1 h).resolve_right fun h => ?_
      exact Nat.ne_of_lt hU (List.mem_singleton.1 h)
    | gone hmem hlt =>
      refine .gone (fun h => hmem ?_) (Nat.lt_succ_of_lt hlt)
      have h : T ∈ r.members ++ [r.created] := h
      rcases List.mem_append.1 h with h | h
      · exact h
      · exact absurd (List.mem_singleton.1 h) (Nat.ne_of_lt hlt)
  · -- The only member keeps the turn, so that `T` is gone.
    have hgone : T ∉ r'.members := fun h => by
      rw [members, hw, List.mem_singleton] at h
      exact hT (by rw [he, h])
    cases hd with
    | current hcur _ _ => exact absurd (by simp [members, hcur]) hgone
    | waiting hline _ _ => simp [hw] at hline
    | gone _ hlt => exact .gone hgone hlt
  · rw [he] at hT ⊢
    have hcount : [some b].count (some U) = if b = U then 1 else 0 := by
      rw [List.count_singleton]
      by_cases hbU : b = U <;> simp [hbU]
    rw [hcount]
    exact hd.pass hw (fun h => hT (congrArg some h)) hc hcur hwait

/-- **Fairness.** Between two turns of `T` without another one between them, every other member that
was there at the first and is there at the second gets exactly one turn. -/
theorem fair {e₂ : Shift × Option ℕ} {r₂ : Rotation} (hr : Run Step r es r') (hs : Step r' e₂ r₂)
    (hfirst : r.current = T) (hbetween : some T ∉ es.map Prod.snd) (hsecond : e₂.2 = some T)
    (hne : U ≠ T) (hU : U ∈ r.members) (hU₂ : U ∈ r₂.members) :
    (es.map Prod.snd).count (some U) = 1 := by
  have hdue : U < r'.created ∧ (some T ∉ es.map Prod.snd →
      Due T U r' ((es.map Prod.snd).count (some U))) := by
    refine Run.history (I := fun es r' => U < r'.created ∧ (some T ∉ es.map Prod.snd →
      Due T U r' ((es.map Prod.snd).count (some U)))) ⟨r.bound U hU, fun _ => ?_⟩ ?_ hr
    · refine .current hfirst ?_ rfl
      exact (List.mem_cons.1 hU).resolve_left fun h => hne (h.trans hfirst)
    · rintro fs t e u ⟨hlt, hdue⟩ hstep
      refine ⟨?_, fun hnot => ?_⟩
      · rcases hstep.cases with ⟨-, rfl⟩ | ⟨-, -, rfl⟩ | ⟨-, -, -, -, hc, -⟩
        · exact Nat.lt_succ_of_lt hlt
        · exact hlt
        · rwa [hc]
      · rw [List.map_append, List.mem_append, not_or, List.map_singleton,
        List.mem_singleton] at hnot
        rw [List.map_append, List.map_singleton, List.count_append]
        exact (hdue hnot.1).step hlt hstep (Ne.symm hnot.2)
  have hnd := r'.nodup
  rcases hs.cases with ⟨he, -⟩ | ⟨hw, he, rfl⟩ | ⟨b, w, hw, he, -, hcur, hwait⟩
  · rw [hsecond] at he
    cases he
  · rw [members, hw, List.mem_singleton] at hU₂
    rw [hsecond, Option.some.injEq] at he
    exact absurd (hU₂.trans he.symm) hne
  · rw [hsecond, Option.some.injEq] at he
    subst he
    rw [hw] at hnd
    cases hdue.2 hbetween with
    | current hT _ _ => exact absurd (hT ▸ List.mem_cons_self) (List.nodup_cons.1 hnd).1
    | @waiting A B hline _ hB =>
      rw [hw] at hline
      cases A with
      | cons a A =>
        obtain ⟨rfl, rfl⟩ := List.cons.inj hline
        exact absurd (by simp) (List.nodup_cons.1 hnd.of_cons).1
      | nil =>
        obtain ⟨-, rfl⟩ := List.cons.inj hline
        refine hB ?_
        have hU₂ := (List.mem_cons.1 hU₂).resolve_left fun h => hne (h.trans hcur)
        rcases hwait with h | h
        · rw [h, List.mem_append, List.mem_singleton] at hU₂
          exact hU₂.symm
        · exact .inr (h ▸ hU₂)
    | gone hT _ => exact absurd (by simp [members, hw]) hT

end Rotation

end UserOS.Lib
