import Mathlib.Logic.Function.Basic

/-!
# Runs of a transition relation

A program is a relation `step s e t`: the label `e` takes the state `s` to `t`. A run is a list
of labels with the state it ends in; it grows at the end, so that the list is the history of the
state reached.

* `Run.invariant`: what every step keeps holds of every state reached.
* `Run.history`: the same for a property of the state *and* the labels so far.
* `Guarded`: the steps of a relation that also meet a condition on the state before.
* `Reaching`: the steps that end in a state with a property.
* `Run.guarded_or`: a run meets the condition throughout, or has a first step that does not.
* `Run.guarded_of_reaching`: a run through good states only meets the condition throughout.
-/

namespace UserOS.Lib

variable {σ ε : Type*}

/-- `Run step s es t`: the labels `es`, in order, lead from `s` to `t`. -/
inductive Run (step : σ → ε → σ → Prop) (s : σ) : List ε → σ → Prop
  | nil : Run step s [] s
  | snoc {es : List ε} {t u : σ} {e : ε} : Run step s es t → step t e u → Run step s (es ++ [e]) u

/-- The steps of `step` whose state and label meet `ok`. -/
def Guarded (ok : σ → ε → Prop) (step : σ → ε → σ → Prop) (s : σ) (e : ε) (t : σ) : Prop :=
  ok s e ∧ step s e t

/-- The steps of `step` that end in a state with the property `good`. -/
def Reaching (good : σ → Prop) (step : σ → ε → σ → Prop) (s : σ) (e : ε) (t : σ) : Prop :=
  step s e t ∧ good t

namespace Run

variable {step step' : σ → ε → σ → Prop} {s t u : σ} {es fs : List ε} {e : ε}

theorem single (h : step s e t) : Run step s [e] t := by
  have hsnoc : Run step s ([] ++ [e]) t := Run.nil.snoc h
  simpa using hsnoc

theorem append (h : Run step s es t) (h' : Run step t fs u) : Run step s (es ++ fs) u := by
  induction h' with
  | nil => simpa using h
  | snoc _ hstep ih =>
    rw [← List.append_assoc]
    exact ih.snoc hstep

theorem nil_inv (h : Run step s [] t) : t = s := by
  generalize heq : ([] : List ε) = es at h
  cases h with
  | nil => rfl
  | snoc => simp at heq

/-- The last step of a run. -/
theorem snoc_inv (h : Run step s (es ++ [e]) u) : ∃ t, Run step s es t ∧ step t e u := by
  generalize heq : es ++ [e] = fs at h
  cases h with
  | nil => simp at heq
  | snoc hrun hstep =>
    obtain ⟨rfl, he⟩ := List.append_inj' heq rfl
    obtain rfl := List.singleton_inj.1 he
    exact ⟨_, hrun, hstep⟩

/-- The first step of a run. -/
theorem cons_inv (h : Run step s (e :: es) u) : ∃ t, step s e t ∧ Run step t es u := by
  generalize heq : e :: es = fs at h
  induction h generalizing es with
  | nil => cases heq
  | @snoc fs t u e' hrun hstep ih =>
    cases fs with
    | nil =>
      obtain ⟨rfl, rfl⟩ := List.cons.inj heq
      obtain rfl := hrun.nil_inv
      exact ⟨u, hstep, .nil⟩
    | cons f fs =>
      obtain ⟨rfl, rfl⟩ := List.cons.inj heq
      obtain ⟨v, hfirst, hrest⟩ := ih rfl
      exact ⟨v, hfirst, hrest.snoc hstep⟩

/-- A run in two parts. -/
theorem append_inv (h : Run step s (es ++ fs) u) : ∃ t, Run step s es t ∧ Run step t fs u := by
  induction es generalizing s with
  | nil => exact ⟨s, .nil, h⟩
  | cons e es ih =>
    obtain ⟨v, hfirst, hrest⟩ := h.cons_inv
    obtain ⟨t, hes, hfs⟩ := ih hrest
    exact ⟨t, (single hfirst).append hes, hfs⟩

theorem mono (hle : ∀ s e t, step s e t → step' s e t) (h : Run step s es t) :
    Run step' s es t := by
  induction h with
  | nil => exact .nil
  | snoc _ hstep ih => exact ih.snoc (hle _ _ _ hstep)

/-- The first step that does not meet the condition. -/
theorem guarded_or {ok : σ → ε → Prop} (h : Run step s es t) :
    Run (Guarded ok step) s es t ∨ ∃ es₁ e es₂ u v, es = es₁ ++ e :: es₂ ∧
      Run (Guarded ok step) s es₁ u ∧ ¬ok u e ∧ step u e v ∧ Run step v es₂ t := by
  induction h with
  | nil => exact .inl .nil
  | @snoc es t u e _ hstep ih =>
    rcases ih with hrun | ⟨es₁, e₁, es₂, v, w, rfl, hrun, hnot, hstep₁, hrest⟩
    · by_cases hok : ok t e
      · exact .inl (hrun.snoc ⟨hok, hstep⟩)
      · exact .inr ⟨es, e, [], t, u, rfl, hrun, hok, hstep, .nil⟩
    · refine .inr ⟨es₁, e₁, es₂ ++ [e], v, w, ?_, hrun, hnot, hstep₁, hrest.snoc hstep⟩
      rw [List.append_assoc, List.cons_append]

/-- A property of the state and its history that every step keeps holds along every run. -/
theorem history {I : List ε → σ → Prop} (h0 : I [] s)
    (hstep : ∀ es t e u, I es t → step t e u → I (es ++ [e]) u) (h : Run step s es t) :
    I es t := by
  induction h with
  | nil => exact h0
  | snoc _ hs ih => exact hstep _ _ _ _ ih hs

/-- **Invariants.** What holds at the start and is kept by every step holds in every state
reached. -/
theorem invariant {I : σ → Prop} (h0 : I s) (hstep : ∀ t e u, I t → step t e u → I u)
    (h : Run step s es t) : I t :=
  history (I := fun _ t => I t) h0 (fun _ t e u hI hs => hstep t e u hI hs) h

/-- Where only the steps that meet the condition reach a good state, a run that passes through good
states only meets it throughout. -/
theorem guarded_of_reaching {ok : σ → ε → Prop} {good I : σ → Prop} (h0 : I s)
    (hkeep : ∀ t e u, I t → ok t e → step t e u → I u)
    (hgood : ∀ t e u, I t → step t e u → good u → ok t e)
    (h : Run (Reaching good step) s es t) : Run (Guarded ok step) s es t := by
  have hI : ∀ {es t}, Run (Guarded ok step) s es t → I t := fun h =>
    h.invariant h0 fun t e u hI hs => hkeep t e u hI hs.1 hs.2
  induction h with
  | nil => exact .nil
  | snoc _ hs ih => exact ih.snoc ⟨hgood _ _ _ (hI ih) hs.1 hs.2, hs.1⟩

end Run

end UserOS.Lib
