import Mathlib.Data.List.DropRight
import UserOS.Lib.CString

/-!
# Path names

`basename` and `dirname` take a path apart at its last slash, and ignore slashes at its end. An
absolute path is its list of components, the parts between slashes that are not empty.

* `basename_eq`: the name is the last component.
* `components_dirname`: the directory has the components before it.
-/

namespace UserOS.Lib

/-- `'/'`. -/
def slash : UInt8 := 47

/-- `basename`. -/
def basename (p : CString) : CString :=
  let q := p.rdropWhile (· == slash)
  if p = [] then [46] else if q = [] then [slash] else q.rtakeWhile (· != slash)

/-- `dirname`. -/
def dirname (p : CString) : CString :=
  let q := p.rdropWhile (· == slash)
  let r := q.rdropWhile (· != slash)
  let s := r.rdropWhile (· == slash)
  if p ≠ [] ∧ q = [] then [slash] else if r = [] then [46] else if s = [] then [slash] else s

/-- The components of a path. -/
def components (p : CString) : List CString := (p.splitOn slash).filter (· ≠ [])

/-- The path starts with a slash. -/
def IsAbsolute (p : CString) : Prop := p.head? = some slash

instance {p : CString} : Decidable (IsAbsolute p) := inferInstanceAs (Decidable (_ = _))

variable {p q l : CString} {c : CString}

/-! ## Components -/

@[simp] theorem components_nil : components [] = [] := rfl

@[simp] theorem components_append_slash (p q : CString) :
    components (p ++ slash :: q) = components p ++ components q := by
  unfold components
  rw [List.splitOn_append_cons_self, List.filter_append]

theorem components_of_notMem (h : slash ∉ l) (hne : l ≠ []) : components l = [l] := by
  unfold components
  rw [List.splitOn_eq_singleton h]
  simp [hne]

theorem component_ne_nil (h : c ∈ components p) : c ≠ [] := by
  have hmem := (List.mem_filter.1 h).2
  simpa using hmem

theorem slash_notMem_splitOn (p : CString) : ∀ c ∈ p.splitOn slash, slash ∉ c ∧ c ⊆ p := by
  induction p with
  | nil => simp
  | cons x p ih =>
    rw [List.splitOn_cons_eq_if_modifyHead]
    intro c hc
    split at hc
    next =>
      rcases List.mem_cons.1 hc with rfl | hc
      · simp
      · exact ⟨(ih c hc).1, List.subset_cons_of_subset x (ih c hc).2⟩
    next hx =>
      obtain ⟨d, ds, hsplit⟩ := List.exists_cons_of_ne_nil (List.splitOn_ne_nil slash p)
      rw [hsplit] at hc ih
      rcases List.mem_cons.1 hc with rfl | hc
      · have hd := ih d List.mem_cons_self
        refine ⟨fun hm => ?_, List.cons_subset_cons x hd.2⟩
        rcases List.mem_cons.1 hm with rfl | hm
        · simp at hx
        · exact hd.1 hm
      · have hd := ih c (List.mem_cons_of_mem d hc)
        exact ⟨hd.1, List.subset_cons_of_subset x hd.2⟩

theorem slash_notMem_component (h : c ∈ components p) : slash ∉ c :=
  (slash_notMem_splitOn p c (List.mem_filter.1 h).1).1

theorem component_subset (h : c ∈ components p) : c ⊆ p :=
  (slash_notMem_splitOn p c (List.mem_filter.1 h).1).2

theorem components_length_le (p : CString) : (components p).length ≤ p.length := by
  unfold components
  induction p with
  | nil => exact le_rfl
  | cons x p ih =>
    rw [List.splitOn_cons_eq_if_modifyHead]
    split
    next => exact Nat.le_succ_of_le ih
    next =>
      obtain ⟨d, ds, hsplit⟩ := List.exists_cons_of_ne_nil (List.splitOn_ne_nil slash p)
      rw [hsplit] at ih ⊢
      have hle : (ds.filter (· ≠ [])).length ≤ ((d :: ds).filter (· ≠ [])).length :=
        ((List.sublist_cons_self d ds).filter _).length_le
      rw [List.modifyHead_cons, List.filter_cons_of_pos (by simp), List.length_cons,
        List.length_cons]
      exact Nat.succ_le_succ (hle.trans ih)

/-! ## Taking the last component off -/

/-- Slashes at the end belong to no component. -/
theorem components_rdropWhile (p : CString) :
    components (p.rdropWhile (· == slash)) = components p := by
  induction p using List.reverseRecOn with
  | nil => rfl
  | append_singleton p x ih =>
    by_cases hx : x = slash
    · subst hx
      rw [List.rdropWhile_concat_pos _ _ _ (by simp), ih, components_append_slash]
      simp
    · rw [List.rdropWhile_concat_neg _ _ _ (by simpa using hx)]

/-- What is left without the last component ends in a slash, or is empty. -/
theorem rdropWhile_ends (p : CString) :
    p.rdropWhile (· != slash) = [] ∨ ∃ r, p.rdropWhile (· != slash) = r ++ [slash] := by
  by_cases hr : p.rdropWhile (· != slash) = []
  · exact .inl hr
  · have hlast := List.rdropWhile_last_not _ _ hr
    have hsplit := (List.dropLast_append_getLast hr).symm
    rw [show (p.rdropWhile (· != slash)).getLast hr = slash by simpa using hlast] at hsplit
    exact .inr ⟨_, hsplit⟩

/-- The components of a path that does not end in a slash. -/
theorem components_split (h : p.rdropWhile (· == slash) = p) (hne : p ≠ []) :
    components p = components (p.rdropWhile (· != slash)) ++ [p.rtakeWhile (· != slash)] := by
  have hlast : p.rtakeWhile (· != slash) ≠ [] := by
    rw [ne_eq, List.rtakeWhile_eq_nil_iff]
    intro hall
    have hends := List.rdropWhile_eq_self_iff.1 h hne
    exact hall hne (by simpa using hends)
  have hnot : slash ∉ p.rtakeWhile (· != slash) := fun hm => by
    have := List.mem_rtakeWhile_imp hm
    simp at this
  have hsplit : p = p.rdropWhile (· != slash) ++ p.rtakeWhile (· != slash) :=
    List.rdropWhile_append_rtakeWhile.symm
  obtain hr | ⟨r, hr⟩ := rdropWhile_ends p
  · rw [hr, List.nil_append] at hsplit
    rw [hr, components_nil, List.nil_append, ← hsplit]
    exact components_of_notMem (hsplit ▸ hnot) hne
  · conv_lhs => rw [hsplit, hr, List.append_assoc, List.singleton_append]
    rw [components_append_slash, components_of_notMem hnot hlast, hr, components_append_slash,
      components_nil, List.append_nil]

theorem IsAbsolute.ne_nil (h : IsAbsolute p) : p ≠ [] := by
  rintro rfl
  cases h

theorem IsAbsolute.prefix (h : IsAbsolute p) (hq : q <+: p) (hne : q ≠ []) : IsAbsolute q := by
  obtain ⟨x, q, rfl⟩ := List.exists_cons_of_ne_nil hne
  obtain ⟨r, rfl⟩ := hq
  exact h

/-- An absolute path without its last component and the slashes at its end. -/
theorem IsAbsolute.split (h : IsAbsolute p) (hq : p.rdropWhile (· == slash) ≠ []) :
    ∃ r, (p.rdropWhile (· == slash)).rdropWhile (· != slash) = r ++ [slash] := by
  have habs := h.prefix (List.rdropWhile_prefix _ _) hq
  obtain hr | hr := rdropWhile_ends (p.rdropWhile (· == slash))
  · rw [List.rdropWhile_eq_nil_iff] at hr
    have := hr slash (List.mem_of_mem_head? habs)
    simp at this
  · exact hr

theorem components_eq_nil : components p = [] ↔ p.rdropWhile (· == slash) = [] := by
  rw [← components_rdropWhile]
  constructor
  · intro hc
    by_contra hne
    rw [components_split (List.rdropWhile_idempotent _ _) hne] at hc
    simp at hc
  · intro hq
    rw [hq]
    rfl

/-- **`basename`** of an absolute path is its last component. -/
theorem basename_eq (h : IsAbsolute p) : basename p = (components p).getLast?.getD [slash] := by
  unfold basename
  rw [if_neg h.ne_nil]
  by_cases hq : p.rdropWhile (· == slash) = []
  · rw [if_pos hq, components_eq_nil.2 hq]
    rfl
  · rw [if_neg hq, ← components_rdropWhile p,
      components_split (List.rdropWhile_idempotent _ _) hq, List.getLast?_concat]
    rfl

theorem basename_eq_slash (h : IsAbsolute p) : basename p = [slash] ↔ components p = [] := by
  rw [basename_eq h]
  cases hc : (components p).getLast? with
  | none => simpa using hc
  | some c =>
    have hmem := List.mem_of_getLast? hc
    have hne : c ≠ [slash] := fun h => slash_notMem_component hmem (h ▸ List.mem_singleton_self _)
    rw [Option.getD_some, iff_false_left hne]
    intro h0
    rw [h0] at hmem
    exact List.not_mem_nil hmem

/-- **`dirname`** of an absolute path has the components before the last. -/
theorem components_dirname (h : IsAbsolute p) :
    components (dirname p) = (components p).dropLast := by
  unfold dirname
  by_cases hq : p.rdropWhile (· == slash) = []
  · rw [if_pos ⟨h.ne_nil, hq⟩, components_eq_nil.2 hq]
    rfl
  · obtain ⟨r, hr⟩ := h.split hq
    have hcomps : components p = components r ++
        [(p.rdropWhile (· == slash)).rtakeWhile (· != slash)] := by
      rw [← components_rdropWhile p, components_split (List.rdropWhile_idempotent _ _) hq, hr,
        components_append_slash, components_nil, List.append_nil]
    have hs : components ((r ++ [slash]).rdropWhile (· == slash)) = components r := by
      rw [components_rdropWhile, components_append_slash, components_nil, List.append_nil]
    rw [if_neg (fun hh => hq hh.2), hr, if_neg (by simp), hcomps, List.dropLast_concat]
    split
    next h0 =>
      rw [h0] at hs
      exact hs
    next => exact hs

/-- A path is its directory and its last component. -/
theorem components_eq_snoc (h : IsAbsolute p) (hne : components p ≠ []) :
    components p = components (dirname p) ++ [basename p] := by
  rw [components_dirname h, basename_eq h, List.getLast?_eq_some_getLast hne, Option.getD_some]
  exact (List.dropLast_append_getLast hne).symm

theorem isAbsolute_dirname (h : IsAbsolute p) : IsAbsolute (dirname p) := by
  unfold dirname
  by_cases hq : p.rdropWhile (· == slash) = []
  · rw [if_pos ⟨h.ne_nil, hq⟩]
    rfl
  · obtain ⟨r, hr⟩ := h.split hq
    rw [if_neg (fun hh => hq hh.2), if_neg (by simp [hr])]
    split
    next => rfl
    next hs =>
      refine h.prefix ?_ hs
      exact (List.rdropWhile_prefix _ _).trans ((List.rdropWhile_prefix _ _).trans
        (List.rdropWhile_prefix _ _))

/-- Every list of names is a path. -/
theorem exists_components (cs : List CString) (h : ∀ c ∈ cs, c ≠ [] ∧ slash ∉ c) :
    ∃ p, IsAbsolute p ∧ components p = cs := by
  induction cs using List.reverseRecOn with
  | nil => exact ⟨[slash], rfl, rfl⟩
  | append_singleton cs c ih =>
    obtain ⟨p, hp, hcs⟩ := ih fun d hd => h d (List.mem_append_left _ hd)
    obtain ⟨hne, hslash⟩ := h c (by simp)
    refine ⟨p ++ slash :: c, ?_, ?_⟩
    · unfold IsAbsolute
      rw [List.head?_append_of_ne_nil _ hp.ne_nil]
      exact hp
    · rw [components_append_slash, hcs, components_of_notMem hslash hne]

end UserOS.Lib
