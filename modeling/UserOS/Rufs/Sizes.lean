import UserOS.Rufs.Namespace
import UserOS.Rufs.ReadBack

/-!
# The size of a file

`rufs_write` adds the number of bytes written to the size of the file, wherever they are written.

* `size_law_iff`: after which histories of a file its size is the end of the last byte written.
-/

namespace UserOS.Rufs

open Lib

variable {disk : Disk} {fs fs' : Fs} {env : Env} {T : Finset ℕ} {i n s offset mode : ℕ}
  {w : WriteCall} {us ws : List WriteCall} {path : CString}

/-! ## Histories -/

/-- Where the last byte ends that some writes write. -/
def lastEnd (ws : List WriteCall) : ℕ := ws.foldl (fun m w => max m (w.offset + w.size)) 0

/-- The number of bytes that some writes write. -/
def total (ws : List WriteCall) : ℕ := (ws.map WriteCall.size).sum

/-- The first write starts at `s`, and each of the others where the one before ends. -/
def Appends : ℕ → List WriteCall → Prop
  | _, [] => True
  | s, w :: ws => w.offset = s ∧ Appends (s + w.size) ws

theorem lastEnd_snoc : lastEnd (ws ++ [w]) = max (lastEnd ws) (w.offset + w.size) := by
  unfold lastEnd
  rw [List.foldl_append]
  rfl

theorem total_snoc : total (ws ++ [w]) = total ws + w.size := by
  simp [total]

theorem appends_snoc : Appends s (ws ++ [w]) ↔ Appends s ws ∧ w.offset = s + total ws := by
  induction ws generalizing s with
  | nil => simp [Appends, total]
  | cons v ws ih =>
    rw [List.cons_append, Appends, Appends, ih, and_assoc, Nat.add_assoc]
    rfl

/-- Appended bytes are all there is. -/
theorem lastEnd_of_appends (h : Appends 0 ws) : lastEnd ws = total ws := by
  induction ws using List.reverseRecOn with
  | nil => rfl
  | append_singleton ws w ih =>
    obtain ⟨hws, hw⟩ := appends_snoc.1 h
    rw [lastEnd_snoc, total_snoc, ih hws, hw]
    omega

/-! ## One file -/

/-- The file of the path has the size `s`, in its inode and as `rufs_getattr` reports it. -/
structure HasSize (fs : Fs) (path : CString) (i s : ℕ) : Prop where
  path : pathIno fs path 0 = some (some i)
  size : get (readi fs i) .size = s
  stSize : get (readi fs i) .stSize = s

/-- **A new file** is empty. -/
theorem hasSize_create (h : Reached disk fs) (hp : Passed fs path) (hne : components path ≠ [])
    (hcall : rufsCreate env fs path mode = some (0, fs')) : ∃ i, HasSize fs' path i 0 := by
  obtain ⟨hm, -, T, hinv⟩ := h.spec
  obtain ⟨r, fs'', heq, hm', -, hcases⟩ :=
    @rufsCreate_spec fs env T mode path hinv hm hp.ok hp.dirs hp.basename_length
  rw [hcall, Option.some.injEq, Prod.mk.injEq] at heq
  obtain ⟨rfl, rfl⟩ := heq
  obtain ⟨hr, -⟩ | ⟨-, i, q, hq, hmade, hnew, hsize, -⟩ := hcases
  · exact absurd rfl hr
  have hiT := Finset.mem_insert_self i T
  have hread := readi_eq_of_mem hmade.inv hm' hiT
  have hpath := (hinv.pathMade hm hm' hp.ok hp.dirs hne hq hmade fun n hn =>
    dirFind_null hm' (hmade.inv.tracked i hiT).lt (hnew.direct 0 (by decide)) hn).after
  exact ⟨i, hpath, hread ▸ hsize.size, hread ▸ hsize.stSize⟩

/-- **One write** adds the number of its bytes. -/
theorem HasSize.write (h : HasSize fs path i s) (hreached : Reached disk fs)
    (hw : FullWrite path fs w fs') (hn : 1 ≤ w.size) :
    HasSize fs' path i ((s + w.size) % 2 ^ 32) ∧ w.offset ≤ s ∧
      w.offset + w.size ≤ fileCapacity := by
  obtain ⟨⟨hp, hfile, hcap⟩, hcall⟩ := hw
  obtain ⟨T, hat⟩ := FileAt.of_reached hreached hp hfile h.path
  obtain ⟨hoff, fs₁, x', -, -, hclosed⟩ := rufsWrite_full hat hn hcap hcall
  obtain ⟨hi', -, hslot'⟩ := hat.after hclosed.wrote hclosed.mounted
  have hsize := h.size
  rw [hat.slot] at hsize
  refine ⟨⟨hi', ?_, ?_⟩, hsize ▸ hoff, hcap⟩
  · rw [hslot', hclosed.size, hsize]
  · rw [hslot', hclosed.stSize, hsize]

/-- **A run of writes** adds the numbers of their bytes. -/
theorem HasSize.run (h : HasSize fs path i 0) (hreached : Reached disk fs)
    (hrun : Run (FullWrite path) fs ws fs') (hn : ∀ w ∈ ws, 1 ≤ w.size) :
    HasSize fs' path i (total ws % 2 ^ 32) := by
  refine Run.history (I := fun ws t => Reached disk t ∧
    ((∀ w ∈ ws, 1 ≤ w.size) → HasSize t path i (total ws % 2 ^ 32))) ?_ ?_ hrun |>.2 hn
  · exact ⟨hreached, fun _ => h⟩
  · intro es t w u ⟨ht, hsize⟩ hw
    refine ⟨ht.call hw.1 hw.2, fun hpos => ?_⟩
    have hstep := (hsize fun v hv => hpos v (List.mem_append_left _ hv)).write ht hw
      (hpos w (List.mem_append_right _ (List.mem_singleton_self w)))
    rw [Nat.mod_add_mod] at hstep
    rw [total_snoc]
    exact hstep.1

/-! ## The law -/

/-- The size of the file of the path, in its inode and as `rufs_getattr` reports it, is the end of
the last byte written. -/
structure SizeLaw (fs : Fs) (path : CString) (ws : List WriteCall) : Prop where
  inode : ∃ i, pathIno fs path 0 = some (some i) ∧ get (readi fs i) .size = lastEnd ws
  getattr : ∀ env stbuf, ∃ st, rufsGetattr env fs path stbuf = some (0, st) ∧ st.size = lastEnd ws

theorem HasSize.law_iff (h : HasSize fs path i s) : SizeLaw fs path ws ↔ s = lastEnd ws := by
  constructor
  · intro ⟨⟨j, hj, hsize⟩, _⟩
    rw [h.path, Option.some.injEq, Option.some.injEq] at hj
    rw [← h.size, hj, hsize]
  · intro hs
    refine ⟨⟨i, h.path, h.size.trans hs⟩, fun env stbuf => ?_⟩
    unfold rufsGetattr
    rw [node_of_pathIno h.path, Option.map_some]
    exact ⟨_, rfl, h.stSize.trans hs⟩

/-- **The size law.** After a file has been made and then written to in any way, the size is the end
of the last byte written, from the first write to the last, if and only if each write starts where
the one before ends. -/
theorem size_law_iff {fs₀ : Fs} (h : Reached disk fs₀) (hp : Passed fs₀ path)
    (hne : components path ≠ []) (hcreate : rufsCreate env fs₀ path mode = some (0, fs))
    (hrun : Run (FullWrite path) fs ws fs') (hn : ∀ w ∈ ws, 1 ≤ w.size) :
    (∀ us t, us <+: ws → Run (FullWrite path) fs us t → SizeLaw t path us) ↔ Appends 0 ws := by
  have hreached : Reached disk fs :=
    h.call (show Op.Allowed fs₀ (.create path mode) from hp) hcreate
  obtain ⟨i, hempty⟩ := hasSize_create h hp hne hcreate
  induction ws using List.reverseRecOn generalizing fs' with
  | nil =>
    refine iff_of_true (fun us t hus ht => ?_) trivial
    obtain rfl := List.prefix_nil.1 hus
    exact (hempty.run hreached ht hn).law_iff.2 rfl
  | append_singleton ws w ih =>
    obtain ⟨t, ht, hw⟩ := hrun.snoc_inv
    have hpos : ∀ v ∈ ws, 1 ≤ v.size := fun v hv => hn v (List.mem_append_left _ hv)
    have hwpos := hn w (List.mem_append_right _ (List.mem_singleton_self w))
    have hsize := hempty.run hreached ht hpos
    obtain ⟨-, hoff, hcap⟩ := hsize.write (hreached.fullWrites ht) hw hwpos
    rw [fileCapacity_eq] at hcap
    have hih := ih ht hpos
    rw [appends_snoc, Nat.zero_add]
    constructor
    · intro hall
      have hws := fun us t (hus : us <+: ws) => hall us t (hus.trans (List.prefix_append ws [w]))
      refine ⟨hih.1 hws, ?_⟩
      have hold := hsize.law_iff.1 (hws ws t (List.prefix_refl ws) ht)
      have hnew := (hempty.run hreached hrun hn).law_iff.1 (hall _ fs' (List.prefix_refl _) hrun)
      rw [lastEnd_snoc, total_snoc, lastEnd_of_appends (hih.1 hws)] at hnew
      rw [lastEnd_of_appends (hih.1 hws)] at hold
      omega
    · intro ⟨happends, hw⟩ us t' hus ht'
      obtain rfl | hus := List.prefix_concat_iff.1 hus
      · refine (hempty.run hreached ht' hn).law_iff.2 ?_
        rw [lastEnd_snoc, total_snoc, lastEnd_of_appends happends, hw]
        rw [hw] at hcap
        have hlt : total ws + w.size < 2 ^ 32 := by omega
        rw [Nat.mod_eq_of_lt hlt]
        omega
      · exact hih.2 happends us t' hus ht'

/-- Three bytes are written, and two behind them. -/
theorem size_law_iff_append : ∃ fs : Fs, SizeLaw fs [47, 102]
    [⟨still, fun _ => 7, 3, 0⟩, ⟨still, fun _ => 8, 2, 3⟩] := by
  obtain ⟨fs₀, hreached, hfs⟩ := reached_of_any Bytes.zero still []
    (fun fs => decide (Passed fs [47, 102]) && (rufsCreate still fs [47, 102] 0).any
      fun r : ℤ × Fs => r.1 == 0 && (fullWrites [47, 102] r.2
        [⟨still, fun _ => 7, 3, 0⟩, ⟨still, fun _ => 8, 2, 3⟩]).isSome) (by decide +kernel)
  simp only [Bool.and_eq_true, decide_eq_true_eq, beq_iff_eq, Option.any_eq_true,
    Option.isSome_iff_exists] at hfs
  obtain ⟨hp, ⟨r, fs⟩, hcreate, hr, fs', hwrites⟩ := hfs
  obtain rfl : r = 0 := hr
  have hrun := run_of_fullWrites hwrites
  exact ⟨fs', (size_law_iff hreached hp (by decide) hcreate hrun (by decide)).2
    ⟨rfl, rfl, trivial⟩ _ fs' (List.prefix_refl _) hrun⟩

/-- The same byte is written twice. -/
theorem size_law_overwrite : ¬∀ (fs₀ fs fs' : Fs) (path : CString) (mode : ℕ)
    (ws : List WriteCall), Reached Bytes.zero fs₀ → Passed fs₀ path → components path ≠ [] →
    rufsCreate still fs₀ path mode = some (0, fs) → Run (FullWrite path) fs ws fs' →
    (∀ w ∈ ws, 1 ≤ w.size) → SizeLaw fs' path ws := by
  intro hall
  obtain ⟨fs₀, hreached, hfs⟩ := reached_of_any Bytes.zero still []
    (fun fs => decide (Passed fs [47, 102]) && (rufsCreate still fs [47, 102] 0).any
      fun r : ℤ × Fs => r.1 == 0 && (fullWrites [47, 102] r.2
        [⟨still, fun _ => 7, 1, 0⟩, ⟨still, fun _ => 7, 1, 0⟩]).any fun fs' =>
          (pathIno fs' [47, 102] 0 == some (some 1)) && get (readi fs' 1) .size == 2)
    (by decide +kernel)
  simp only [Bool.and_eq_true, decide_eq_true_eq, beq_iff_eq, Option.any_eq_true] at hfs
  obtain ⟨hp, ⟨r, fs⟩, hcreate, hr, fs', hwrites, hi, hsize⟩ := hfs
  obtain rfl : r = 0 := hr
  obtain ⟨i, hi', hlaw⟩ := (hall fs₀ fs fs' [47, 102] 0 _ hreached hp (by decide) hcreate
    (run_of_fullWrites hwrites) (by decide)).inode
  rw [hi, Option.some.injEq, Option.some.injEq] at hi'
  rw [← hi', hsize] at hlaw
  exact absurd hlaw (by decide)

end UserOS.Rufs
