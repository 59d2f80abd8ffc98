import UserOS.Rufs.Make

/-!
# Removing files and directories

`rufs_rmdir` and `rufs_unlink`. Both clear the blocks of the inode one by one, then the inode, and
remove the entry last.

* `Clearing`: the blocks at some places of the inode are cleared, and no others.
* `Gone`: what removing an inode changes.
* `rufsRmdir_spec`, `rufsUnlink_spec`: what the two operations change.
-/

namespace UserOS.Rufs

open Lib

variable {v v₁ v' : View} {fs fs₁ : Fs} {env : Env} {T : Finset ℕ} {S S' : Ref → Prop} {x y : Inode}
  {b : Bytes} {i j k m q n : ℕ} {p : ℤ} {r : Ref} {path : CString}

/-! ## Clearing blocks -/

/-- From `v` on, the blocks that inode `i` keeps at the places `S` have been cleared, and no others.
-/
structure Clearing (v : View) (i : ℕ) (S : Ref → Prop) (fs : Fs) : Prop where
  mounted : fs.Mounted
  steps : View.Steps v fs.view
  slot : fs.view.slot = v.slot
  ibit : fs.view.ibit = v.ibit
  kept : ∀ p, v.Used p → (∀ r, S r → v.names (v.slot i) r ≠ some p) →
    fs.view.Used p ∧ fs.view.block p = v.block p
  cleared : ∀ (k : ℕ) r, S r → v.names (v.slot i) r = some (67 + (k : ℤ)) → fs.view.dbit k = false
  le : ∀ k, fs.view.dbit k = true → v.dbit k = true

theorem bioRead_used (hu : fs.view.Used p) : bioRead fs.disk p = fs.view.block p := by
  obtain ⟨k, hk, rfl, -⟩ := hu
  rw [bioRead_blk hk rfl, View.block_add]

/-- The pointers are followed from indirect pointer `k` on up to the first null pointer. -/
def View.Followed (v : View) (x : Inode) (k k' : ℕ) : Prop :=
  k ≤ k' ∧ ∀ l, k ≤ l → l ≤ k' → v.names x (.indirect l) ≠ none

/-- The words of an indirect block are followed from word `j` on up to the first null pointer. -/
def View.FollowedIn (v : View) (x : Inode) (k j j' : ℕ) : Prop :=
  j ≤ j' ∧ ∀ l, j ≤ l → l ≤ j' → v.names x (.entry k l) ≠ none

/-- The places that `rufs_unlink` comes to. -/
def View.Visited (v : View) (x : Inode) : Ref → Prop
  | .direct _ => True
  | .indirect k => v.Followed x 0 k
  | .entry k j => v.Followed x 0 k ∧ v.FollowedIn x k 0 j

theorem followed_iff : v.Followed x k k' ↔
    k ≤ k' ∧ v.names x (.indirect k) ≠ none ∧ (k' = k ∨ v.Followed x (k + 1) k') := by
  constructor
  · intro ⟨hle, hall⟩
    refine ⟨hle, hall k le_rfl hle, ?_⟩
    by_cases hk : k' = k
    · exact .inl hk
    · exact .inr ⟨by omega, fun l hl => hall l (by omega)⟩
  · intro ⟨hle, hk, hrest⟩
    refine ⟨hle, fun l hl hl' => ?_⟩
    by_cases hlk : l = k
    · rwa [hlk]
    · obtain rfl | ⟨-, hall⟩ := hrest
      · omega
      · exact hall l (by omega) hl'

theorem followedIn_iff : v.FollowedIn x k j j' ↔
    j ≤ j' ∧ v.names x (.entry k j) ≠ none ∧ (j' = j ∨ v.FollowedIn x k (j + 1) j') := by
  constructor
  · intro ⟨hle, hall⟩
    refine ⟨hle, hall j le_rfl hle, ?_⟩
    by_cases hj : j' = j
    · exact .inl hj
    · exact .inr ⟨by omega, fun l hl => hall l (by omega)⟩
  · intro ⟨hle, hj, hrest⟩
    refine ⟨hle, fun l hl hl' => ?_⟩
    by_cases hlj : l = j
    · rwa [hlj]
    · obtain rfl | ⟨-, hall⟩ := hrest
      · omega
      · exact hall l (by omega) hl'

namespace Clearing

/-- Only the places that keep a block count. -/
theorem congr (h : Clearing v i S fs)
    (hS : ∀ r, v.names (v.slot i) r ≠ none → (S r ↔ S' r)) : Clearing v i S' fs := by
  have hsome : ∀ {r p}, v.names (v.slot i) r = some p → v.names (v.slot i) r ≠ none :=
    fun hr hn => by
    rw [hr] at hn
    cases hn
  refine ⟨h.mounted, h.steps, h.slot, h.ibit, fun p hu hp => h.kept p hu fun r hr hname => ?_,
    fun k r hr hname => h.cleared k r ((hS r (hsome hname)).2 hr) hname, h.le⟩
  exact hp r ((hS r (hsome hname)).1 hr) hname

/-- A block at a place that is not in `S` is still there. -/
theorem at_place (hinv : Inv v T) (hi : i ∈ T) (h : Clearing v i S fs) (hr : ¬S r)
    (hp : v.names (v.slot i) r = some p) : fs.view.Used p ∧ fs.view.block p = v.block p := by
  refine h.kept p (hinv.used hi hp) fun s hs hname => hr ?_
  rwa [← (hinv.owner hi hi hname hp).2]

/-- **One block is cleared.** -/
theorem clear (hinv : Inv v T) (hi : i ∈ T) (h : Clearing v i S fs) (hr : ¬S r)
    (hp : v.names (v.slot i) r = some p) :
    Clearing v i (fun s => S s ∨ s = r) (clearDataBlock fs p) := by
  obtain ⟨k, hk, rfl, hbit⟩ := (h.at_place hinv hi hr hp).1
  obtain ⟨hm, hview⟩ := clearDataBlock_view h.mounted hk rfl
  refine ⟨hm, ?_, ?_, ?_, fun p' hu hp' => ?_, fun k' s hs hname => ?_, fun k' hk' => ?_⟩
  · rw [hview]
    exact h.steps.tail (.dropBlock hk hbit)
  · rw [hview]
    exact h.slot
  · rw [hview]
    exact h.ibit
  · obtain ⟨⟨k', hk', rfl, hbit'⟩, hblock⟩ := h.kept p' hu fun s hs => hp' s (.inl hs)
    have hne : k' ≠ k := fun heq => hp' r (.inr rfl) (heq ▸ hp)
    rw [hview]
    refine ⟨⟨k', hk', rfl, ?_⟩, ?_⟩
    · rw [View.dropBlock_dbit, Function.update_of_ne hne]
      exact hbit'
    · rw [← hblock, View.block_add, View.block_add, View.dropBlock_blk, Function.update_of_ne hne]
  · rw [hview, View.dropBlock_dbit]
    by_cases hkk : k' = k
    · rw [hkk, Function.update_self]
    · rw [Function.update_of_ne hkk]
      obtain hs | rfl := hs
      · exact h.cleared k' s hs hname
      · rw [hp, Option.some.injEq] at hname
        omega
  · rw [hview, View.dropBlock_dbit] at hk'
    by_cases hkk : k' = k
    · rw [hkk, Function.update_self] at hk'
      cases hk'
    · rw [Function.update_of_ne hkk] at hk'
      exact h.le k' hk'

/-- **The direct blocks.** -/
theorem clearDirect (hinv : Inv v T) (hi : i ∈ T) (h : Clearing v i (fun _ => False) fs)
    (hn : n ≤ 16) :
    Clearing v i (fun s => ∃ j < n, s = .direct j) (clearDirect fs (v.slot i) n) := by
  unfold Rufs.clearDirect
  induction n with
  | zero => exact h.congr fun s _ => ⟨False.elim, fun ⟨j, hj, _⟩ => absurd hj (Nat.not_lt_zero j)⟩
  | succ n ih =>
    rw [List.range_succ, List.foldl_append, List.foldl_cons, List.foldl_nil]
    have ih := ih (by omega)
    generalize List.foldl _ _ _ = fs' at ih ⊢
    have hsplit : ∀ s, (∃ j < n + 1, s = Ref.direct j) ↔
        (∃ j < n, s = Ref.direct j) ∨ s = .direct n := by
      intro s
      simp only [Nat.lt_succ_iff_lt_or_eq, or_and_right, exists_or, exists_eq_left]
    split
    next hne =>
      have hname : v.names (v.slot i) (.direct n) = some (direct (v.slot i) n) :=
        (names_direct (by omega)).trans (nonNull_eq_some.2 ⟨hne, rfl⟩)
      refine (ih.clear hinv hi (r := .direct n) ?_ hname).congr fun s _ => (hsplit s).symm
      intro ⟨j, hj, heq⟩
      cases heq
      exact lt_irrefl _ hj
    next hnull =>
      refine ih.congr fun s hs => ?_
      rw [hsplit]
      refine ⟨.inl, fun h => h.resolve_right fun heq => hs ?_⟩
      rw [heq, names_direct (by omega), not_not.1 hnull, nonNull_eq_none]

/-- The blocks of an indirect block, from word `j` on. -/
theorem clearEntries (hinv : Inv v T) (hi : i ∈ T) (h : Clearing v i S fs) (hk : k < 8)
    (hptr : indirect (v.slot i) k ≠ -1) (hS : ∀ j' ≥ j, ¬S (.entry k j')) (hn : n + j = 1024) :
    Clearing v i (fun s => S s ∨ ∃ j', s = .entry k j' ∧ v.FollowedIn (v.slot i) k j j')
      (clearEntries (v.block (indirect (v.slot i) k)) n j fs) := by
  induction n generalizing j fs S with
  | zero =>
    refine h.congr fun s hs => ⟨.inl, fun h => h.resolve_right fun ⟨j', heq, hj', _⟩ => hs ?_⟩
    rw [heq]
    exact if_neg fun hh => absurd hh.2.1 (by omega)
  | succ n ih =>
    rw [Rufs.clearEntries]
    have hname := names_entry (v := v) hk (show j < 1024 by omega) hptr
    split
    next hnull =>
      refine h.congr fun s _ => ⟨.inl, fun h => h.resolve_right fun ⟨j', _, hj'⟩ => ?_⟩
      rw [followedIn_iff, hname, hnull] at hj'
      exact hj'.2.1 (nonNull_eq_none.2 rfl)
    next hne =>
      have hname := hname.trans (nonNull_eq_some.2 ⟨hne, rfl⟩)
      have hstep := h.clear hinv hi (hS j le_rfl) hname
      refine (ih hstep (fun j' hj' hs => ?_) (by omega)).congr fun s _ => ?_
      · obtain hs | heq := hs
        · exact hS j' (by omega) hs
        · cases heq
          omega
      · rw [or_assoc]
        refine or_congr_right ⟨?_, ?_⟩
        · intro hs
          obtain rfl | ⟨j', rfl, hj'⟩ := hs
          · exact ⟨j, rfl, followedIn_iff.2 ⟨le_rfl, by simp [hname], .inl rfl⟩⟩
          · exact ⟨j', rfl, followedIn_iff.2 ⟨by have := hj'.1; omega, by simp [hname], .inr hj'⟩⟩
        · intro ⟨j', hs, hj'⟩
          obtain ⟨-, -, rfl | hj'⟩ := followedIn_iff.1 hj'
          · exact .inl hs
          · exact .inr ⟨j', hs, hj'⟩

/-- The places from indirect pointer `k` on that are followed. -/
def After (v : View) (x : Inode) (k : ℕ) : Ref → Prop
  | .direct _ => False
  | .indirect k' => v.Followed x k k'
  | .entry k' j => v.Followed x k k' ∧ v.FollowedIn x k' 0 j

/-- **The indirect blocks**, from pointer `k` on. -/
theorem clearIndirect (hinv : Inv v T) (hi : i ∈ T) (h : Clearing v i S fs) (hk : k ≤ 8)
    (hS : ∀ k' ≥ k, ¬S (.indirect k') ∧ ∀ j, ¬S (.entry k' j)) (hn : 9 ≤ n + k) :
    Clearing v i (fun s => S s ∨ After v (v.slot i) k s) (clearIndirect (v.slot i) n k fs) := by
  induction n generalizing k fs S with
  | zero => omega
  | succ n ih =>
    rw [Rufs.clearIndirect]
    split
    next hnull =>
      have hnot : ∀ k', ¬v.Followed (v.slot i) k k' := by
        intro k' hk'
        refine (followed_iff.1 hk').2.1 ?_
        by_cases h8 : k < 8
        · rw [names_indirect h8, hnull, nonNull_eq_none]
        · exact if_neg h8
      refine h.congr fun s _ => ⟨.inl, fun h => h.resolve_right fun hs => ?_⟩
      cases s with
      | direct _ => exact hs
      | indirect k' => exact hnot k' hs
      | entry k' j => exact hnot k' hs.1
    next hne =>
      have hk8 : k ≠ 8 := fun h8 => hne (h8 ▸ (hinv.tracked i hi).past)
      have hname : v.names (v.slot i) (.indirect k) = some (indirect (v.slot i) k) :=
        (names_indirect (by omega)).trans (nonNull_eq_some.2 ⟨hne, rfl⟩)
      obtain ⟨hused, hblock⟩ := h.at_place hinv hi (hS k le_rfl).1 hname
      dsimp only
      rw [bioRead_used hused, hblock]
      have hentries := h.clearEntries hinv hi (by omega) hne (fun j _ => (hS k le_rfl).2 j)
        (show blockSize / 4 + 0 = 1024 by decide)
      have hstep := hentries.clear hinv hi (r := .indirect k) (fun hs => ?_) hname
      · have hself : ∀ k', v.Followed (v.slot i) k k' ↔
            k' = k ∨ v.Followed (v.slot i) (k + 1) k' := by
          intro k'
          rw [followed_iff]
          refine ⟨fun h => h.2.2, fun h => ⟨?_, by simp [hname], h⟩⟩
          obtain rfl | h := h
          · exact le_rfl
          · exact (Nat.le_succ k).trans h.1
        refine (ih hstep (by omega) (fun k' hk' => ⟨fun hs => ?_, fun j hs => ?_⟩) (by omega)).congr
          fun s _ => ?_
        · obtain (hs | ⟨j, heq, -⟩) | heq := hs
          · exact (hS k' (by omega)).1 hs
          · cases heq
          · cases heq
            omega
        · obtain (hs | ⟨j, heq, -⟩) | heq := hs
          · exact (hS k' (by omega)).2 _ hs
          · cases heq
            omega
          · cases heq
        · rw [or_assoc, or_assoc]
          refine or_congr_right ?_
          cases s with
          | direct _ => simp [After]
          | indirect k' => simp [After, hself]
          | entry k' j => simp only [After, hself]; grind
      · obtain hs | ⟨j, heq, -⟩ := hs
        · exact (hS k le_rfl).1 hs
        · cases heq

/-- **The data bitmap** afterwards. -/
theorem dbit_iff (h : Clearing v i S fs) (hk : k < 16384) : fs.view.dbit k = true ↔
    v.dbit k = true ∧ ∀ r, S r → v.names (v.slot i) r ≠ some (67 + (k : ℤ)) := by
  constructor
  · intro hbit
    refine ⟨h.le k hbit, fun r hr hname => ?_⟩
    rw [h.cleared k r hr hname] at hbit
    cases hbit
  · intro ⟨hbit, hr⟩
    obtain ⟨⟨k', -, heq, hbit'⟩, -⟩ := h.kept (67 + (k : ℤ)) ⟨k, hk, rfl, hbit⟩ hr
    obtain rfl : k = k' := by omega
    exact hbit'

end Clearing

/-! ## The way to the parent -/

theorem dirFind_congr {fs' : Fs} {name : CString} (hread : readi fs' i = readi fs i)
    (htable : bioRead fs'.disk (direct (readi fs i) 0) = bioRead fs.disk (direct (readi fs i) 0)) :
    dirFind fs' i name = dirFind fs i name := by
  unfold dirFind
  rw [hread, htable]

/-- Paths resolve alike when the look-ups on the way do. -/
theorem walkPath_congr {fs' : Fs} {cs : List CString}
    (h : ∀ ds name es j, cs = ds ++ name :: es → walkPath fs 0 ds = some j →
      dirFind fs' j name = dirFind fs j name) :
    walkPath fs' 0 cs = walkPath fs 0 cs := by
  induction cs using List.reverseRecOn with
  | nil => rfl
  | append_singleton cs name ih =>
    rw [walkPath_append, walkPath_append, ih fun ds n es j hcs =>
      h ds n (es ++ [name]) j (by rw [hcs, List.append_assoc, List.cons_append])]
    cases hwalk : walkPath fs 0 cs with
    | none => rw [Option.bind_none, Option.bind_none]
    | some j =>
      rw [Option.bind_some, Option.bind_some, walkPath_singleton, walkPath_singleton]
      exact h cs name [] j rfl hwalk

/-- **The parent** is found, although the blocks of the inode and the inode itself are cleared. -/
theorem parent_found (h : Inv fs.view T) (hm : fs.Mounted) (hm₁ : fs₁.Mounted) (hp : PathOk path)
    (hdirs : PrefixDirs fs path) (hat : At fs.view T (components path) i)
    (hq : At fs.view T (components (dirname path)) q) (hne : components path ≠ [])
    (hslot : ∀ j ∈ T, j ≠ i → fs₁.view.slot j = fs.view.slot j)
    (hkept : ∀ j ∈ T, j ≠ i → ∀ r p, fs.view.names (fs.view.slot j) r = some p →
      fs₁.view.Used p ∧ fs₁.view.block p = fs.view.block p) :
    getNodeByPath fs₁ (dirname path) 0 = some (some (fs.view.slot q)) := by
  obtain ⟨hnames, hpre, hdir⟩ := hdirs.parent h hm hp
  -- An inode on the way is not the one removed, whose path is longer.
  have hway : ∀ ds es j, components (dirname path) = ds ++ es → walkPath fs 0 ds = some j →
      j ∈ T ∧ j ≠ i ∧ IsDir (fs.view.slot j) := by
    intro ds es j hcs hj
    have hatj : At fs.view T ds j := (walkPath_eq_some h hm
      (fun c hc => hnames c (hcs ▸ List.mem_append_left es hc)) (DirsTo.left (hcs ▸ hpre))).1 hj
    have hlen : ds.length < (components path).length := by
      have hlt := List.length_pos_iff.2 hne
      have hcs' := congrArg List.length hcs
      rw [components_dirname hp.absolute, List.length_dropLast, List.length_append] at hcs'
      omega
    refine ⟨hatj.mem h, fun hji => ?_, ?_⟩
    · subst hji
      rw [hatj.unique h hat] at hlen
      exact lt_irrefl _ hlen
    · by_cases hes : es = []
      · rw [hes, List.append_nil] at hcs
        exact hdir j (hcs ▸ hatj)
      · have hd := hpre ds es j hcs hes hj
        rwa [readi_eq_of_mem h hm (hatj.mem h)] at hd
  have hread : ∀ j ∈ T, j ≠ i → readi fs₁ j = readi fs j := fun j hj hji => by
    rw [readi_eq hm₁ (h.tracked j hj).lt, hslot j hj hji, readi_eq_of_mem h hm hj]
  have hwalk : walkPath fs₁ 0 (components (dirname path)) =
      walkPath fs 0 (components (dirname path)) := by
    refine walkPath_congr fun ds name es j hcs hj => ?_
    obtain ⟨hjT, hji, hd⟩ := hway ds (name :: es) j hcs hj
    refine dirFind_congr (hread j hjT hji) ?_
    obtain ⟨k, -, heq, -, -, hname⟩ := h.table hjT hd
    obtain ⟨hused, hblock⟩ := hkept j hjT hji _ _ hname
    rw [readi_eq_of_mem h hm hjT, heq, bioRead_used hused, hblock,
      ← bioRead_used (h.used hjT hname)]
  have hwalkq := (walkPath_eq_some h hm hnames hpre).2 hq
  rw [getNodeByPath_eq (isAbsolute_dirname hp.absolute), hwalk, hwalkq, Option.map_some]
  obtain ⟨hqT, hqi, -⟩ := hway _ [] q (List.append_nil _).symm hwalkq
  rw [hread q hqT hqi, readi_eq_of_mem h hm hqT]

/-! ## Removing the inode -/

/-- Inode `i` is removed, and its name `name` in directory `q`. -/
structure Gone (v v' : View) (T : Finset ℕ) (i q : ℕ) (name : CString) : Prop where
  inv : Inv v' (T.erase i)
  node : ∀ j ∈ T.erase i, SameNode (v.slot j) (v'.slot j)
  table : ∀ j ∈ T.erase i, IsDir (v.slot j) → j ≠ q → v'.table j = v.table j
  removed : ∃ m, v.children T (q, m) = some i ∧ Removed (v.table q) (v'.table q) m name

/-- **An inode without its name**, when nothing else has changed. -/
theorem Inv.gone {name : CString} (h : Inv v T) (hq : q ∈ T) (hqi : q ≠ i)
    (hd : IsDir (v.slot q)) (hk : direct (v.slot q) 0 = 67 + k)
    (hc : v.children T (q, m) = some i) (hb : Removed (v.table q) b m name)
    (hy : SameNode (v.slot q) y) (hslot : ∀ j ∈ T, j ≠ i → v₁.slot j = v.slot j)
    (hibit : ∀ j ∈ T, j ≠ i → v₁.ibit j = v.ibit j)
    (hkept : ∀ j ∈ T, j ≠ i → ∀ r p, v.names (v.slot j) r = some p →
      v₁.Used p ∧ v₁.block p = v.block p) :
    Gone v ((v₁.setBlk k b).setSlot q y) T i q name := by
  obtain ⟨hunlink, hchildren⟩ :=
    h.unlink hq hd hk hb.ok hb.free fun j hj hjm => (hb.other j hj hjm).2
  have hforget : Inv (v.setBlk k b) (T.erase i) := by
    refine hunlink.forget (h.tree.used hc).2 fun o ho => ?_
    exact (hchildren o i ho).2 (h.tree.inj (hchildren o i ho).1 hc)
  have hmem : ∀ {j}, j ∈ T.erase i → j ∈ T ∧ j ≠ i := fun hj =>
    ⟨Finset.mem_of_mem_erase hj, Finset.ne_of_mem_erase hj⟩
  have hnode : ∀ j ∈ T.erase i, SameNode (v.slot j) (((v₁.setBlk k b).setSlot q y).slot j) := by
    intro j hj
    rw [View.setSlot_slot]
    by_cases hjq : j = q
    · rw [hjq, Function.update_self]
      exact hy
    · rw [Function.update_of_ne hjq, View.setBlk_slot, hslot j (hmem hj).1 (hmem hj).2]
      exact .refl _
  -- Blocks in use by the other inodes are as they were, but for the table.
  have hblock : ∀ j ∈ T.erase i, ∀ r p, v.names (v.slot j) r = some p →
      ((v₁.setBlk k b).setSlot q y).block p = (v.setBlk k b).block p := by
    intro j hj r p hr
    obtain ⟨n, -, rfl, -⟩ := h.used (hmem hj).1 hr
    have hkept := (hkept j (hmem hj).1 (hmem hj).2 r _ hr).2
    rw [View.block_add, View.block_add] at hkept
    rw [View.block_add, View.block_add, View.setSlot_blk, View.setBlk_blk, View.setBlk_blk]
    by_cases hnk : n = k
    · rw [hnk, Function.update_self, Function.update_self]
    · rw [Function.update_of_ne hnk, Function.update_of_ne hnk, hkept]
  have hnames : ∀ {j}, j ∈ T → (v.setBlk k b).names (v.slot j) = v.names (v.slot j) := fun hj =>
    h.names_setTable hq hd hk hj
  refine ⟨hforget.frame hnode (fun j hj hbit => ?_) (fun j hj r p hr _ => ?_) fun p hp => ?_, hnode,
    fun j hj hdj hjq => ?_, m, hc, ?_⟩
  · exact (hibit j (hmem hj).1 (hmem hj).2).trans hbit
  · rw [View.setBlk_slot, hnames (hmem hj).1] at hr
    exact (hkept j (hmem hj).1 (hmem hj).2 r p hr).1
  · obtain ⟨j, hj, r, hr⟩ := hforget.named_of_meta hp
    rw [View.setBlk_slot, hnames (hmem hj).1] at hr
    exact hblock j hj r p hr
  · obtain ⟨n, -, heq, -, -, hname⟩ := h.table (hmem hj).1 hdj
    unfold View.table
    rw [(hnode j hj).direct 0 (by decide), heq, hblock j hj _ _ hname, ← heq]
    exact h.table_setBlk_of_ne hq hd hk (hmem hj).1 hdj hjq
  · have hqe : q ∈ T.erase i := Finset.mem_erase.2 ⟨hqi, hq⟩
    have htable : ((v₁.setBlk k b).setSlot q y).table q = b := by
      unfold View.table
      rw [(hnode q hqe).direct 0 (by decide), hk, View.block_add, View.setSlot_blk,
        View.setBlk_blk, Function.update_self]
    rw [htable]
    exact hb

/-- **How both operations end.** -/
theorem removeInode_spec (h : Inv fs.view T) (hm : fs.Mounted) (hp : PathOk path)
    (hdirs : PrefixDirs fs path) (hne : components path ≠ [])
    (hat : At fs.view T (components path) i) (hc : Clearing fs.view i S fs₁) :
    ∃ fs' q, removeInode env fs₁ (fs.view.slot i) path = some (0, fs') ∧ fs'.Mounted ∧
      View.Steps fs.view fs'.view ∧ At fs.view T (components (dirname path)) q ∧
      Gone fs.view fs'.view T i q (basename path) ∧
      Resizes fs.view fs'.view (T.erase i) q
        ((get (fs.view.slot q) .size + (2 ^ 32 - direntSize)) % 2 ^ 32) ∧
      Quiet fs.view fs'.view (T.erase i) q ∧
      fs'.view.ibit = Function.update fs.view.ibit i false ∧ fs'.view.dbit = fs₁.view.dbit := by
  have hi := hat.mem h
  have ht := h.tracked i hi
  have hsplit := (List.dropLast_append_getLast hne).symm
  have hlast : basename path = (components path).getLast hne := by
    rw [basename_eq hp.absolute, List.getLast?_eq_some_getLast hne, Option.getD_some]
  obtain ⟨q, m, hatq, hchild, hname⟩ : ∃ q m, At fs.view T (components (dirname path)) q ∧
      fs.view.children T (q, m) = some i ∧ nameAt (fs.view.table q) m = basename path := by
    rw [components_dirname hp.absolute, hlast]
    exact At.snoc_inv (hsplit ▸ hat)
  have hq := hatq.mem h
  have hqi : q ≠ i := fun heq => by
    have hlen := congrArg List.length ((heq ▸ hatq).unique h hat)
    have hpos := List.length_pos_iff.2 hne
    rw [components_dirname hp.absolute, List.length_dropLast] at hlen
    omega
  obtain ⟨⟨-, hd, h2, h19, hv⟩, -⟩ := children_eq_some.1 hchild
  unfold removeInode
  rw [ht.ino]
  obtain ⟨hm₂, hview₂⟩ := @clearInode_view fs₁ i (env.time 0) hc.mounted ht.lt
  generalize clearInode fs₁ (env.time 0) i = fs₂ at hm₂ hview₂ ⊢
  have hslot : ∀ j ∈ T, j ≠ i → fs₂.view.slot j = fs.view.slot j := fun j _ hji => by
    rw [hview₂, View.dropInode_slot, View.setSlot_slot, Function.update_of_ne hji, hc.slot]
  have hibit : ∀ j ∈ T, j ≠ i → fs₂.view.ibit j = fs.view.ibit j := fun j _ hji => by
    rw [hview₂, View.dropInode_ibit, Function.update_of_ne hji, View.setSlot_ibit, hc.ibit]
  have hkept : ∀ j ∈ T, j ≠ i → ∀ r p, fs.view.names (fs.view.slot j) r = some p →
      fs₂.view.Used p ∧ fs₂.view.block p = fs.view.block p := by
    intro j hj hji r p hr
    rw [hview₂]
    exact hc.kept p (h.used hj hr) fun s _ hs => hji (h.owner hj hi hr hs).1
  have hsteps : View.Steps fs.view fs₂.view := by
    rw [hview₂]
    refine (hc.steps.tail (.setSlot ht.lt)).tail (.dropInode ht.lt ?_)
    rw [View.setSlot_ibit, hc.ibit]
    exact ht.ibit
  dsimp only
  rw [parent_found h hm hm₂ hp hdirs hat hatq hne hslot hkept, Option.map_some]
  dsimp only
  obtain ⟨k, hk, heq, -, htable, hnameq⟩ := h.table hq hd
  obtain ⟨⟨k', -, hk', hbit⟩, hblock⟩ := hkept q hq hqi _ _ hnameq
  obtain rfl : k = k' := by omega
  rw [View.block_add, View.block_add, ← htable] at hblock
  have hname_ok : NameOk (basename path) := hp.nameOk (hlast ▸ List.getLast_mem hne)
  obtain ⟨fs', b, y, hremove, hm', hremoved, hflags, hsame, hsize, hview⟩ :=
    @dirRemove_eq fs₂ env (fs.view.slot q) k m q (basename path) hm₂ (h.tracked q hq).lt
      (h.tracked q hq).ino hk heq (hblock ▸ ((h.tracked q hq).dir hd).table) hname_ok h2 h19
      (hblock ▸ hv) (hblock ▸ hname)
  rw [hblock] at hremoved hflags
  have hgone : Gone fs.view ((fs₂.view.setBlk k b).setSlot q y) T i q (basename path) :=
    h.gone hq hqi hd heq hchild hremoved hsame.toSameNode hslot hibit hkept
  have hqslot : ((fs₂.view.setBlk k b).setSlot q y).slot q = y := Function.update_self ..
  refine ⟨fs', q, congrArg some hremove, hm', ?_, hatq, hview ▸ hgone, ⟨?_, fun j hj hjq => ?_⟩,
    hview ▸ h.quiet (Finset.erase_subset i T) hq hd heq (hqslot.symm ▸ hsame)
      (Function.update_self ..) hflags fun j hj r n hr hnk => ?_, ?_, ?_⟩
  · rw [hview]
    exact (hsteps.tail (.setBlk hk hbit)).tail (.setSlot (h.tracked q hq).lt)
  · rw [hview, View.setSlot_slot, Function.update_self]
    exact hsize
  · rw [hview, View.setSlot_slot, Function.update_of_ne hjq, View.setBlk_slot]
    exact hslot j (Finset.mem_of_mem_erase hj) (Finset.ne_of_mem_erase hj)
  · have hsame := (hkept j (Finset.mem_of_mem_erase hj) (Finset.ne_of_mem_erase hj) r _ hr).2
    rw [View.block_add, View.block_add] at hsame
    rw [View.setSlot_blk, View.setBlk_blk, Function.update_of_ne hnk, hsame]
  · rw [hview, View.setSlot_ibit, View.setBlk_ibit, hview₂, View.dropInode_ibit,
      View.setSlot_ibit, hc.ibit]
  · rw [hview, View.setSlot_dbit, View.setBlk_dbit, hview₂, View.dropInode_dbit,
      View.setSlot_dbit]

/-! ## The operations -/

/-- A path is not found, or is that of an inode in use. -/
theorem path_cases (h : Inv fs.view T) (hm : fs.Mounted) (hp : PathOk path)
    (hdirs : PrefixDirs fs path) :
    (getNodeByPath fs path 0 = some none ∧ ∀ i, ¬At fs.view T (components path) i) ∨
      ∃ i, At fs.view T (components path) i ∧
        getNodeByPath fs path 0 = some (some (fs.view.slot i)) := by
  have hiff := fun i => walkPath_eq_some (i := i) h hm (fun c hc => hp.nameOk hc) hdirs.dirsTo
  rw [getNodeByPath_eq hp.absolute]
  cases hwalk : walkPath fs 0 (components path) with
  | none =>
    refine .inl ⟨rfl, fun i hat => ?_⟩
    rw [(hiff i).2 hat] at hwalk
    cases hwalk
  | some i =>
    have hat := (hiff i).1 hwalk
    refine .inr ⟨i, hat, ?_⟩
    rw [Option.map_some, readi_eq_of_mem h hm (hat.mem h)]

/-- Nothing is cleared yet. -/
theorem Clearing.refl (hm : fs.Mounted) : Clearing fs.view i (fun _ => False) fs :=
  ⟨hm, .refl, rfl, rfl, fun _ hu _ => ⟨hu, rfl⟩, fun _ _ hf => hf.elim, fun _ h => h⟩

/-- **`rufs_rmdir`** removes the inode of the path and its name, or changes nothing. -/
theorem rufsRmdir_spec (h : Inv fs.view T) (hm : fs.Mounted) (hp : PathOk path)
    (hdirs : PrefixDirs fs path) (hne : components path ≠ []) :
    (∃ r, r ≠ 0 ∧ rufsRmdir env fs path = some (r, fs) ∧
      ∀ i, ¬At fs.view T (components path) i) ∨
      ∃ fs' i q, rufsRmdir env fs path = some (0, fs') ∧ fs'.Mounted ∧
        View.Steps fs.view fs'.view ∧ At fs.view T (components path) i ∧
        At fs.view T (components (dirname path)) q ∧
        Gone fs.view fs'.view T i q (basename path) ∧
        Resizes fs.view fs'.view (T.erase i) q
          ((get (fs.view.slot q) .size + (2 ^ 32 - direntSize)) % 2 ^ 32) ∧
        Quiet fs.view fs'.view (T.erase i) q := by
  unfold rufsRmdir
  obtain ⟨hnone, hnot⟩ | ⟨i, hat, hnode⟩ := path_cases h hm hp hdirs
  · rw [hnone]
    exact .inl ⟨_, by decide, rfl, hnot⟩
  · rw [hnode, Option.bind_some]
    dsimp only
    have hempty : isDirectoryEmpty Bytes.zero = true := by decide
    have hclear := (Clearing.refl hm).clearDirect h (hat.mem h) le_rfl
    obtain ⟨fs', q, hremove, hm', hsteps, hatq, hgone, hsize, hquiet, -, -⟩ :=
      @removeInode_spec fs _ env T _ i path h hm hp hdirs hne hat hclear
    rw [hempty]
    exact .inr ⟨fs', i, q, hremove, hm', hsteps, hat, hatq, hgone, hsize, hquiet⟩

/-- **`rufs_unlink`** removes the inode of the path, its name and the blocks that it comes to, or
changes nothing. -/
theorem rufsUnlink_spec (h : Inv fs.view T) (hm : fs.Mounted) (hp : PathOk path)
    (hdirs : PrefixDirs fs path) (hne : components path ≠ []) :
    (∃ r, r ≠ 0 ∧ rufsUnlink env fs path = some (r, fs) ∧
      ∀ i, ¬At fs.view T (components path) i) ∨
      ∃ fs' i q, rufsUnlink env fs path = some (0, fs') ∧ fs'.Mounted ∧
        View.Steps fs.view fs'.view ∧ At fs.view T (components path) i ∧
        At fs.view T (components (dirname path)) q ∧
        Gone fs.view fs'.view T i q (basename path) ∧
        Resizes fs.view fs'.view (T.erase i) q
          ((get (fs.view.slot q) .size + (2 ^ 32 - direntSize)) % 2 ^ 32) ∧
        Quiet fs.view fs'.view (T.erase i) q ∧
        fs'.view.ibit = Function.update fs.view.ibit i false ∧
        ∀ k < 16384, fs'.view.dbit k = true ↔ fs.view.dbit k = true ∧
          ∀ r, fs.view.Visited (fs.view.slot i) r →
            fs.view.names (fs.view.slot i) r ≠ some (67 + (k : ℤ)) := by
  unfold rufsUnlink
  obtain ⟨hnone, hnot⟩ | ⟨i, hat, hnode⟩ := path_cases h hm hp hdirs
  · rw [hnone]
    exact .inl ⟨_, by decide, rfl, hnot⟩
  · rw [hnode, Option.bind_some]
    dsimp only
    have hdirect := (Clearing.refl hm).clearDirect h (hat.mem h) le_rfl
    have hfollowed := @Clearing.clearIndirect _ _ _ _ _ 0 16 h (hat.mem h) hdirect (by decide) (by
      refine fun k _ => ⟨fun ⟨j, _, heq⟩ => ?_, fun j ⟨n, _, heq⟩ => ?_⟩ <;> cases heq) (by decide)
    have hclear : Clearing fs.view i (fs.view.Visited (fs.view.slot i)) _ := hfollowed.congr
      fun r hr => by
        cases r with
        | direct k =>
          have hk : k < 16 := by
            by_contra hk
            exact hr (if_neg hk)
          exact iff_of_true (.inl ⟨k, hk, rfl⟩) trivial
        | indirect k => exact or_iff_right fun ⟨j, _, heq⟩ => Ref.noConfusion heq
        | entry k j => exact or_iff_right fun ⟨j, _, heq⟩ => Ref.noConfusion heq
    obtain ⟨fs', q, hremove, hm', hsteps, hatq, hgone, hsize, hquiet, hibit, hdbit⟩ :=
      @removeInode_spec fs _ env T _ i path h hm hp hdirs hne hat hclear
    refine .inr ⟨fs', i, q, hremove, hm', hsteps, hat, hatq, hgone, hsize, hquiet, hibit,
      fun k hk => ?_⟩
    rw [hdbit]
    exact hclear.dbit_iff hk

end UserOS.Rufs
