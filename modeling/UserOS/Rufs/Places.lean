import UserOS.Rufs.Namespace

/-!
# Names and places

An entry of a directory links it to another inode, under a name. Making a name adds one link and
removing it takes one away, with all links of the inode removed; writing and reading change none.
The inodes with a path follow from the links alone.

* `Made.links`, `Gone.links`, `Wrote.links`: the links afterwards.
* `at_made`, `at_gone`, `at_congr`: the paths afterwards.
-/

namespace UserOS.Rufs

open Lib

variable {v v' : View} {fs fs' : Fs} {T T' : Finset ℕ} {i j k m q c : ℕ} {n : CString}
  {cs ps : List CString} {o : ℕ × ℕ}

/-! ## Links -/

/-- The name of an entry, and the inode. -/
def View.links (v : View) (T : Finset ℕ) (o : ℕ × ℕ) : Option (CString × ℕ) :=
  (v.children T o).map fun c => (nameAt (v.table o.1) o.2, c)

theorem links_eq_some : v.links T (i, k) = some (n, c) ↔
    v.children T (i, k) = some c ∧ nameAt (v.table i) k = n := by
  unfold View.links
  rw [Option.map_eq_some_iff]
  constructor
  · intro ⟨c', hc, heq⟩
    obtain ⟨hname, rfl⟩ := Prod.mk.inj heq
    exact ⟨hc, hname⟩
  · intro ⟨hc, hname⟩
    exact ⟨c, hc, Prod.ext hname rfl⟩

theorem links_of_notMem (hi : i ∉ T) : v.links T (i, k) = none :=
  Option.map_eq_none_iff.2 (if_neg fun hh => hi hh.1)

theorem readStr_ended {b : Bytes} {off l : ℕ} : 0 ∉ b.readStr off l := by
  induction l generalizing off with
  | zero => exact List.not_mem_nil
  | succ l ih =>
    rw [Bytes.readStr]
    split
    · exact List.not_mem_nil
    next hne =>
      rw [List.mem_cons, not_or]
      exact ⟨Ne.symm hne, ih⟩

/-- The names of the links are those that FUSE passes. -/
theorem links_nameOk (h : Inv v T) (hl : v.links T (i, k) = some (n, c)) : NameOk n := by
  obtain ⟨hc, rfl⟩ := links_eq_some.1 hl
  obtain ⟨⟨hi, hd, h2, h19, hv⟩, -⟩ := children_eq_some.1 hc
  have hok := ((h.tracked i hi).dir hd).table
  refine ⟨readStr_ended, hok.named k h19 hv, fun hdot => ?_, fun hdotDot => ?_⟩
  · have := hok.inj k h19 1 (by decide) hv (hdot.trans hok.self.1.symm)
    omega
  · have := hok.inj k h19 0 (by decide) hv (hdotDot.trans hok.parent.1.symm)
    omega

/-- The links of a directory depend on its entries. -/
theorem links_congr (hT : i ∈ T' ↔ i ∈ T)
    (hdir : i ∈ T → (IsDir (v'.slot i) ↔ IsDir (v.slot i)))
    (hentry : i ∈ T → IsDir (v.slot i) → 2 ≤ k → k < 19 →
      nameAt (v'.table i) k = nameAt (v.table i) k ∧
        validAt (v'.table i) k = validAt (v.table i) k ∧
        inoAt (v'.table i) k = inoAt (v.table i) k) :
    v'.links T' (i, k) = v.links T (i, k) := by
  by_cases hi : i ∈ T
  swap
  · rw [links_of_notMem hi, links_of_notMem (mt hT.1 hi)]
  by_cases hd : IsDir (v.slot i) ∧ 2 ≤ k ∧ k < 19
  · obtain ⟨hname, hvalid, hino⟩ := hentry hi hd.1 hd.2.1 hd.2.2
    refine Option.ext fun ⟨n, c⟩ => ?_
    rw [links_eq_some, links_eq_some, children_eq_some, children_eq_some, hname, hvalid, hino, hT,
      hdir hi]
  · unfold View.links View.children
    rw [if_neg fun hh => hd ⟨((hdir hi).1 hh.2.1), hh.2.2.1, hh.2.2.2.1⟩,
      if_neg fun hh => hd ⟨hh.2.1, hh.2.2.1, hh.2.2.2.1⟩, Option.map_none, Option.map_none]

/-- **Making** a name adds a link. -/
theorem Made.links (hmade : Made v v' T i q n) (hq : q ∈ T) (hd : IsDir (v.slot q))
    (hnone : ∀ k, v'.children (insert i T) (i, k) = none) :
    ∃ m, v.links T (q, m) = none ∧
      v'.links (insert i T) = Function.update (v.links T) (q, m) (some (n, i)) := by
  obtain ⟨m, ha⟩ := hmade.added
  have hne : ∀ {j}, j ∈ T → j ≠ i := fun hj => ne_of_mem_of_not_mem hj hmade.fresh
  refine ⟨m, Option.map_eq_none_iff.2 (if_neg fun hh => ?_), funext fun ⟨j, k⟩ => ?_⟩
  · exact absurd (ha.free.symm.trans hh.2.2.2.2) Bool.false_ne_true
  by_cases hjk : (j, k) = (q, m)
  · rw [hjk, Function.update_self, links_eq_some]
    refine ⟨children_eq_some.2 ⟨⟨Finset.mem_insert_of_mem hq, ?_, ha.two_le, ha.lt, ha.valid⟩,
      ha.ino⟩, ha.name⟩
    exact ((hmade.node q hq).isDir).2 hd
  rw [Function.update_of_ne hjk]
  by_cases hji : j = i
  · rw [hji, links_of_notMem hmade.fresh]
    exact Option.map_eq_none_iff.2 (hnone k)
  refine links_congr (by rw [Finset.mem_insert, or_iff_right hji])
    (fun hj => (hmade.node j hj).isDir) fun hj hdj h2 h19 => ?_
  by_cases hjq : j = q
  · subst hjq
    exact ha.other k h19 fun hkm => hjk (hkm ▸ rfl)
  · rw [hmade.table j hj hdj hjq]
    exact ⟨rfl, rfl, rfl⟩

/-- **Removing** a name takes its link away, and those of the inode. -/
theorem Gone.links (hgone : Gone v v' T i q n) :
    ∃ m, v.links T (q, m) = some (n, i) ∧
      ∀ o, v'.links (T.erase i) o = if o = (q, m) ∨ o.1 = i then none else v.links T o := by
  obtain ⟨m, hc, hr⟩ := hgone.removed
  refine ⟨m, links_eq_some.2 ⟨hc, hr.name⟩, fun ⟨j, k⟩ => ?_⟩
  split
  next hjk =>
    obtain hjk | hji := hjk
    · obtain ⟨rfl, rfl⟩ := Prod.mk.inj hjk
      refine Option.map_eq_none_iff.2 (if_neg fun hh => ?_)
      exact absurd (hr.free.symm.trans hh.2.2.2.2) Bool.false_ne_true
    · obtain rfl : j = i := hji
      exact links_of_notMem (Finset.notMem_erase j T)
  next hjk =>
    rw [not_or] at hjk
    obtain ⟨hjk, hji⟩ := hjk
    have hmem : j ∈ T → j ∈ T.erase i := fun hj => Finset.mem_erase.2 ⟨hji, hj⟩
    refine links_congr ⟨Finset.mem_of_mem_erase, hmem⟩
      (fun hj => (hgone.node j (hmem hj)).isDir) fun hj hdj h2 h19 => ?_
    by_cases hjq : j = q
    · subst hjq
      exact hr.other k h19 fun hkm => hjk (hkm ▸ rfl)
    · rw [hgone.table j (hmem hj) hdj hjq]
      exact ⟨rfl, rfl, rfl⟩

/-- The table of a directory other than the file written. -/
theorem Wrote.table (hw : Wrote v v' T i) (h : Inv v T) (hj : j ∈ T) (hji : j ≠ i)
    (hd : IsDir (v.slot j)) : v'.table j = v.table j := by
  obtain ⟨k, -, hptr, -, -, hname⟩ := h.table hj hd
  unfold View.table
  rw [hw.slot j hji, hptr]
  exact hw.others j hj hji _ _ hname

/-- **Writing** to a file changes no link. -/
theorem Wrote.links (hw : Wrote v v' T i) (h : Inv v T) (hfile : ¬IsDir (v.slot i))
    (hfile' : ¬IsDir (v'.slot i)) : v'.links T = v.links T := by
  refine funext fun ⟨j, k⟩ => links_congr Iff.rfl (fun _ => ?_) fun hj hd _ _ => ?_
  · by_cases hji : j = i
    · subst hji
      exact iff_of_false hfile' hfile
    · rw [hw.slot j hji]
  · rw [hw.table h hj (fun hji => hfile (hji ▸ hd)) hd]
    exact ⟨rfl, rfl, rfl⟩

/-- Storing inodes again changes no link. -/
theorem links_touch (hnode : ∀ j, SameNode (v.slot j) (v'.slot j)) (hblk : v'.blk = v.blk) :
    v'.links T = v.links T := by
  refine funext fun ⟨j, k⟩ => links_congr Iff.rfl (fun _ => (hnode j).isDir) fun _ _ _ _ => ?_
  have htable : v'.table j = v.table j := by
    unfold View.table View.block
    rw [(hnode j).direct 0 (by decide), hblk]
  rw [htable]
  exact ⟨rfl, rfl, rfl⟩

/-! ## Paths -/

namespace At

theorem link (hat : At v T cs i) (hl : v.links T (i, k) = some (n, c)) : At v T (cs ++ [n]) c := by
  obtain ⟨hc, rfl⟩ := links_eq_some.1 hl
  exact hat.child hc

theorem link_inv (hat : At v T (cs ++ [n]) c) :
    ∃ i k, At v T cs i ∧ v.links T (i, k) = some (n, c) := by
  obtain ⟨i, k, hat, hc, hname⟩ := hat.snoc_inv
  exact ⟨i, k, hat, links_eq_some.2 ⟨hc, hname⟩⟩

/-- Induction along the links. -/
theorem rec_link {P : List CString → ℕ → Prop} (hroot : P [] 0)
    (hlink : ∀ cs i k n c, At v T cs i → P cs i → v.links T (i, k) = some (n, c) →
      P (cs ++ [n]) c) (hat : At v T cs i) : P cs i := by
  induction hat with
  | root => exact hroot
  | child hat hc ih => exact hlink _ _ _ _ _ hat ih (links_eq_some.2 ⟨hc, rfl⟩)

theorem nameOk (h : Inv v T) (hat : At v T cs i) : ∀ n ∈ cs, NameOk n := by
  refine rec_link (P := fun cs _ => ∀ n ∈ cs, NameOk n) ?_ ?_ hat
  · exact fun n hn => absurd hn List.not_mem_nil
  · intro cs i k n c _ ih hl n' hn'
    obtain hn' | hn' := List.mem_append.1 hn'
    · exact ih n' hn'
    · obtain rfl := List.mem_singleton.1 hn'
      exact links_nameOk h hl

end At

/-- The paths depend on the links. -/
theorem at_congr (hlinks : v'.links T' = v.links T) : At v' T' cs j ↔ At v T cs j := by
  constructor
  · exact At.rec_link (P := At v T) .root fun cs i k n c _ ih hl => ih.link (k := k) (hlinks ▸ hl)
  · exact At.rec_link (P := At v' T') .root fun cs i k n c _ ih hl =>
      ih.link (k := k) (hlinks.symm ▸ hl)

/-- **The paths after a name is made**: one more. -/
theorem at_made (h : Inv v T) (hi : i ∉ T) (hps : At v T ps q) (hnew : v.links T (q, m) = none)
    (hlinks : v'.links T' = Function.update (v.links T) (q, m) (some (n, i))) :
    At v' T' cs j ↔ At v T cs j ∨ cs = ps ++ [n] ∧ j = i := by
  have hold : ∀ {cs j}, At v T cs j → At v' T' cs j := by
    refine At.rec_link (P := At v' T') .root fun cs a k n' c _ ih hl => ih.link (k := k) ?_
    rw [hlinks, Function.update_of_ne fun heq => ?_]
    · exact hl
    · rw [heq, hnew] at hl
      cases hl
  constructor
  · refine At.rec_link (P := fun cs j => At v T cs j ∨ cs = ps ++ [n] ∧ j = i) (.inl .root)
      fun cs a k n' c _ ih hl => ?_
    rw [hlinks] at hl
    by_cases hak : (a, k) = (q, m)
    · rw [hak, Function.update_self, Option.some.injEq, Prod.mk.injEq] at hl
      obtain ⟨rfl, rfl⟩ := Prod.mk.inj hak
      obtain hat | ⟨-, rfl⟩ := ih
      · exact .inr ⟨by rw [hat.unique h hps, hl.1], hl.2.symm⟩
      · exact absurd (hps.mem h) hi
    · rw [Function.update_of_ne hak] at hl
      obtain hat | ⟨-, rfl⟩ := ih
      · exact .inl (hat.link hl)
      · rw [links_of_notMem hi] at hl
        cases hl
  · rintro (hat | ⟨rfl, rfl⟩)
    · exact hold hat
    · exact (hold hps).link (by rw [hlinks, Function.update_self])

/-- **The paths after a name is removed**: those that do not go on from it. -/
theorem at_gone (h : Inv v T) (hps : At v T ps q) (hlink : v.links T (q, m) = some (n, i))
    (hlinks : ∀ o, v'.links T' o = if o = (q, m) ∨ o.1 = i then none else v.links T o) :
    At v' T' cs j ↔ At v T cs j ∧ ¬ps ++ [n] <+: cs := by
  have hchild := (links_eq_some.1 hlink).1
  have hgone := hps.link hlink
  constructor
  · refine At.rec_link (P := fun cs j => At v T cs j ∧ ¬ps ++ [n] <+: cs)
      ⟨.root, fun hpre => ?_⟩ fun cs a k n' c _ ih hl => ?_
    · exact absurd (List.prefix_nil.1 hpre) (by simp)
    obtain ⟨hat, hnot⟩ := ih
    rw [hlinks] at hl
    split at hl
    next => cases hl
    next hak =>
      refine ⟨hat.link hl, fun hpre => ?_⟩
      obtain heq | hpre := List.prefix_concat_iff.1 hpre
      · have hc := (heq ▸ hgone).inode h (hat.link hl)
        have hplace := h.tree.inj ((links_eq_some.1 hl).1.trans (congrArg some hc.symm)) hchild
        exact hak (.inl hplace)
      · exact hnot hpre
  · intro ⟨hat, hnot⟩
    revert hnot
    refine At.rec_link (P := fun cs j => ¬ps ++ [n] <+: cs → At v' T' cs j) (fun _ => .root) ?_ hat
    intro cs a k n' c hat ih hl hnot
    have hcs : ¬ps ++ [n] <+: cs := fun hpre => hnot (hpre.trans (List.prefix_append ..))
    refine (ih hcs).link (k := k) ?_
    rw [hlinks, if_neg]
    · exact hl
    · rintro (hak | hai)
      · obtain ⟨rfl, rfl⟩ := Prod.mk.inj hak
        rw [hl, Option.some.injEq, Prod.mk.injEq] at hlink
        exact hnot (by rw [hat.unique h hps, hlink.1])
      · obtain rfl : a = i := hai
        exact hcs (by rw [hat.unique h hgone])

end UserOS.Rufs
