import UserOS.Rufs.Tree

/-!
# Changes that keep the invariant

Every operation is put together from a few changes of the view: to the bitmaps, to an inode, to a
block, to a table. Each keeps the inodes in order under a condition of its own.

* `Inv.frame`: what has to stay.
* `Inv.adopt`, `Inv.link`, `Inv.unlink`, `Inv.forget`: an inode is taken into use, gets a name,
  loses it, and is no longer in use.
* `Inv.growDirect`, `Inv.growIndirect`, `Inv.growEntry`: an inode gets a block.
-/

namespace UserOS.Rufs

open Lib

variable {v v' : View} {T : Finset ℕ} {x y : Inode} {i j k c q : ℕ} {p : ℤ} {r : Ref} {b : Bytes}

/-! ## What has to stay -/

/-- The two inodes have the same pointers, number and type. -/
structure SameNode (x y : Inode) : Prop extends SamePtrs x y where
  ino : get y .ino = get x .ino
  type : get y .type = get x .type

theorem SameNode.refl (x : Inode) : SameNode x x := ⟨.refl x, rfl, rfl⟩

theorem SameNode.isDir (h : SameNode x y) : IsDir y ↔ IsDir x := by
  unfold IsDir
  rw [h.type]

/-- The block is the table of a directory of `T` or an indirect block of an inode of `T`. -/
def View.Meta (v : View) (T : Finset ℕ) (p : ℤ) : Prop :=
  ∃ i ∈ T, IsDir (v.slot i) ∧ direct (v.slot i) 0 = p ∨
    ∃ k < 8, indirect (v.slot i) k ≠ -1 ∧ indirect (v.slot i) k = p

/-- No inode of `T` keeps the block. -/
def View.Unowned (v : View) (T : Finset ℕ) (p : ℤ) : Prop :=
  ∀ i ∈ T, ∀ r, v.names (v.slot i) r ≠ some p

/-! ## New inodes -/

/-- A file without blocks. -/
structure NewFile (x : Inode) (i : ℕ) : Prop where
  ino : get x .ino = i
  type : get x .type = 0
  direct : ∀ k < 16, direct x k = -1
  indirect : ∀ k ≤ 8, indirect x k = -1

/-- A directory whose only block is data block `d`. -/
structure NewDir (x : Inode) (i d : ℕ) : Prop where
  ino : get x .ino = i
  type : IsDir x
  ptr : Rufs.direct x 0 = 67 + d
  direct : ∀ k, 0 < k → k < 16 → Rufs.direct x k = -1
  indirect : ∀ k ≤ 8, indirect x k = -1

theorem NewFile.not_isDir (h : NewFile x i) : ¬IsDir x := fun hd => by
  rw [IsDir, h.type] at hd
  cases hd

theorem NewFile.names (h : NewFile x i) : v.names x r = none := by
  cases r with
  | direct k =>
    refine ite_eq_right_iff.2 fun hk => ?_
    exact nonNull_eq_none.2 (h.direct k hk)
  | indirect k =>
    refine ite_eq_right_iff.2 fun hk => ?_
    exact nonNull_eq_none.2 (h.indirect k (by omega))
  | entry k j => exact if_neg fun hh => hh.2.2 (h.indirect k (by omega))

theorem NewDir.names (h : NewDir x i k) :
    v.names x r = if r = .direct 0 then some (67 + (k : ℤ)) else none := by
  cases r with
  | direct j =>
    by_cases hj : j = 0
    · rw [hj, names_direct (by decide), h.ptr, if_pos rfl]
      exact nonNull_eq_some.2 ⟨by omega, rfl⟩
    · rw [if_neg (by simpa using hj)]
      refine ite_eq_right_iff.2 fun hlt => ?_
      exact nonNull_eq_none.2 (h.direct j (by omega) hlt)
  | indirect j =>
    refine ite_eq_right_iff.2 fun hlt => ?_
    exact nonNull_eq_none.2 (h.indirect j (by omega))
  | entry j m => exact if_neg fun hh => hh.2.2 (h.indirect j (by omega))

namespace Inv

theorem named_of_meta (h : Inv v T) (hm : v.Meta T p) :
    ∃ i ∈ T, ∃ r, v.names (v.slot i) r = some p := by
  obtain ⟨i, hi, ⟨hd, rfl⟩ | ⟨k, hk, hne, rfl⟩⟩ := hm
  · obtain ⟨k, -, heq, -, -, hname⟩ := h.table hi hd
    exact ⟨i, hi, .direct 0, heq ▸ hname⟩
  · exact ⟨i, hi, .indirect k, (names_indirect hk).trans (nonNull_eq_some.2 ⟨hne, rfl⟩)⟩

theorem used_of_meta (h : Inv v T) (hm : v.Meta T p) : v.Used p := by
  obtain ⟨i, hi, r, hr⟩ := h.named_of_meta hm
  exact h.used hi hr

/-- The owners do not change when pointers and indirect blocks stay. -/
theorem own_congr (hnode : ∀ i ∈ T, SamePtrs (v.slot i) (v'.slot i))
    (hind : ∀ i ∈ T, ∀ k < 8, indirect (v.slot i) k ≠ -1 →
      v'.block (indirect (v.slot i) k) = v.block (indirect (v.slot i) k)) :
    v'.own T = v.own T := by
  funext ⟨i, r⟩
  refine if_congr_both fun hi => ?_
  exact congrFun (names_congr (hnode i hi) (hind i hi)) r

/-- **The frame.** Inodes keep their pointers, blocks of pointers and of names stay, and what is in
use stays marked. -/
theorem frame (h : Inv v T) (hnode : ∀ i ∈ T, SameNode (v.slot i) (v'.slot i))
    (hibit : ∀ i ∈ T, v.ibit i = true → v'.ibit i = true)
    (hused : ∀ i ∈ T, ∀ r p, v.names (v.slot i) r = some p → v.Used p → v'.Used p)
    (hmeta : ∀ p, v.Meta T p → v'.block p = v.block p) : Inv v' T := by
  have hown : v'.own T = v.own T := own_congr (fun i hi => (hnode i hi).toSamePtrs)
    fun i hi k hk hne => hmeta _ ⟨i, hi, .inr ⟨k, hk, hne, rfl⟩⟩
  have htable : ∀ i ∈ T, IsDir (v.slot i) → v'.table i = v.table i := by
    intro i hi hd
    unfold View.table
    rw [(hnode i hi).direct 0 (by decide)]
    exact hmeta _ ⟨i, hi, .inl ⟨hd, rfl⟩⟩
  have hchildren : v'.children T = v.children T := by
    funext ⟨i, k⟩
    unfold View.children
    by_cases hi : i ∈ T ∧ IsDir (v.slot i)
    · rw [htable i hi.1 hi.2]
      exact if_congr (by rw [(hnode i hi.1).isDir]) rfl rfl
    · rw [if_neg fun hh => hi ⟨hh.1, ((hnode i hh.1).isDir).1 hh.2.1⟩,
        if_neg fun hh => hi ⟨hh.1, hh.2.1⟩]
  refine ⟨⟨h.root.1, (hnode 0 h.root.1).isDir.2 h.root.2⟩, fun i hi => ?_, ?_, hchildren ▸ h.tree⟩
  · have ht := h.tracked i hi
    have hn := hnode i hi
    refine ⟨ht.lt, hibit i hi ht.ibit, hn.ino.trans ht.ino,
      (hn.indirect 8 le_rfl).trans ht.past, ?_,
      fun hd => ?_⟩
    · rw [hn.type, hn.isDir]
      exact ht.kind
    · have hd' := hn.isDir.1 hd
      have hdir := ht.dir hd'
      refine ⟨?_, fun k h0 hk => ?_, fun k hk => ?_, ?_⟩
      · rw [hn.direct 0 (by decide)]
        exact hdir.ptr
      · rw [hn.direct k hk]
        exact hdir.direct k h0 hk
      · rw [hn.indirect k (by omega)]
        exact hdir.indirect k hk
      · rw [htable i hi hd']
        exact hdir.table
  · rw [hown]
    refine h.blocks.shrink (fun _ _ ho => ho) fun o p ho => ?_
    unfold View.own at ho
    rw [Option.ite_none_right_eq_some] at ho
    exact hused o.1 ho.1 o.2 p ho.2 (h.used ho.1 ho.2)

/-! ## Bitmaps -/

theorem takeInode (h : Inv v T) (i : ℕ) : Inv (v.takeInode i) T := by
  refine h.frame (fun _ _ => .refl _) (fun j _ hj => ?_) (fun _ _ _ _ _ hu => hu) fun _ _ => rfl
  rw [View.takeInode_ibit]
  by_cases hji : j = i
  · rw [hji, Function.update_self]
  · rwa [Function.update_of_ne hji]

theorem used_takeBlock (hu : v.Used p) : (v.takeBlock k).Used p := by
  obtain ⟨j, hj, heq, hbit⟩ := hu
  refine ⟨j, hj, heq, ?_⟩
  rw [View.takeBlock_dbit]
  by_cases hjk : j = k
  · rw [hjk, Function.update_self]
  · rwa [Function.update_of_ne hjk]

theorem takeBlock (h : Inv v T) (k : ℕ) : Inv (v.takeBlock k) T :=
  h.frame (fun _ _ => .refl _) (fun _ _ hj => hj) (fun _ _ _ _ _ hu => used_takeBlock hu)
    fun _ _ => rfl

/-- An inode that is not in use is given back. -/
theorem dropInode (h : Inv v T) (hi : i ∉ T) : Inv (v.dropInode i) T := by
  refine h.frame (fun _ _ => .refl _) (fun j hj hbit => ?_) (fun _ _ _ _ _ hu => hu) fun _ _ => rfl
  rw [View.dropInode_ibit, Function.update_of_ne (ne_of_mem_of_not_mem hj hi)]
  exact hbit

/-! ## Blocks -/

theorem block_setBlk_of_ne (h67 : 67 ≤ p) (hne : p ≠ 67 + k) :
    (v.setBlk k b).block p = v.block p :=
  Function.update_of_ne (by omega) ..

theorem block_setBlk_self : (v.setBlk k b).block (67 + k) = b := by
  rw [View.block_add, View.setBlk_blk, Function.update_self]

/-- Blocks of pointers and tables stay when another block is written. -/
theorem block_setBlk_of_meta (h : Inv v T) (hk : ¬v.Meta T (67 + k)) (hp : v.Meta T p) :
    (v.setBlk k b).block p = v.block p := by
  obtain ⟨j, -, rfl, -⟩ := h.used_of_meta hp
  exact block_setBlk_of_ne (by omega) fun heq => hk (heq ▸ hp)

theorem table_setBlk_of_meta (h : Inv v T) (hk : ¬v.Meta T (67 + k)) (hi : i ∈ T)
    (hd : IsDir (v.slot i)) : (v.setBlk k b).table i = v.table i :=
  h.block_setBlk_of_meta hk ⟨i, hi, .inl ⟨hd, rfl⟩⟩

/-- A block without pointers or names in use is written. -/
theorem setBlk (h : Inv v T) (hk : ¬v.Meta T (67 + k)) : Inv (v.setBlk k b) T :=
  h.frame (fun _ _ => .refl _) (fun _ _ hj => hj) (fun _ _ _ _ _ hu => hu) fun _ hp =>
    h.block_setBlk_of_meta hk hp

theorem unowned_of_free (h : Inv v T) (hfree : v.dbit k = false) : v.Unowned T (67 + k) := by
  intro i hi r hr
  obtain ⟨j, -, heq, hbit⟩ := h.used hi hr
  obtain rfl : k = j := by omega
  rw [hfree] at hbit
  cases hbit

theorem not_meta (h : Inv v T) (hun : v.Unowned T p) : ¬v.Meta T p := fun hm => by
  obtain ⟨i, hi, r, hr⟩ := h.named_of_meta hm
  exact hun i hi r hr

theorem unowned_setBlk (h : Inv v T) (hk : ¬v.Meta T (67 + k)) (hun : v.Unowned T p) :
    (v.setBlk k b).Unowned T p := by
  intro i hi r hr
  have hnames := names_congr (.refl (v.slot i)) fun j hj hne =>
    h.block_setBlk_of_meta (b := b) hk ⟨i, hi, .inr ⟨j, hj, hne, rfl⟩⟩
  exact hun i hi r ((congrFun hnames r).symm.trans hr)

/-- A block that nobody keeps is given back. -/
theorem dropBlock (h : Inv v T) (hun : v.Unowned T (67 + k)) : Inv (v.dropBlock k) T := by
  refine h.frame (fun _ _ => .refl _) (fun _ _ hj => hj) (fun i hi r p hr hu => ?_) fun p hp => ?_
  · obtain ⟨j, hj, rfl, hbit⟩ := hu
    have hjk : j ≠ k := fun heq => hun i hi r (heq ▸ hr)
    refine ⟨j, hj, rfl, ?_⟩
    rw [View.dropBlock_dbit, Function.update_of_ne hjk]
    exact hbit
  · obtain ⟨j, -, rfl, -⟩ := h.used_of_meta hp
    have hjk : j ≠ k := fun heq => h.not_meta hun (heq ▸ hp)
    rw [View.block_add, View.block_add, View.dropBlock_blk, Function.update_of_ne hjk]

/-! ## Inodes -/

/-- An inode is stored again with the same pointers. -/
theorem touch (h : Inv v T) (hx : SameNode (v.slot i) x) : Inv (v.setSlot i x) T := by
  refine h.frame (fun j _ => ?_) (fun _ _ hj => hj) (fun _ _ _ _ _ hu => hu) fun _ _ => rfl
  rw [View.setSlot_slot]
  by_cases hji : j = i
  · rw [hji, Function.update_self]
    exact hx
  · rw [Function.update_of_ne hji]
    exact .refl _

/-- An inode that is not in use is stored. -/
theorem setSlot (h : Inv v T) (hi : i ∉ T) : Inv (v.setSlot i x) T := by
  refine h.frame (fun j hj => ?_) (fun _ _ hj => hj) (fun _ _ _ _ _ hu => hu) fun _ _ => rfl
  rw [View.setSlot_slot, Function.update_of_ne (ne_of_mem_of_not_mem hj hi)]
  exact .refl _

/-- Another inode is stored. -/
theorem tracked_setSlot (ht : v.Tracked j) (hji : j ≠ i) : (v.setSlot i x).Tracked j := by
  have hslot : (v.setSlot i x).slot j = v.slot j := Function.update_of_ne hji ..
  have htable : (v.setSlot i x).table j = v.table j := by
    unfold View.table
    rw [hslot]
    rfl
  refine ⟨ht.lt, ht.ibit, ?_, ?_, ?_, fun hd => ?_⟩
  · rw [hslot]
    exact ht.ino
  · rw [hslot]
    exact ht.past
  · rw [hslot]
    exact ht.kind
  · rw [hslot] at hd
    obtain ⟨hptr, hdirect, hindirect, hok⟩ := ht.dir hd
    refine ⟨?_, ?_, ?_, htable ▸ hok⟩ <;> rwa [hslot]

/-- Entries of other inodes do not change. -/
theorem children_setSlot_of_ne (hji : j ≠ i) :
    (v.setSlot i x).children T (j, k) = v.children T (j, k) := by
  unfold View.children View.table
  simp only [View.setSlot_slot, Function.update_of_ne hji]
  rfl

theorem own_setSlot_of_ne (hji : j ≠ i) : (v.setSlot i x).own T (j, r) = v.own T (j, r) := by
  unfold View.own
  simp only [View.setSlot_slot, Function.update_of_ne hji]
  rfl

theorem own_setSlot_self (hi : i ∈ T) : (v.setSlot i x).own T (i, r) = v.names x r := by
  unfold View.own
  simp only [View.setSlot_slot, Function.update_self, if_pos hi]
  rfl

theorem own_insert_of_ne (hji : j ≠ i) : v.own (insert i T) (j, r) = v.own T (j, r) := by
  unfold View.own
  simp only [Finset.mem_insert, or_iff_right hji]

theorem children_insert_of_ne (hji : j ≠ i) :
    v.children (insert i T) (j, k) = v.children T (j, k) := by
  unfold View.children
  simp only [Finset.mem_insert, or_iff_right hji]

/-- A new inode that names nothing does not change the names. -/
theorem children_adopt (hi : i ∉ T)
    (hnone : ∀ k, (v.setSlot i x).children (insert i T) (i, k) = none) :
    (v.setSlot i x).children (insert i T) = v.children T := by
  funext ⟨j, k⟩
  by_cases hji : j = i
  · subst hji
    rw [hnone]
    exact (if_neg fun hh => hi hh.1).symm
  · rw [children_insert_of_ne hji, children_setSlot_of_ne hji]

/-- **An inode is taken into use.** Its blocks have no other owner, and it names nothing. -/
theorem adopt (h : Inv v T) (hi : i ∉ T)
    (hnone : ∀ k, (v.setSlot i x).children (insert i T) (i, k) = none)
    (ht : (v.setSlot i x).Tracked i)
    (hown : Exclusive ((v.setSlot i x).own (insert i T)) v.Used) :
    Inv (v.setSlot i x) (insert i T) := by
  have hne : ∀ {j}, j ∈ T → j ≠ i := fun hj => ne_of_mem_of_not_mem hj hi
  refine ⟨⟨Finset.mem_insert_of_mem h.root.1, ?_⟩, fun j hj => ?_, hown, ?_⟩
  · rw [View.setSlot_slot, Function.update_of_ne (hne h.root.1)]
    exact h.root.2
  · obtain rfl | hj := Finset.mem_insert.1 hj
    · exact ht
    · exact tracked_setSlot (h.tracked j hj) (hne hj)
  · rw [children_adopt hi hnone]
    exact h.tree.mono fun c hc => ⟨Finset.mem_insert_of_mem hc.1, hc.2⟩

/-- A file names nothing. -/
theorem children_file (hx : get x .type = 0) :
    (v.setSlot i x).children T (i, k) = none := by
  refine if_neg fun hh => ?_
  obtain ⟨-, hd, -⟩ := hh
  rw [View.setSlot_slot, Function.update_self, IsDir, hx] at hd
  exact absurd hd (by decide)

/-- A directory with an empty table names nothing. -/
theorem children_empty {d : ℕ} (hptr : direct x 0 = 67 + d)
    (hempty : ∀ j, 2 ≤ j → j < 19 → validAt (v.blk d) j = false) :
    (v.setSlot i x).children T (i, k) = none := by
  have htable : (v.setSlot i x).table i = v.blk d := by
    unfold View.table
    rw [show (v.setSlot i x).slot i = x from Function.update_self .., hptr]
    exact View.block_add _ d
  refine if_neg fun hh => ?_
  rw [htable, hempty k hh.2.2.1 hh.2.2.2.1] at hh
  exact absurd hh.2.2.2.2 (by decide)

theorem own_adopt (hj : j ≠ i) :
    (v.setSlot i x).own (insert i T) (j, r) = v.own T (j, r) := by
  rw [own_insert_of_ne hj, own_setSlot_of_ne hj]

/-- A regular file is taken into use. -/
theorem adoptFile (h : Inv v T) (hi : i ∉ T) (hlt : i < 1024) (hbit : v.ibit i = true)
    (hx : NewFile x i) : Inv (v.setSlot i x) (insert i T) := by
  have hslot : (v.setSlot i x).slot i = x := Function.update_self ..
  refine h.adopt hi (fun _ => children_file hx.type) ?_ ?_
  · refine ⟨hlt, hbit, ?_, ?_, ?_, fun hd => absurd (hslot ▸ hd) hx.not_isDir⟩ <;> rw [hslot]
    · exact hx.ino
    · exact hx.indirect 8 le_rfl
    · exact .inl hx.type
  · have hown : (v.setSlot i x).own (insert i T) = v.own T := by
      funext ⟨j, r⟩
      by_cases hj : j = i
      · rw [hj, own_setSlot_self (Finset.mem_insert_self i T), hx.names]
        exact (if_neg hi).symm
      · exact own_adopt hj
    rw [hown]
    exact h.blocks

/-- A new directory is in order. -/
theorem tracked_newDir (hlt : i < 1024) (hbit : v.ibit i = true) (hx : NewDir x i k)
    (hslot : v.slot i = x) (hok : TableOk (v.blk k)) : v.Tracked i := by
  refine ⟨hlt, hbit, ?_, ?_, ?_, fun _ => ⟨?_, ?_, ?_, ?_⟩⟩
  · rw [hslot]
    exact hx.ino
  · rw [hslot]
    exact hx.indirect 8 le_rfl
  · rw [hslot]
    exact .inr hx.type
  · rw [hslot, hx.ptr]
    omega
  · rw [hslot]
    exact hx.direct
  · rw [hslot]
    exact fun j hj => hx.indirect j (by omega)
  · unfold View.table
    rw [hslot, hx.ptr, View.block_add]
    exact hok

/-- A directory with an empty table is taken into use. -/
theorem adoptDir (h : Inv v T) (hi : i ∉ T) (hlt : i < 1024) (hbit : v.ibit i = true)
    (hx : NewDir x i k) (hk : k < 16384) (hdbit : v.dbit k = true) (hun : v.Unowned T (67 + k))
    (hok : TableOk (v.blk k)) (hempty : ∀ j, 2 ≤ j → j < 19 → validAt (v.blk k) j = false) :
    Inv (v.setSlot i x) (insert i T) := by
  refine h.adopt hi (fun _ => children_empty hx.ptr hempty)
    (tracked_newDir hlt hbit hx (Function.update_self ..) hok) ?_
  have hown : (v.setSlot i x).own (insert i T) =
      Function.update (v.own T) (i, .direct 0) (some (67 + (k : ℤ))) := by
    funext ⟨j, r⟩
    by_cases hj : j = i
    · subst hj
      rw [own_setSlot_self (Finset.mem_insert_self j T), hx.names]
      by_cases hr : r = .direct 0
      · rw [hr, Function.update_self, if_pos rfl]
      · rw [if_neg hr, Function.update_of_ne (by simpa using hr)]
        exact (if_neg hi).symm
    · rw [own_adopt hj, Function.update_of_ne fun heq => hj (congrArg Prod.fst heq)]
  rw [hown]
  refine h.blocks.acquire (fun o ho => ?_) (fun _ hu => hu) ⟨k, hk, rfl, hdbit⟩
  unfold View.own at ho
  rw [Option.ite_none_right_eq_some] at ho
  exact hun o.1 ho.1 o.2 ho.2

/-- An inode that has no name is no longer in use. -/
theorem forget (h : Inv v T) (h0 : i ≠ 0) (hun : ∀ o, v.children T o ≠ some i) :
    Inv v (T.erase i) := by
  have hsub : ∀ o c, v.children (T.erase i) o = some c → v.children T o = some c := by
    intro o c hc
    rw [children_eq_some] at hc ⊢
    exact ⟨⟨Finset.mem_of_mem_erase hc.1.1, hc.1.2⟩, hc.2⟩
  refine ⟨⟨Finset.mem_erase.2 ⟨h0.symm, h.root.1⟩, h.root.2⟩,
    fun j hj => h.tracked j (Finset.mem_of_mem_erase hj), ?_, ?_⟩
  · refine h.blocks.shrink (fun o p ho => ?_) fun o p ho => ?_
    all_goals
      unfold View.own at ho
      rw [Option.ite_none_right_eq_some] at ho
      have hj := Finset.mem_of_mem_erase ho.1
    · exact (if_pos hj).trans ho.2
    · exact h.used hj ho.2
  · refine h.tree.shrink hsub fun o c hc => ?_
    have hc' := hsub o c hc
    obtain ⟨hcT, hc0⟩ := h.tree.used hc'
    exact ⟨Finset.mem_erase.2 ⟨fun heq => hun o (heq ▸ hc'), hcT⟩, hc0⟩

/-! ## Tables -/

/-- The block of a table is kept by its directory only. -/
theorem table_only (h : Inv v T) (hq : q ∈ T) (hd : IsDir (v.slot q))
    (hk : direct (v.slot q) 0 = 67 + k) (hi : i ∈ T)
    (hr : v.names (v.slot i) r = some (67 + (k : ℤ))) : i = q ∧ r = .direct 0 := by
  obtain ⟨k', -, heq, -, -, hname⟩ := h.table hq hd
  obtain rfl : k' = k := by omega
  exact h.owner hi hq hr hname

theorem table_setBlk_of_ne (h : Inv v T) (hq : q ∈ T) (hd : IsDir (v.slot q))
    (hk : direct (v.slot q) 0 = 67 + k) (hj : j ∈ T) (hdj : IsDir (v.slot j)) (hjq : j ≠ q) :
    (v.setBlk k b).table j = v.table j := by
  obtain ⟨k', -, heq, -, -, hname⟩ := h.table hj hdj
  have h67 : 67 ≤ direct (v.slot j) 0 := by omega
  refine block_setBlk_of_ne h67 fun hkk => hjq ?_
  exact (h.table_only hq hd hk hj (hname.trans (congrArg some (heq.symm.trans hkk)))).1

theorem table_setBlk_self (hk : direct (v.slot q) 0 = 67 + k) : (v.setBlk k b).table q = b := by
  unfold View.table
  rw [show (v.setBlk k b).slot q = v.slot q from rfl, hk]
  exact block_setBlk_self

/-- Writing a table does not change who owns what. -/
theorem names_setTable (h : Inv v T) (hq : q ∈ T) (hd : IsDir (v.slot q))
    (hk : direct (v.slot q) 0 = 67 + k) (hi : i ∈ T) :
    (v.setBlk k b).names (v.slot i) = v.names (v.slot i) := by
  refine names_congr (.refl _) fun j hj hne => ?_
  have hname : v.names (v.slot i) (.indirect j) = some (indirect (v.slot i) j) :=
    (names_indirect hj).trans (nonNull_eq_some.2 ⟨hne, rfl⟩)
  obtain ⟨m, -, hm, -⟩ := h.used hi hname
  have h67 : 67 ≤ indirect (v.slot i) j := by omega
  refine block_setBlk_of_ne h67 fun heq => ?_
  cases (h.table_only hq hd hk hi (hname.trans (congrArg some heq))).2

/-- **A table is written.** -/
theorem setTable (h : Inv v T) (hq : q ∈ T) (hd : IsDir (v.slot q))
    (hk : direct (v.slot q) 0 = 67 + k) (hb : TableOk b)
    (htree : Exclusive ((v.setBlk k b).children T) fun c => c ∈ T ∧ c ≠ 0) :
    Inv (v.setBlk k b) T := by
  have hown : (v.setBlk k b).own T = v.own T := by
    funext ⟨i, r⟩
    exact if_congr_both fun hi => congrFun (h.names_setTable hq hd hk hi) r
  have hblocks : Exclusive ((v.setBlk k b).own T) v.Used := by
    rw [hown]
    exact h.blocks
  refine ⟨h.root, fun j hj => ?_, hblocks, htree⟩
  have ht := h.tracked j hj
  refine ⟨ht.lt, ht.ibit, ht.ino, ht.past, ht.kind, fun hdj => ?_⟩
  have hdir := ht.dir hdj
  refine ⟨hdir.ptr, hdir.direct, hdir.indirect, ?_⟩
  by_cases hjq : j = q
  · rw [hjq, table_setBlk_self hk]
    exact hb
  · rw [h.table_setBlk_of_ne hq hd hk hj hdj hjq]
    exact hdir.table

theorem children_setBlk_of_ne (h : Inv v T) (hq : q ∈ T) (hd : IsDir (v.slot q))
    (hk : direct (v.slot q) 0 = 67 + k) (hjq : j ≠ q) :
    (v.setBlk k b).children T (j, i) = v.children T (j, i) := by
  unfold View.children
  by_cases hj : j ∈ T ∧ IsDir (v.slot j)
  · rw [h.table_setBlk_of_ne hq hd hk hj.1 hj.2 hjq]
    rfl
  · rw [if_neg fun hh => hj ⟨hh.1, hh.2.1⟩, if_neg fun hh => hj ⟨hh.1, hh.2.1⟩]

theorem children_setBlk_self (hq : q ∈ T) (hd : IsDir (v.slot q))
    (hk : direct (v.slot q) 0 = 67 + k) : (v.setBlk k b).children T (q, i) =
      if 2 ≤ i ∧ i < 19 ∧ validAt b i = true then some (inoAt b i) else none := by
  unfold View.children
  rw [table_setBlk_self hk]
  exact if_congr ⟨fun hh => hh.2.2, fun hh => ⟨hq, hd, hh⟩⟩ rfl rfl

/-- **An inode gets a name**, in entry `m` of the table. -/
theorem link {m : ℕ} (h : Inv v T) (hq : q ∈ T) (hd : IsDir (v.slot q))
    (hk : direct (v.slot q) 0 = 67 + k) (hb : TableOk b) (hm : 2 ≤ m) (hm' : m < 19)
    (hvalid : validAt b m = true) (hino : inoAt b m = c)
    (hother : ∀ j < 19, j ≠ m →
      validAt b j = validAt (v.table q) j ∧ inoAt b j = inoAt (v.table q) j)
    (hc : c ∈ T ∧ c ≠ 0) (hun : ∀ o, v.children T o ≠ some c) : Inv (v.setBlk k b) T := by
  have hchildren :
      (v.setBlk k b).children T = Function.update (v.children T) (q, m) (some c) := by
    funext ⟨i, j⟩
    by_cases hi : i = q
    · subst hi
      rw [children_setBlk_self hq hd hk]
      by_cases hj : j = m
      · rw [hj, Function.update_self, if_pos ⟨hm, hm', hvalid⟩, hino]
      · rw [Function.update_of_ne (by simpa using hj)]
        unfold View.children
        by_cases hj19 : j < 19
        · rw [(hother j hj19 hj).1, (hother j hj19 hj).2]
          exact if_congr ⟨fun hh => ⟨hq, hd, hh⟩, fun hh => hh.2.2⟩ rfl rfl
        · rw [if_neg fun hh => hj19 hh.2.1, if_neg fun hh => hj19 hh.2.2.2.1]
    · rw [h.children_setBlk_of_ne hq hd hk hi,
        Function.update_of_ne fun heq => hi (congrArg Prod.fst heq)]
  refine h.setTable hq hd hk hb ?_
  rw [hchildren]
  exact h.tree.acquire hun (fun _ hx => hx) hc

/-- **An inode loses its name**, in entry `m` of the table. -/
theorem unlink {m : ℕ} (h : Inv v T) (hq : q ∈ T) (hd : IsDir (v.slot q))
    (hk : direct (v.slot q) 0 = 67 + k) (hb : TableOk b) (hvalid : validAt b m = false)
    (hother : ∀ j < 19, j ≠ m →
      validAt b j = validAt (v.table q) j ∧ inoAt b j = inoAt (v.table q) j) :
    Inv (v.setBlk k b) T ∧ ∀ o c, (v.setBlk k b).children T o = some c →
      v.children T o = some c ∧ o ≠ (q, m) := by
  have hchildren : ∀ o c, (v.setBlk k b).children T o = some c →
      v.children T o = some c ∧ o ≠ (q, m) := by
    intro ⟨i, j⟩ c hc
    by_cases hi : i = q
    · subst hi
      rw [children_setBlk_self hq hd hk, Option.ite_none_right_eq_some] at hc
      obtain ⟨⟨h2, h19, hv⟩, hino⟩ := hc
      have hj : j ≠ m := fun heq => by
        rw [heq, hvalid] at hv
        cases hv
      rw [(hother j h19 hj).1] at hv
      rw [(hother j h19 hj).2, Option.some.injEq] at hino
      exact ⟨children_eq_some.2 ⟨⟨hq, hd, h2, h19, hv⟩, hino⟩, by simpa using hj⟩
    · rw [h.children_setBlk_of_ne hq hd hk hi] at hc
      exact ⟨hc, fun heq => hi (congrArg Prod.fst heq)⟩
  refine ⟨h.setTable hq hd hk hb ?_, hchildren⟩
  refine h.tree.shrink (fun o c hc => (hchildren o c hc).1) fun o c hc => ?_
  exact h.tree.used (hchildren o c hc).1

/-! ## Blocks of a file -/

/-- **The pointers of a file** change. -/
theorem setFile (h : Inv v T) (hi : i ∈ T) (hfile : get (v.slot i) .type = 0)
    (hino : get x .ino = i)
    (htype : get x .type = 0) (hpast : indirect x 8 = -1)
    (hown : Exclusive ((v.setSlot i x).own T) v.Used) : Inv (v.setSlot i x) T := by
  have hslot : (v.setSlot i x).slot i = x := Function.update_self ..
  have hnot : ∀ {y : Inode}, get y .type = 0 → ¬IsDir y := fun hy hd => by
    unfold IsDir at hd
    omega
  have htree : (v.setSlot i x).children T = v.children T := by
    funext ⟨j, k⟩
    by_cases hji : j = i
    · subst hji
      unfold View.children
      rw [hslot, if_neg fun hh => hnot htype hh.2.1, if_neg fun hh => hnot hfile hh.2.1]
    · exact children_setSlot_of_ne hji
  have h0 : 0 ≠ i := fun heq => hnot hfile (heq ▸ h.root.2)
  refine ⟨⟨h.root.1, ?_⟩, fun j hj => ?_, hown, ?_⟩
  · rw [View.setSlot_slot, Function.update_of_ne h0]
    exact h.root.2
  · by_cases hji : j = i
    · subst hji
      have ht := h.tracked j hj
      refine ⟨ht.lt, ht.ibit, ?_, ?_, ?_, fun hd => absurd (hslot ▸ hd) (hnot htype)⟩ <;> rw [hslot]
      · exact hino
      · exact hpast
      · exact .inl htype
    · exact tracked_setSlot (h.tracked j hj) hji
  · rw [htree]
    exact h.tree

theorem own_setSlot (hi : i ∈ T) :
    (v.setSlot i x).own T = fun o => if o.1 = i then v.names x o.2 else v.own T o := by
  funext ⟨j, r⟩
  by_cases hji : j = i
  · subst hji
    exact (own_setSlot_self hi).trans (if_pos rfl).symm
  · exact (own_setSlot_of_ne hji).trans (if_neg hji).symm

/-- Pointers of a file are lost. -/
theorem shrinkFile (h : Inv v T) (hi : i ∈ T) (hfile : get (v.slot i) .type = 0)
    (hino : get x .ino = i) (htype : get x .type = 0) (hpast : indirect x 8 = -1)
    (hnames : ∀ r p, v.names x r = some p → v.names (v.slot i) r = some p) :
    Inv (v.setSlot i x) T := by
  have hsub : ∀ o p, (v.setSlot i x).own T o = some p → v.own T o = some p := by
    intro o p ho
    rw [own_setSlot hi] at ho
    dsimp only at ho
    split at ho
    next heq =>
      unfold View.own
      rw [heq, if_pos hi]
      exact hnames _ _ ho
    next => exact ho
  exact h.setFile hi hfile hino htype hpast
    (h.blocks.shrink hsub fun o p ho => h.blocks.used (hsub o p ho))

/-- **A file gets a block.** -/
theorem growFile (h : Inv v T) (hi : i ∈ T) (hfile : get (v.slot i) .type = 0)
    (hino : get x .ino = i) (htype : get x .type = 0) (hpast : indirect x 8 = -1)
    (hnames : v.names x = Function.update (v.names (v.slot i)) r (some p)) (hun : v.Unowned T p)
    (hp : v.Used p) : Inv (v.setSlot i x) T := by
  have hown : (v.setSlot i x).own T = Function.update (v.own T) (i, r) (some p) := by
    rw [own_setSlot hi, hnames]
    funext ⟨j, s⟩
    by_cases hji : j = i
    · subst hji
      rw [if_pos rfl]
      by_cases hs : s = r
      · rw [hs, Function.update_self, Function.update_self]
      · rw [Function.update_of_ne hs, Function.update_of_ne (by simpa using hs)]
        exact (if_pos hi).symm
    · rw [if_neg hji, Function.update_of_ne fun heq => hji (congrArg Prod.fst heq)]
  refine h.setFile hi hfile hino htype hpast ?_
  rw [hown]
  refine h.blocks.acquire (fun o ho => ?_) (fun _ hu => hu) hp
  unfold View.own at ho
  rw [Option.ite_none_right_eq_some] at ho
  exact hun o.1 ho.1 o.2 ho.2

/-- A word of an indirect block is written. -/
theorem own_setEntry {m : ℕ} (h : Inv v T) (hi : i ∈ T) (hk : k < 8)
    (hptr : indirect (v.slot i) k = 67 + m) (hj : j < 1024) (hself : b.getInt (4 * j) = p)
    (hne : p ≠ -1)
    (hother : ∀ n < 1024, n ≠ j → b.getInt (4 * n) = (v.blk m).getInt (4 * n)) :
    (v.setBlk m b).own T = Function.update (v.own T) (i, .entry k j) (some p) := by
  have hname : v.names (v.slot i) (.indirect k) = some (67 + (m : ℤ)) := by
    rw [names_indirect hk, hptr]
    exact nonNull_eq_some.2 ⟨by omega, rfl⟩
  funext ⟨c, s⟩
  by_cases hcs : (c, s) = (i, .entry k j)
  · rw [hcs, Function.update_self]
    refine (if_pos hi).trans ((names_entry hk hj ?_).trans ?_)
    · rw [View.setBlk_slot, hptr]
      omega
    · rw [View.setBlk_slot, hptr, block_setBlk_self, hself]
      exact nonNull_eq_some.2 ⟨hne, rfl⟩
  · rw [Function.update_of_ne hcs]
    refine if_congr_both fun hc => ?_
    cases s with
    | direct n => rfl
    | indirect n => rfl
    | entry n l =>
      refine if_congr_both fun hh => ?_
      rw [View.setBlk_slot] at hh ⊢
      have hn : v.names (v.slot c) (.indirect n) = some (indirect (v.slot c) n) :=
        (names_indirect hh.1).trans (nonNull_eq_some.2 ⟨hh.2.2, rfl⟩)
      obtain ⟨n', -, heq, -⟩ := h.used hc hn
      by_cases hnm : indirect (v.slot c) n = 67 + m
      · obtain ⟨rfl, hnk⟩ := h.owner hc hi (hn.trans (congrArg some hnm)) hname
        rw [hnm, block_setBlk_self, View.block_add]
        refine congrArg nonNull (hother l hh.2.1 fun hlj => hcs ?_)
        rw [hlj, Ref.indirect.inj hnk]
      · have h67 : 67 ≤ indirect (v.slot c) n := by omega
        rw [block_setBlk_of_ne h67 hnm]

/-- **An indirect block gets an entry.** -/
theorem growEntry {m : ℕ} (h : Inv v T) (hi : i ∈ T) (hk : k < 8)
    (hptr : indirect (v.slot i) k = 67 + m) (hj : j < 1024)
    (hself : b.getInt (4 * j) = p) (hne : p ≠ -1)
    (hother : ∀ n < 1024, n ≠ j → b.getInt (4 * n) = (v.blk m).getInt (4 * n))
    (hun : v.Unowned T p) (hp : v.Used p) : Inv (v.setBlk m b) T := by
  have hname : v.names (v.slot i) (.indirect k) = some (67 + (m : ℤ)) := by
    rw [names_indirect hk, hptr]
    exact nonNull_eq_some.2 ⟨by omega, rfl⟩
  have htable : ∀ {c}, c ∈ T → IsDir (v.slot c) → (v.setBlk m b).table c = v.table c := by
    intro c hc hd
    obtain ⟨n, -, heq, -, -, hn⟩ := h.table hc hd
    have h67 : 67 ≤ direct (v.slot c) 0 := by omega
    refine block_setBlk_of_ne h67 fun hnm => ?_
    cases (h.owner hc hi (hn.trans (congrArg some (heq.symm.trans hnm))) hname).2
  have htree : (v.setBlk m b).children T = v.children T := by
    funext ⟨c, n⟩
    unfold View.children
    by_cases hc : c ∈ T ∧ IsDir (v.slot c)
    · rw [htable hc.1 hc.2]
      rfl
    · rw [if_neg fun hh => hc ⟨hh.1, hh.2.1⟩, if_neg fun hh => hc ⟨hh.1, hh.2.1⟩]
  have hblocks : Exclusive ((v.setBlk m b).own T) v.Used := by
    rw [h.own_setEntry hi hk hptr hj hself hne hother]
    refine h.blocks.acquire (fun o ho => ?_) (fun _ hu => hu) hp
    unfold View.own at ho
    rw [Option.ite_none_right_eq_some] at ho
    exact hun o.1 ho.1 o.2 ho.2
  refine ⟨h.root, fun c hc => ?_, hblocks, ?_⟩
  · have ht := h.tracked c hc
    refine ⟨ht.lt, ht.ibit, ht.ino, ht.past, ht.kind, fun hd => ?_⟩
    have hok := ht.dir hd
    refine ⟨hok.ptr, hok.direct, hok.indirect, ?_⟩
    rw [htable hc hd]
    exact hok.table
  · rw [htree]
    exact h.tree

end Inv

/-! ## Pointers -/

/-- The block numbers that `get_avail_blkno` gives out are pointers. -/
theorem direct_setDirect_self (hp : -1 ≤ p) (hp' : p < 2 ^ 31) : direct (setDirect x k p) k = p :=
  Bytes.getInt_setInt_self (by omega) hp'

theorem direct_setDirect_of_ne (h : j ≠ k) : direct (setDirect x k p) j = direct x j :=
  Bytes.getInt_setInt_of_disjoint (by omega)

theorem indirect_setDirect (hk : k < 16) : indirect (setDirect x k p) j = indirect x j :=
  Bytes.getInt_setInt_of_disjoint (by omega)

theorem indirect_setIndirect_self (hp : -1 ≤ p) (hp' : p < 2 ^ 31) :
    indirect (setIndirect x k p) k = p :=
  Bytes.getInt_setInt_self (by omega) hp'

theorem indirect_setIndirect_of_ne (h : j ≠ k) : indirect (setIndirect x k p) j = indirect x j :=
  Bytes.getInt_setInt_of_disjoint (by omega)

theorem direct_setIndirect (hj : j < 16) : direct (setIndirect x k p) j = direct x j :=
  Bytes.getInt_setInt_of_disjoint (by omega)

theorem get_setDirect {f : Field} (h : f.Disjoint .ptrs) (hk : k < 16) :
    get (setDirect x k p) f = get x f :=
  Bytes.getNat_setInt_of_disjoint (by
    simp only [Field.Disjoint, Field.ptrs] at h
    omega)

theorem get_setIndirect {f : Field} (h : f.Disjoint .ptrs) (hk : k < 8) :
    get (setIndirect x k p) f = get x f :=
  Bytes.getNat_setInt_of_disjoint (by
    simp only [Field.Disjoint, Field.ptrs] at h
    omega)

theorem names_setDirect (hk : k < 16) (hp : 0 ≤ p) (hp' : p < 2 ^ 31) :
    v.names (setDirect x k p) = Function.update (v.names x) (.direct k) (some p) := by
  funext r
  cases r with
  | direct j =>
    by_cases hj : j = k
    · rw [hj, Function.update_self, names_direct hk, direct_setDirect_self (by omega) hp']
      exact nonNull_eq_some.2 ⟨by omega, rfl⟩
    · rw [Function.update_of_ne (by simpa using hj)]
      refine if_congr_both fun _ => ?_
      rw [direct_setDirect_of_ne hj]
  | indirect j =>
    rw [Function.update_of_ne (by simp)]
    refine if_congr_both fun _ => ?_
    rw [indirect_setDirect hk]
  | entry j m =>
    rw [Function.update_of_ne (by simp)]
    simp only [View.names]
    rw [indirect_setDirect hk]

theorem names_setIndirect (hk : k < 8) (hp : 0 ≤ p) (hp' : p < 2 ^ 31) (hnull : indirect x k = -1)
    (hempty : ∀ j < 1024, (v.block p).getInt (4 * j) = -1) :
    v.names (setIndirect x k p) = Function.update (v.names x) (.indirect k) (some p) := by
  have hself : indirect (setIndirect x k p) k = p := indirect_setIndirect_self (by omega) hp'
  funext r
  cases r with
  | direct j =>
    rw [Function.update_of_ne (by simp)]
    refine if_congr_both fun hj => ?_
    rw [direct_setIndirect hj]
  | indirect j =>
    by_cases hj : j = k
    · rw [hj, Function.update_self, names_indirect hk, hself]
      exact nonNull_eq_some.2 ⟨by omega, rfl⟩
    · rw [Function.update_of_ne (by simpa using hj)]
      refine if_congr_both fun _ => ?_
      rw [indirect_setIndirect_of_ne hj]
  | entry j m =>
    rw [Function.update_of_ne (by simp)]
    simp only [View.names]
    by_cases hj : j = k
    · subst hj
      have hold : ¬(j < 8 ∧ m < 1024 ∧ indirect x j ≠ -1) := fun hh => hh.2.2 hnull
      rw [hself, if_neg hold]
      refine ite_eq_right_iff.2 fun hh => ?_
      rw [hempty m hh.2.1]
      rfl
    · rw [indirect_setIndirect_of_ne hj]

end UserOS.Rufs
