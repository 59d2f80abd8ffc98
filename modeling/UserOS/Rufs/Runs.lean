import UserOS.Lib.Run
import UserOS.Rufs.Contents

/-!
# Runs

The states that the calls of FUSE reach from a new file system. Every call keeps the inodes in
order, whatever it returns, and changes the disk by allowed steps only.

* `rufsMkfs_spec`: a new file system is in order.
* `call_spec`: one call.
* `Reached.spec`: every run.
* `reached_of_runs`: runs can be computed.
-/

namespace UserOS.Rufs

open Lib

variable {fs : Fs} {env : Env} {disk : Disk} {T : Finset ℕ}

/-! ## A new file system -/

/-- The view of a disk whose bitmaps have been cleared. -/
def blankView (disk : Disk) : View :=
  { (Fs.opened disk Bytes.zero).view with
    boot := newSuperBlock.slice 0 4096
    ibit := fun _ => false
    dbit := fun _ => false }

theorem bit_zero : bit id Bytes.zero = fun _ => false := by
  funext i
  unfold bit
  exact Nat.zero_testBit _

theorem slice_zero {o n : ℕ} : Bytes.zero.slice o n = Bytes.zero := by
  funext k
  unfold Bytes.slice
  split <;> rfl

/-- The superblock and the bitmaps are written. -/
theorem blank_view :
    Fs.view { Fs.opened disk newSuperBlock with
      disk := bioWrite (bioWrite (bioWrite disk 0 newSuperBlock) 1 Bytes.zero) 2 Bytes.zero } =
      blankView disk := by
  have hboot := boot_view (Fs.opened disk newSuperBlock) newSuperBlock
  have hibit := @ibit_view (Fs.opened (bioWrite disk 0 newSuperBlock) newSuperBlock) _ slice_zero
  have hdbit := @dbit_view (Fs.opened (bioWrite (bioWrite disk 0 newSuperBlock) 1 Bytes.zero)
    newSuperBlock) _ slice_zero
  rw [bit_zero] at hibit hdbit
  refine hdbit.trans ?_
  refine (congrArg (fun v : View => { v with dbit := fun _ => false }) hibit).trans ?_
  exact congrArg (fun v : View => { v with ibit := fun _ => false, dbit := fun _ => false }) hboot

/-- The root alone is in order. -/
theorem inv_root {v : View} {k : ℕ} (hbit : v.ibit 0 = true) (hx : NewDir (v.slot 0) 0 k)
    (hk : k < 16384) (hdbit : v.dbit k = true) (hok : TableOk (v.blk k))
    (hempty : ∀ j, 2 ≤ j → j < 19 → validAt (v.blk k) j = false) : Inv v {0} := by
  have htable : v.table 0 = v.blk k := by
    unfold View.table
    rw [hx.ptr, View.block_add]
  have hchildren : ∀ o, v.children {0} o = none := by
    intro ⟨i, j⟩
    refine if_neg fun hh => ?_
    obtain rfl := Finset.mem_singleton.1 hh.1
    rw [htable, hempty j hh.2.2.1 hh.2.2.2.1] at hh
    exact absurd hh.2.2.2.2 (by decide)
  have hown : ∀ o p, v.own {0} o = some p → o = (0, .direct 0) ∧ p = 67 + k := by
    intro ⟨i, r⟩ p ho
    unfold View.own at ho
    rw [Option.ite_none_right_eq_some, Finset.mem_singleton] at ho
    obtain ⟨rfl, hr⟩ := ho
    rw [hx.names, Option.ite_none_right_eq_some, Option.some.injEq] at hr
    exact ⟨Prod.ext rfl hr.1, hr.2.symm⟩
  refine ⟨⟨Finset.mem_singleton_self 0, hx.type⟩, fun i hi => ?_, ⟨fun hi hj => ?_, fun hi => ?_⟩,
    ⟨fun hi => ?_, fun hi => ?_⟩⟩
  · obtain rfl := Finset.mem_singleton.1 hi
    exact Inv.tracked_newDir (by decide) hbit hx rfl hok
  · rw [(hown _ _ hi).1, (hown _ _ hj).1]
  · exact ⟨k, hk, (hown _ _ hi).2, hdbit⟩
  · rw [hchildren] at hi
    cases hi
  · rw [hchildren] at hi
    cases hi

/-- **`rufs_mkfs`** makes a file system whose only inode is the root. -/
theorem rufsMkfs_spec : ∃ fs, rufsMkfs env disk = (0, fs) ∧ fs.Mounted ∧
    View.Steps (blankView disk) fs.view ∧ Inv fs.view {0} ∧ SizeIs (fs.view.slot 0) 0 ∧
    (∀ j, 2 ≤ j → j < 19 → validAt (fs.view.table 0) j = false) ∧
    Linked (fs.view.table 0) 0 0 ∧ StatIs (fs.view.slot 0) (sIfdir ||| 0o755) 2 := by
  have hview₀ := @blank_view disk
  unfold rufsMkfs
  dsimp only [Fs.opened] at hview₀ ⊢
  rw [@super_iBitmapBlk ⟨_, newSuperBlock, 0, 0, 0, 0⟩ rfl,
    @super_dBitmapBlk ⟨_, newSuperBlock, 0, 0, 0, 0⟩ rfl]
  generalize hfs : Fs.mk _ newSuperBlock 0 0 0 0 = fs₀ at hview₀ ⊢
  have hm₀ : fs₀.Mounted := hfs ▸ rfl
  have hfree₀ : fs₀.view.ibit 0 = false := by
    rw [hview₀]
    rfl
  obtain ⟨i, hi, fs₁, ⟨-, hfirst⟩, hget, hm₁, hview₁⟩ | ⟨-, hall⟩ := getAvailIno_cases hm₀
  swap
  · exact absurd (hall 0 (by decide)) (by simp [hfree₀])
  obtain rfl : i = 0 := by
    by_contra hne
    exact absurd (hfirst 0 (by omega)) (by simp [hfree₀])
  rw [hget]
  dsimp only
  rw [if_neg (by decide)]
  have hdfree₁ : fs₁.view.dbit 0 = false := by
    rw [hview₁, hview₀]
    rfl
  obtain ⟨k, hk, fs₂, hdfree, hget₂, hm₂, hview₂⟩ | ⟨-, hall⟩ := getAvailBlkno_cases hm₁
  swap
  · exact absurd (hall 0 (by decide)) (by simp [hdfree₁])
  rw [hget₂]
  dsimp only
  rw [if_neg (by omega), Int.toNat_natCast]
  have hnew := @newDir env Bytes.zero 0 k (env.time 3) (by decide) hk
  have hview₃ := @writei_view fs₂ 0 (env.time 3)
      (setDirect (initInode env Bytes.zero 0 1) 0 (67 + k))
    hm₂ (by decide)
  have hm₃ := @writei_mounted fs₂ 0 (env.time 3)
    (setDirect (initInode env Bytes.zero 0 1) 0 (67 + k)) hm₂
  have hzero := @newDir_size env Bytes.zero 0 k (env.time 3)
  have hstat := @newDir_stat env Bytes.zero 0 k (env.time 3)
  generalize stored _ (setDirect _ _ _) = y at hnew hzero hstat hview₃
  generalize writei fs₂ _ 0 (setDirect _ _ _) = fs₃ at hview₃ hm₃ ⊢
  obtain ⟨hok, hempty⟩ := @newTable Bytes.zero 0 0
  have hlinked := @Linked.new Bytes.zero 0 0 (by decide) (by decide)
  generalize initDirentTable Bytes.zero 0 0 maxDirEntries = table at hok hempty hlinked ⊢
  have hview₄ := @bioWrite_view fs₃ k table _ hk rfl
  generalize table.slice 0 4096 = t at hok hempty hlinked hview₄
  rw [hview₃, hview₂] at hview₄
  have hblk : ((((fs₁.view.takeBlock k).setSlot 0 y).setBlk k t).blk k) = t :=
    Function.update_self ..
  have hroot : (((fs₁.view.takeBlock k).setSlot 0 y).setBlk k t).slot 0 = y := by
    rw [View.setBlk_slot, View.setSlot_slot, Function.update_self]
  have htable : ((((fs₁.view.takeBlock k).setSlot 0 y).setBlk k t).table 0) = t := by
    unfold View.table
    rw [hroot, hnew.ptr, View.block_add, hblk]
  refine ⟨_, rfl, hm₃.setDisk _, ?_, ?_, ?_, ?_, ?_, ?_⟩ <;> rw [hview₄]
  · have htaken : (fs₁.view.takeBlock k).dbit k = true := Function.update_self ..
    have hsteps : View.Steps (blankView disk) fs₁.view := by
      rw [hview₁, ← hview₀]
      exact .single (.takeInode (by decide) hfree₀)
    exact ((hsteps.tail (.takeBlock hk hdfree)).tail (.setSlot (by decide))).tail
      (.setBlk hk htaken)
  · refine @inv_root _ k ?_ ?_ hk (Function.update_self ..) (hblk.symm ▸ hok) (hblk.symm ▸ hempty)
    · rw [View.setBlk_ibit, View.setSlot_ibit, View.takeBlock_ibit, hview₁, View.takeInode_ibit,
        Function.update_self]
    · rw [hroot]
      exact hnew
  · rw [hroot]
    exact hzero
  · rw [htable]
    exact hempty
  · rw [htable]
    exact hlinked
  · rw [hroot]
    exact hstat

/-! ## Calls -/

/-- The calls that change the disk. -/
inductive Op
  | mkdir (path : CString)
  | create (path : CString) (mode : ℕ)
  | rmdir (path : CString)
  | unlink (path : CString)
  | read (path : CString) (buffer : Bytes) (size offset : ℕ)
  | write (path : CString) (buffer : Bytes) (size offset : ℕ)

/-- The result of a call, and the state after it. -/
def Op.call (env : Env) (fs : Fs) : Op → Option (ℤ × Fs)
  | .mkdir path => rufsMkdir env fs path
  | .create path mode => rufsCreate env fs path mode
  | .rmdir path => rufsRmdir env fs path
  | .unlink path => rufsUnlink env fs path
  | .read path buffer size offset =>
    (rufsRead env fs path buffer size offset).map fun r => (r.1, r.2.2)
  | .write path buffer size offset => rufsWrite env fs path buffer size offset

/-- The paths that FUSE passes, with names that fit into an entry. -/
structure Passed (fs : Fs) (path : CString) : Prop where
  ok : PathOk path
  dirs : PrefixDirs fs path
  short : ∀ c ∈ components path, c.length ≤ 207

instance {path : CString} : Decidable (Passed fs path) :=
  decidable_of_iff
    (PathOk path ∧ PrefixDirs fs path ∧ ∀ c ∈ components path, c.length ≤ 207)
    ⟨fun h => ⟨h.1, h.2.1, h.2.2⟩, fun h => ⟨h.ok, h.dirs, h.short⟩⟩

/-- The path is that of a regular file, when it is found. -/
def Regular (fs : Fs) (path : CString) : Prop :=
  ∀ x, getNodeByPath fs path 0 = some (some x) → get x .type = 0

instance {path : CString} : Decidable (Regular fs path) :=
  match h : getNodeByPath fs path 0 with
  | some (some x) => decidable_of_iff (get x .type = 0)
      ⟨fun hx y hy => by
        rw [h, Option.some.injEq, Option.some.injEq] at hy
        exact hy ▸ hx, fun hx => hx x h⟩
  | some none | none => .isTrue fun y hy => by
      rw [h] at hy
      cases hy

/-- The number of bytes in the blocks that an inode has pointers for. -/
def fileCapacity : ℕ := (16 + 8 * (blockSize / 4)) * blockSize

/-- The calls that FUSE makes, within the limits: the names have at most 207 bytes, the root is not
removed, only files are read and written, and no further than an inode has pointers for. -/
def Op.Allowed (fs : Fs) : Op → Prop
  | .mkdir path | .create path _ => Passed fs path
  | .rmdir path | .unlink path => Passed fs path ∧ components path ≠ []
  | .read path _ size offset | .write path _ size offset =>
    Passed fs path ∧ Regular fs path ∧ offset + size ≤ fileCapacity

instance {op : Op} : Decidable (op.Allowed fs) :=
  match op with
  | .mkdir path | .create path _ => inferInstanceAs (Decidable (Passed fs path))
  | .rmdir path | .unlink path =>
    inferInstanceAs (Decidable (Passed fs path ∧ components path ≠ []))
  | .read path _ size offset | .write path _ size offset =>
    inferInstanceAs (Decidable (Passed fs path ∧ Regular fs path ∧ offset + size ≤ fileCapacity))

theorem fileCapacity_eq : fileCapacity = 8208 * 4096 := rfl

theorem Passed.basename_length {path : CString} (h : Passed fs path) :
    (basename path).length ≤ 207 := by
  rw [basename_eq h.ok.absolute]
  cases hlast : (components path).getLast? with
  | none => decide
  | some c => exact h.short c (List.mem_of_getLast? hlast)

variable {op : Op}

/-- **One call** returns, keeps the inodes in order, and changes the disk by allowed steps. -/
theorem call_spec (h : Inv fs.view T) (hm : fs.Mounted) (hop : op.Allowed fs) :
    ∃ r fs', op.call env fs = some (r, fs') ∧ fs'.Mounted ∧ View.Steps fs.view fs'.view ∧
      ∃ T', Inv fs'.view T' := by
  cases op with
  | mkdir path =>
    obtain ⟨r, fs', heq, hm', hsteps, ⟨-, hinv, -⟩ | ⟨-, i, q, -, hmade, -⟩⟩ :=
      @rufsMkdir_spec fs env T path h hm hop.ok hop.dirs hop.basename_length
    · exact ⟨r, fs', heq, hm', hsteps, T, hinv⟩
    · exact ⟨r, fs', heq, hm', hsteps, _, hmade.inv⟩
  | create path mode =>
    obtain ⟨r, fs', heq, hm', hsteps, ⟨-, hinv, -⟩ | ⟨-, i, q, -, hmade, -⟩⟩ :=
      @rufsCreate_spec fs env T mode path h hm hop.ok hop.dirs hop.basename_length
    · exact ⟨r, fs', heq, hm', hsteps, T, hinv⟩
    · exact ⟨r, fs', heq, hm', hsteps, _, hmade.inv⟩
  | rmdir path =>
    obtain ⟨hp, hne⟩ := hop
    obtain ⟨r, -, heq, -⟩ | ⟨fs', i, q, heq, hm', hsteps, -, -, hgone, -⟩ :=
      @rufsRmdir_spec fs env T path h hm hp.ok hp.dirs hne
    · exact ⟨r, fs, heq, hm, .refl, T, h⟩
    · exact ⟨0, fs', heq, hm', hsteps, _, hgone.inv⟩
  | unlink path =>
    obtain ⟨hp, hne⟩ := hop
    obtain ⟨r, -, heq, -⟩ | ⟨fs', i, q, heq, hm', hsteps, -, -, hgone, -⟩ :=
      @rufsUnlink_spec fs env T path h hm hp.ok hp.dirs hne
    · exact ⟨r, fs, heq, hm, .refl, T, h⟩
    · exact ⟨0, fs', heq, hm', hsteps, _, hgone.inv⟩
  | read path buffer size offset =>
    obtain ⟨hp, -, -⟩ := hop
    obtain ⟨r, buf, fs', heq, hm', hsteps, hinv, -⟩ :=
      @rufsRead_spec fs env T buffer size offset path h hm hp.ok hp.dirs
    exact ⟨r, fs', by rw [Op.call, heq]; rfl, hm', hsteps, T, hinv⟩
  | write path buffer size offset =>
    obtain ⟨hp, hfile, hcap⟩ := hop
    rw [fileCapacity_eq] at hcap
    obtain ⟨r, fs', heq, hm', hsteps, rfl | ⟨i, -, hwrote, -⟩⟩ :=
      @rufsWrite_spec fs env T buffer size offset path h hm hp.ok hp.dirs hfile hcap
    · exact ⟨r, _, heq, hm', hsteps, T, h⟩
    · exact ⟨r, fs', heq, hm', hsteps, T, hwrote.inv⟩

/-! ## The states reached -/

/-- A call takes the state to the next. -/
def Call (fs : Fs) (e : Env × Op) (fs' : Fs) : Prop := ∃ r, e.2.call e.1 fs = some (r, fs')

/-- The state is reached from a new file system by calls that FUSE makes. -/
def Reached (disk : Disk) (fs : Fs) : Prop :=
  ∃ env es, Run (Guarded (fun fs e => e.2.Allowed fs) Call) (rufsMkfs env disk).2 es fs

/-- **Every run** keeps the inodes in order, and changes the disk by allowed steps. -/
theorem Reached.spec (h : Reached disk fs) :
    fs.Mounted ∧ View.Steps (blankView disk) fs.view ∧ ∃ T, Inv fs.view T := by
  obtain ⟨env, es, hrun⟩ := h
  refine Run.invariant (I := fun fs : Fs =>
    fs.Mounted ∧ View.Steps (blankView disk) fs.view ∧ ∃ T, Inv fs.view T) ?_ ?_ hrun
  · obtain ⟨fs₀, heq, hm, hsteps, hinv, -⟩ := @rufsMkfs_spec env disk
    rw [heq]
    exact ⟨hm, hsteps, _, hinv⟩
  · intro fs e fs' ⟨hm, hsteps, T, hinv⟩ ⟨hop, r, hcall⟩
    obtain ⟨r', fs'', heq, hm', hsteps', hinv'⟩ := @call_spec fs e.1 T e.2 hinv hm hop
    rw [hcall, Option.some.injEq, Prod.mk.injEq] at heq
    obtain ⟨-, rfl⟩ := heq
    exact ⟨hm', hsteps.trans hsteps', hinv'⟩

/-- The state after some calls, when FUSE makes them. -/
def runs (fs : Fs) : List (Env × Op) → Option Fs
  | [] => some fs
  | (env, op) :: es =>
    if op.Allowed fs then (op.call env fs).bind fun r => runs r.2 es else none

theorem run_of_runs {fs fs' : Fs} {es : List (Env × Op)} (h : runs fs es = some fs') :
    Run (Guarded (fun fs e => e.2.Allowed fs) Call) fs es fs' := by
  induction es generalizing fs with
  | nil =>
    cases h
    exact .nil
  | cons e es ih =>
    rw [runs] at h
    split at h
    next hop =>
      obtain ⟨⟨r, fs''⟩, hcall, h⟩ := Option.bind_eq_some_iff.1 h
      exact (Run.single ⟨hop, r, hcall⟩).append (ih h)
    next => cases h

theorem reached_of_runs {es : List (Env × Op)} (h : runs (rufsMkfs env disk).2 es = some fs) :
    Reached disk fs := ⟨env, es, run_of_runs h⟩

/-- A property of the state that a computed run reaches. -/
theorem reached_of_any (disk : Disk) (env : Env) (es : List (Env × Op)) (p : Fs → Bool)
    (h : (runs (rufsMkfs env disk).2 es).any p = true) : ∃ fs, Reached disk fs ∧ p fs = true := by
  cases hruns : runs (rufsMkfs env disk).2 es with
  | none =>
    rw [hruns] at h
    cases h
  | some fs =>
    rw [hruns] at h
    exact ⟨fs, reached_of_runs hruns, h⟩

/-- A clock that stands still, for runs on fixed inputs. -/
def still : Env := ⟨fun _ => 0, 0, 0⟩

/-- A reached state goes on to the next. -/
theorem Reached.call (h : Reached disk fs) {fs' : Fs} {r : ℤ} (hop : op.Allowed fs)
    (hcall : op.call env fs = some (r, fs')) : Reached disk fs' := by
  obtain ⟨env', es, hrun⟩ := h
  exact ⟨env', _, hrun.snoc (e := (env, op)) ⟨hop, r, hcall⟩⟩

/-! ## Writing to one file -/

/-- A request to write. -/
structure WriteCall where
  env : Env
  buffer : Bytes
  size : ℕ
  offset : ℕ

/-- The call that FUSE makes for it. -/
def WriteCall.toOp (w : WriteCall) (path : CString) : Op := .write path w.buffer w.size w.offset

/-- A write to the file of a path that returns its full size. -/
def FullWrite (path : CString) (fs : Fs) (w : WriteCall) (fs' : Fs) : Prop :=
  (w.toOp path).Allowed fs ∧
    rufsWrite w.env fs path w.buffer w.size w.offset = some ((w.size : ℤ), fs')

/-- The state after some writes, when all return their full size. -/
def fullWrites (path : CString) (fs : Fs) : List WriteCall → Option Fs
  | [] => some fs
  | w :: ws =>
    if (w.toOp path).Allowed fs then
      (rufsWrite w.env fs path w.buffer w.size w.offset).bind fun r =>
        if r.1 = w.size then fullWrites path r.2 ws else none
    else none

variable {path : CString} {ws : List WriteCall} {fs' : Fs}

theorem run_of_fullWrites (h : fullWrites path fs ws = some fs') :
    Run (FullWrite path) fs ws fs' := by
  induction ws generalizing fs with
  | nil =>
    cases h
    exact .nil
  | cons w ws ih =>
    rw [fullWrites] at h
    split at h
    next hop =>
      obtain ⟨⟨r, fs''⟩, hcall, h⟩ := Option.bind_eq_some_iff.1 h
      dsimp only at h
      split at h
      next hr => exact (@Run.single _ _ (FullWrite path) _ _ _ ⟨hop, hr ▸ hcall⟩).append (ih h)
      next => cases h
    next => cases h

/-- The writes to one file are a part of a run. -/
theorem Reached.fullWrites (h : Reached disk fs) (hrun : Run (FullWrite path) fs ws fs') :
    Reached disk fs' :=
  hrun.invariant h fun _ _ _ hI hw => hI.call hw.1 hw.2

end UserOS.Rufs
