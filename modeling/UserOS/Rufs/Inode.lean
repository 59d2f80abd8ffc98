import UserOS.Rufs.Disk

/-!
# Inodes

`struct inode` as it lies in memory: 256 bytes, with 16 direct and 8 indirect block pointers before
the `struct stat` that ends it. The loops that reset the pointers of an inode run to 16 in both
arrays, so that the second goes on in the `struct stat`.

* `resetPtrs_getInt`: what the loops store.
* `initInode_direct`, `initInode_indirect`: a fresh inode has no blocks.
-/

namespace UserOS.Rufs

open Lib

/-! ## Layout -/

/-- The bytes of a `struct inode`. -/
abbrev Inode := Bytes

/-- `sizeof(struct inode)`. -/
def inodeSize : ℕ := 256

/-- An unsigned field: its offset and its number of bytes. -/
structure Field where
  off : ℕ
  width : ℕ
  deriving DecidableEq, Repr

namespace Field

def ino : Field := ⟨0, 2⟩
def valid : Field := ⟨2, 2⟩
def size : Field := ⟨4, 4⟩
def type : Field := ⟨8, 4⟩
def link : Field := ⟨12, 4⟩

-- The fields of `vstat`, which starts at offset 112.
def stIno : Field := ⟨120, 8⟩
def stNlink : Field := ⟨128, 8⟩
def stMode : Field := ⟨136, 4⟩
def stUid : Field := ⟨140, 4⟩
def stGid : Field := ⟨144, 4⟩
def stSize : Field := ⟨160, 8⟩
def stAtime : Field := ⟨184, 8⟩
def stMtime : Field := ⟨200, 8⟩
def stCtime : Field := ⟨216, 8⟩

/-- The two fields share no byte. -/
def Disjoint (f g : Field) : Prop := f.off + f.width ≤ g.off ∨ g.off + g.width ≤ f.off

instance {f g : Field} : Decidable (f.Disjoint g) := inferInstanceAs (Decidable (_ ∨ _))

end Field

/-- The value of a field. -/
def get (x : Bytes) (f : Field) : ℕ := x.getNat f.off f.width

/-- Store a field. -/
def set (x : Bytes) (f : Field) (v : ℕ) : Bytes := x.setNat f.off f.width v

/-- `direct_ptr[k]`. -/
def direct (x : Inode) (k : ℕ) : ℤ := x.getInt (16 + 4 * k)

/-- `direct_ptr[k] = p`. -/
def setDirect (x : Inode) (k : ℕ) (p : ℤ) : Inode := x.setInt (16 + 4 * k) p

/-- `indirect_ptr[k]`, also past the end of the array. -/
def indirect (x : Inode) (k : ℕ) : ℤ := x.getInt (80 + 4 * k)

/-- `indirect_ptr[k] = p`. -/
def setIndirect (x : Inode) (k : ℕ) (p : ℤ) : Inode := x.setInt (80 + 4 * k) p

/-- The loop that stores -1 into the first `n` words from `off` on. -/
def resetPtrs (x : Bytes) (off : ℕ) : ℕ → Bytes
  | 0 => x
  | n + 1 => (resetPtrs x off n).setInt (off + 4 * n) (-1)

/-! ## The inodes the program makes -/

/-- What the calls of `time`, `getuid` and `getgid` return during an operation. -/
structure Env where
  time : ℕ → ℕ
  uid : ℕ
  gid : ℕ

/-- `__S_IFDIR`. -/
def sIfdir : ℕ := 0o040000

/-- `__S_IFREG`. -/
def sIfreg : ℕ := 0o100000

/-- `init_inode`. -/
def initInode (env : Env) (x : Inode) (ino type : ℕ) : Inode :=
  let x := set (set (set (set x .ino ino) .size 0) .type type) .valid 1
  let x := resetPtrs (resetPtrs x 16 16) 80 16
  let x := set (set (set x .stAtime (env.time 0)) .stMtime (env.time 1)) .stCtime (env.time 2)
  let x := set (set (set x .stIno ino) .stUid env.uid) .stGid env.gid
  let x := if type = 1 then set (set x .stMode (sIfdir ||| 0o755)) .link 2
    else set (set x .stMode (sIfreg ||| 0o644)) .link 1
  set (set x .stSize (get x .size)) .stNlink (get x .link)

/-- What `clear_inode` stores into an inode. -/
def clearedInode (x : Inode) : Inode :=
  let x := set (set (set (set (set x .ino 0) .link 0) .size 0) .type 0) .valid 0
  resetPtrs (resetPtrs x 16 16) 80 16

variable {x : Bytes} {f g : Field} {off n k v : ℕ} {p : ℤ}

/-! ## Fields -/

@[simp] theorem get_set_self : get (set x f v) f = v % 256 ^ f.width :=
  Bytes.getNat_setNat_self ..

theorem get_set_of_disjoint (h : f.Disjoint g) : get (set x g v) f = get x f :=
  Bytes.getNat_setNat_of_disjoint h

theorem resetPtrs_of_outside {k : ℕ} (h : k < off ∨ off + 4 * n ≤ k) :
    resetPtrs x off n k = x k := by
  induction n with
  | zero => rfl
  | succ n ih =>
    rw [resetPtrs, Bytes.setInt, Bytes.setNat_of_outside (by omega), ih (by omega)]

theorem get_resetPtrs (h : f.off + f.width ≤ off ∨ off + 4 * n ≤ f.off) :
    get (resetPtrs x off n) f = get x f :=
  Bytes.getNat_congr fun k hk => resetPtrs_of_outside (by omega)

theorem getInt_resetPtrs (h : k + 4 ≤ off ∨ off + 4 * n ≤ k) :
    (resetPtrs x off n).getInt k = x.getInt k :=
  Bytes.getInt_congr fun j hj => resetPtrs_of_outside (by omega)

/-- The words stored are null pointers. -/
theorem resetPtrs_getInt (h : k < n) : (resetPtrs x off n).getInt (off + 4 * k) = -1 := by
  induction n with
  | zero => exact absurd h (Nat.not_lt_zero k)
  | succ n ih =>
    rw [resetPtrs]
    by_cases hk : k = n
    · subst hk
      exact Bytes.getInt_setInt_self (by decide) (by decide)
    · rw [Bytes.getInt_setInt_of_disjoint (by omega)]
      exact ih (by omega)

/-- The bytes of the block pointers, and of the word after them. -/
def Field.ptrs : Field := ⟨16, 100⟩

theorem set_ptrs (h : f.Disjoint .ptrs) (hk : 16 ≤ k) (hk' : k < 116) : set x f v k = x k :=
  Bytes.setNat_of_outside (by
    simp only [Field.Disjoint, Field.ptrs] at h
    omega)

theorem direct_congr {y : Inode} (h : ∀ j, 16 ≤ j → j < 116 → x j = y j) (hk : k < 16) :
    direct x k = direct y k :=
  Bytes.getInt_congr fun j hj => h _ (by omega) (by omega)

theorem indirect_congr {y : Inode} (h : ∀ j, 16 ≤ j → j < 116 → x j = y j) (hk : k ≤ 8) :
    indirect x k = indirect y k :=
  Bytes.getInt_congr fun j hj => h _ (by omega) (by omega)

theorem direct_set (h : f.Disjoint .ptrs) (hk : k < 16) : direct (set x f v) k = direct x k :=
  direct_congr (fun _ => set_ptrs h) hk

theorem indirect_set (h : f.Disjoint .ptrs) (hk : k ≤ 8) :
    indirect (set x f v) k = indirect x k :=
  indirect_congr (fun _ => set_ptrs h) hk

/-! ## Fresh inodes -/

variable {env : Env} {ino type : ℕ}

/-- **A fresh inode has no direct blocks.** -/
theorem initInode_direct (h : k < 16) : direct (initInode env x ino type) k = -1 := by
  unfold initInode
  split <;> simp (disch := first | decide | assumption) only [direct_set] <;>
    exact (getInt_resetPtrs (by omega)).trans (resetPtrs_getInt h)

/-- **Nor indirect ones**, also in the word that follows the array. -/
theorem initInode_indirect (h : k ≤ 8) : indirect (initInode env x ino type) k = -1 := by
  unfold initInode
  split <;> simp (disch := first | decide | assumption) only [indirect_set] <;>
    exact resetPtrs_getInt (by omega)

theorem initInode_ino (h : ino < 65536) : get (initInode env x ino type) .ino = ino := by
  unfold initInode
  split <;> simp (disch := decide) only [get_set_of_disjoint, get_resetPtrs, get_set_self] <;>
    exact Nat.mod_eq_of_lt h

theorem initInode_type (h : type < 2 ^ 32) : get (initInode env x ino type) .type = type := by
  unfold initInode
  split <;> simp (disch := decide) only [get_set_of_disjoint, get_resetPtrs, get_set_self] <;>
    exact Nat.mod_eq_of_lt h

theorem initInode_size : get (initInode env x ino type) .size = 0 := by
  unfold initInode
  split <;> simp (disch := decide) only [get_set_of_disjoint, get_resetPtrs, get_set_self] <;> rfl

theorem initInode_stSize : get (initInode env x ino type) .stSize = 0 := by
  unfold initInode
  split <;> simp (disch := decide) only [get_set_of_disjoint, get_resetPtrs, get_set_self] <;> rfl

/-- What the inode says about the mode and the number of links. -/
structure StatIs (x : Inode) (mode nlink : ℕ) : Prop where
  mode : get x .stMode = mode
  nlink : get x .stNlink = nlink

theorem initInode_dir : StatIs (initInode env x ino 1) (sIfdir ||| 0o755) 2 := by
  unfold initInode
  dsimp only
  rw [if_pos rfl]
  constructor <;> simp (disch := decide) only [get_set_of_disjoint, get_set_self] <;> rfl

theorem initInode_nlink : get (initInode env x ino 0) .stNlink = 1 := by
  unfold initInode
  dsimp only
  rw [if_neg (by decide)]
  simp (disch := decide) only [get_set_self]
  rfl

end UserOS.Rufs
