import UserOS.Lib.PathName
import UserOS.Rufs.Inode

/-!
# The file system

The helpers of `rufs.c`: inodes and data blocks are taken from two bitmaps and given back, inodes
are read and written through their block, and a directory is one block that holds a table of
entries. The in-memory copies of the bitmaps are read anew before each use and are not part of the
state.
-/

namespace UserOS.Rufs

open Lib

/-! ## State -/

/-- The disk, the in-memory superblock and the usage counters. -/
structure Fs where
  disk : Disk
  superBlock : Bytes
  totalInodesUsed : BitVec 32
  totalInodesCleared : BitVec 32
  dataBlocksUsed : BitVec 32
  dataBlocksCleared : BitVec 32

/-- `MAX_INUM`. -/
def maxInum : ℕ := 1024

/-- `MAX_DNUM`. -/
def maxDnum : ℕ := 16384

/-- `inodes_per_block`. -/
def inodesPerBlock : ℕ := blockSize / inodeSize

/-- The fields of `struct superblock` in use. -/
def Field.iBitmapBlk : Field := ⟨8, 4⟩
def Field.dBitmapBlk : Field := ⟨12, 4⟩
def Field.iStartBlk : Field := ⟨16, 4⟩
def Field.dStartBlk : Field := ⟨20, 4⟩

/-- A field of `super_block`. -/
def Fs.super (fs : Fs) (f : Field) : ℤ := get fs.superBlock f

/-! ## Inodes -/

/-- Where `ino` lies in its block. -/
def inodeOffset (ino : ℕ) : ℕ := ino % inodesPerBlock * inodeSize

/-- `readi`. -/
def readi (fs : Fs) (ino : ℕ) : Inode :=
  (bioRead fs.disk (fs.super .iStartBlk + ino / inodesPerBlock)).slice (inodeOffset ino) inodeSize

/-- `writei`; `now` is what `time` returns. -/
def writei (fs : Fs) (now : ℕ) (ino : ℕ) (inode : Inode) : Fs :=
  if ino > maxInum then fs else
    let blockNo := fs.super .iStartBlk + ino / inodesPerBlock
    let inode := set inode .stCtime now
    let buf := (bioRead fs.disk blockNo).copy (inodeOffset ino) inode 0 inodeSize
    { fs with disk := bioWrite fs.disk blockNo buf }

/-- `clear_inode`. -/
def clearInode (fs : Fs) (now : ℕ) (inoNum : ℕ) : Fs :=
  let fs := writei fs now inoNum (clearedInode (readi fs inoNum))
  let inodeBitmap := unsetBitmap (bioRead fs.disk (fs.super .iBitmapBlk)) inoNum
  { fs with
    disk := bioWrite fs.disk (fs.super .iBitmapBlk) inodeBitmap
    totalInodesCleared := fs.totalInodesCleared + 1 }

/-- `get_avail_ino`. -/
def getAvailIno (fs : Fs) : ℤ × Fs :=
  let inodeBitmap := bioRead fs.disk (fs.super .iBitmapBlk)
  match firstFrom (fun i => !getBitmap inodeBitmap i) maxInum 0 with
  | some i => (i, { fs with
      disk := bioWrite fs.disk (fs.super .iBitmapBlk) (setBitmap inodeBitmap i)
      totalInodesUsed := fs.totalInodesUsed + 1 })
  | none => (-1, fs)

/-! ## Data blocks -/

/-- `clear_data_block`. -/
def clearDataBlock (fs : Fs) (blkNo : ℤ) : Fs :=
  let disk := bioWrite fs.disk blkNo Bytes.zero
  let dataBitmap := unsetBitmap (bioRead disk (fs.super .dBitmapBlk))
    (blkNo - fs.super .dStartBlk).toNat
  { fs with
    disk := bioWrite disk (fs.super .dBitmapBlk) dataBitmap
    dataBlocksCleared := fs.dataBlocksCleared + 1 }

/-- `get_avail_blkno`. -/
def getAvailBlkno (fs : Fs) : ℤ × Fs :=
  let dataBitmap := bioRead fs.disk (fs.super .dBitmapBlk)
  match firstFrom (fun i => !getBitmap dataBitmap i) maxDnum 0 with
  | some i => (fs.super .dStartBlk + i, { fs with
      disk := bioWrite fs.disk (fs.super .dBitmapBlk) (setBitmap dataBitmap i)
      dataBlocksUsed := fs.dataBlocksUsed + 1 })
  | none => (-1, fs)

/-- `init_indirect_blk`. -/
def initIndirectBlk (indBlk : Bytes) : Bytes := resetPtrs indBlk 0 (blockSize / 4)

/-! ## Directory tables -/

/-- `sizeof(struct dirent)`. -/
def direntSize : ℕ := 214

/-- `max_dir_entries`. -/
def maxDirEntries : ℕ := blockSize / direntSize

/-- `table[i].ino`. -/
def entIno (i : ℕ) : Field := ⟨direntSize * i, 2⟩

/-- `table[i].valid`. -/
def entValid (i : ℕ) : Field := ⟨direntSize * i + 2, 2⟩

/-- Where `table[i].name` starts. -/
def entName (i : ℕ) : ℕ := direntSize * i + 4

/-- `table[i].len`. -/
def entLen (i : ℕ) : Field := ⟨direntSize * i + 212, 2⟩

/-- Store an entry. -/
def setEntry (table : Bytes) (i : ℕ) (name : CString) (ino len valid : ℕ) : Bytes :=
  set (set (set (table.strcpy (entName i) name) (entIno i) ino) (entLen i) len) (entValid i) valid

/-- `"."`. -/
def dot : CString := [46]

/-- `".."`. -/
def dotDot : CString := [46, 46]

/-- `init_dirent_table`, which stores the first `n` entries. -/
def initDirentTable (table : Bytes) (currIno parIno : ℕ) : ℕ → Bytes
  | 0 => table
  | n + 1 =>
    let table := initDirentTable table currIno parIno n
    if n = 0 then setEntry table n dotDot parIno 2 1
    else if n = 1 then setEntry table n dot currIno 1 1
    else setEntry table n [] 0 0 0

/-- `is_directory_empty`. -/
def isDirectoryEmpty (table : Bytes) : Bool :=
  (firstFrom (fun i => get table (entValid i) != 0) (maxDirEntries - 2) 2).isNone

/-- `dir_find`: the inode number of the first entry with the name. -/
def dirFind (fs : Fs) (ino : ℕ) (fname : CString) : Option ℕ :=
  let table := bioRead fs.disk (direct (readi fs ino) 0)
  (firstFrom (fun i => table.strEq (entName i) fname) maxDirEntries 0).map fun i =>
    get table (entIno i)

/-- `ENOENT`, `EEXIST`, `ENOSPC` and `ENOTEMPTY`. -/
def enoent : ℤ := 2
def eexist : ℤ := 17
def enospc : ℤ := 28
def enotempty : ℤ := 39

/-- How `dir_add` and `dir_remove` store the inode of the directory, with its new size. -/
def writeDirInode (env : Env) (fs : Fs) (dirInode : Inode) (size : ℕ) : Fs :=
  let dirInode := set dirInode .size size
  let dirInode := set dirInode .stSize (get dirInode .size)
  let dirInode := set (set dirInode .stMtime (env.time 10)) .stAtime (env.time 11)
  writei fs (env.time 12) (get dirInode .ino) dirInode

/-- `dir_add`. -/
def dirAdd (env : Env) (fs : Fs) (dirInode : Inode) (fIno : ℕ) (fname : CString) : ℤ × Fs :=
  let dirBlk := direct dirInode 0
  if (dirFind fs (get dirInode .ino) fname).isSome then (-eexist, fs) else
    let table := bioRead fs.disk dirBlk
    match firstFrom (fun i => get table (entValid i) == 0) maxDirEntries 0 with
    | some i =>
      let table := setEntry table i fname fIno fname.length 1
      let fs := { fs with disk := bioWrite fs.disk dirBlk table }
      (0, writeDirInode env fs dirInode (get dirInode .size + direntSize))
    | none => (-enospc, fs)

/-- `dir_remove`. The size is a `uint32_t`. -/
def dirRemove (env : Env) (fs : Fs) (dirInode : Inode) (fname : CString) : ℤ × Fs :=
  let dirBlk := direct dirInode 0
  let table := bioRead fs.disk dirBlk
  match firstFrom (fun i => table.strEq (entName i) fname) maxDirEntries 0 with
  | some i =>
    let fs := { fs with disk := bioWrite fs.disk dirBlk (setEntry table i [] 0 0 0) }
    (0, writeDirInode env fs dirInode (get dirInode .size + (2 ^ 32 - direntSize)))
  | none => (-1, fs)

/-! ## Paths -/

/-- The first loop of `get_node_by_path`, with at most `fuel` rounds: the number of times that
`dirname` is taken before `basename` is `"/"`. -/
def numLevels : ℕ → CString → Option ℕ
  | 0, _ => none
  | fuel + 1, path =>
    if basename path = [slash] then some 0 else (numLevels fuel (dirname path)).map (· + 1)

/-- The second loop: the names from the last on. -/
def levelNames : ℕ → CString → List CString
  | 0, _ => []
  | n + 1, path => basename path :: levelNames n (dirname path)

/-- The third loop: look the names up, from the directory `ino` on. -/
def walkPath (fs : Fs) : ℕ → List CString → Option ℕ
  | ino, [] => some ino
  | ino, name :: names => (dirFind fs ino name).bind fun ino => walkPath fs ino names

/-- The number of the inode that `get_node_by_path` reads: `none` when it does not return, and
`some none` when it returns -1. -/
def pathIno (fs : Fs) (path : CString) (ino : ℕ) : Option (Option ℕ) :=
  (numLevels (path.length + 1) path).map fun n => walkPath fs ino (levelNames n path).reverse

/-- `get_node_by_path`. -/
def getNodeByPath (fs : Fs) (path : CString) (ino : ℕ) : Option (Option Inode) :=
  (pathIno fs path ino).map fun r => r.map (readi fs)

end UserOS.Rufs
