import UserOS.Rufs.FileSystem

/-!
# The calls

`rufs_mkfs`, `rufs_init` and the operations that FUSE calls. An operation is `none` when it does not
return, else its result and the state after it. The results of `readi`, `writei` and the device are
not checked here, since they are negative for no inode or block that the bitmaps give out.
-/

namespace UserOS.Rufs

open Lib

/-! ## Mounting -/

/-- The number of inode blocks. -/
def inodeBlocks : ℕ := (maxInum * inodeSize + blockSize - 1) / blockSize

/-- The superblock that `rufs_mkfs` writes. -/
def newSuperBlock : Bytes :=
  set (set (set (set Bytes.zero .dBitmapBlk 2) .iBitmapBlk 1) .dStartBlk (3 + inodeBlocks))
    .iStartBlk 3

/-- The state of a process that has the disk open. -/
def Fs.opened (disk : Disk) (superBlock : Bytes) : Fs := ⟨disk, superBlock, 0, 0, 0, 0⟩

/-- `rufs_mkfs`. -/
def rufsMkfs (env : Env) (disk : Disk) : ℤ × Fs :=
  let fs := Fs.opened (bioWrite disk 0 newSuperBlock) newSuperBlock
  let fs := { fs with disk := bioWrite fs.disk (fs.super .iBitmapBlk) Bytes.zero }
  let fs := { fs with disk := bioWrite fs.disk (fs.super .dBitmapBlk) Bytes.zero }
  let (inodeNum, fs) := getAvailIno fs
  if inodeNum < 0 then (-1, fs) else
    let rootInode := initInode env Bytes.zero inodeNum.toNat 1
    let (dataBlockNum, fs) := getAvailBlkno fs
    if dataBlockNum < 0 then (-1, fs) else
      let fs := writei fs (env.time 3) inodeNum.toNat (setDirect rootInode 0 dataBlockNum)
      let table := initDirentTable Bytes.zero inodeNum.toNat inodeNum.toNat maxDirEntries
      (0, { fs with disk := bioWrite fs.disk dataBlockNum table })

/-- `rufs_init` in a new process, when `dev_open` succeeds. -/
def rufsInit (disk : Disk) : Fs := Fs.opened disk Bytes.zero

/-! ## Looking at files and directories -/

/-- The fields of a `struct stat` that `rufs_getattr` fills. -/
structure Stat where
  uid : ℕ
  gid : ℕ
  mode : ℕ
  nlink : ℕ
  size : ℕ
  atime : ℕ
  mtime : ℕ

/-- `rufs_getattr`: the result, and the caller's `struct stat`. -/
def rufsGetattr (env : Env) (fs : Fs) (path : CString) (stbuf : Stat) : Option (ℤ × Stat) :=
  (getNodeByPath fs path 0).map fun
    | none => (-enoent, stbuf)
    | some inode => (0, {
        uid := env.uid
        gid := env.gid
        mode := get inode .stMode
        nlink := get inode .stNlink
        size := get inode .stSize
        atime := get inode .stAtime
        mtime := get inode .stMtime })

/-- The loop of `rufs_readdir` over the entries of a table, from `i` on. The callback `filler` gets
a name and the caller's buffer, and ends the loop when its result is not 0. -/
def fillLoop {σ : Type} (filler : σ → CString → ℤ × σ) (table : Bytes) : ℕ → ℕ → σ → ℤ × σ
  | 0, _, buffer => (0, buffer)
  | n + 1, i, buffer =>
    if get table (entValid i) = 1 then
      let (r, buffer) := filler buffer (table.readStr (entName i) (blockSize - entName i))
      if r ≠ 0 then (-1, buffer) else fillLoop filler table n (i + 1) buffer
    else fillLoop filler table n (i + 1) buffer

/-- `rufs_readdir`: the result, and the caller's buffer. -/
def rufsReaddir {σ : Type} (fs : Fs) (path : CString) (filler : σ → CString → ℤ × σ)
    (buffer : σ) : Option (ℤ × σ) :=
  (getNodeByPath fs path 0).map fun
    | none => (-enoent, buffer)
    | some inode =>
      fillLoop filler (bioRead fs.disk (direct inode 0)) maxDirEntries 0 buffer

/-! ## Making and removing -/

/-- `rufs_mkdir`. -/
def rufsMkdir (env : Env) (fs : Fs) (path : CString) : Option (ℤ × Fs) :=
  (getNodeByPath fs (dirname path) 0).map fun
    | none => (-enoent, fs)
    | some parent =>
      let (availInode, fs) := getAvailIno fs
      if availInode ≤ 0 then (-enospc, fs) else
        let (dblock, fs) := getAvailBlkno fs
        if dblock ≤ 0 then (-enospc, fs) else
          let (status, fs) := dirAdd env fs parent availInode.toNat (basename path)
          if status ≠ 0 then (status, fs) else
            let inode := initInode env (readi fs availInode.toNat) availInode.toNat 1
            let inode := setDirect inode 0 dblock
            let table := initDirentTable (bioRead fs.disk dblock) availInode.toNat
              (get parent .ino) maxDirEntries
            let fs := { fs with disk := bioWrite fs.disk dblock table }
            (0, writei fs (env.time 3) availInode.toNat inode)

/-- `rufs_create`. -/
def rufsCreate (env : Env) (fs : Fs) (path : CString) (mode : ℕ) : Option (ℤ × Fs) :=
  (getNodeByPath fs (dirname path) 0).map fun
    | none => (-enoent, fs)
    | some parent =>
      let (availInode, fs) := getAvailIno fs
      if availInode ≤ 0 then (-enospc, fs) else
        let (status, fs) := dirAdd env fs parent availInode.toNat (basename path)
        if status ≠ 0 then (status, fs) else
          let inode := initInode env (readi fs availInode.toNat) availInode.toNat 0
          let inode := set inode .stMode (sIfreg ||| mode)
          (0, writei fs (env.time 3) availInode.toNat inode)

/-- The loop of `rufs_rmdir` and `rufs_unlink` over the direct pointers. -/
def clearDirect (fs : Fs) (inode : Inode) (n : ℕ) : Fs :=
  (List.range n).foldl (fun fs i =>
    if direct inode i ≠ -1 then clearDataBlock fs (direct inode i) else fs) fs

/-- How both go on: clear the inode and remove its entry from the parent directory. -/
def removeInode (env : Env) (fs : Fs) (inode : Inode) (path : CString) : Option (ℤ × Fs) :=
  let fs := clearInode fs (env.time 0) (get inode .ino)
  (getNodeByPath fs (dirname path) 0).map fun
    | none => (-enoent, fs)
    | some parent => dirRemove env fs parent (basename path)

/-- `rufs_rmdir`. The table whose emptiness is checked is never read from the disk. -/
def rufsRmdir (env : Env) (fs : Fs) (path : CString) : Option (ℤ × Fs) :=
  (getNodeByPath fs path 0).bind fun
    | none => some (-enoent, fs)
    | some inode =>
      if !isDirectoryEmpty Bytes.zero then some (-enotempty, fs)
      else removeInode env (clearDirect fs inode 16) inode path

/-- The loop of `rufs_unlink` over the words of an indirect block, from `j` on. -/
def clearEntries (blkPtrs : Bytes) : ℕ → ℕ → Fs → Fs
  | 0, _, fs => fs
  | n + 1, j, fs =>
    if blkPtrs.getInt (4 * j) = -1 then fs
    else clearEntries blkPtrs n (j + 1) (clearDataBlock fs (blkPtrs.getInt (4 * j)))

/-- The loop of `rufs_unlink` over the indirect pointers, from `i` on. -/
def clearIndirect (inode : Inode) : ℕ → ℕ → Fs → Fs
  | 0, _, fs => fs
  | n + 1, i, fs =>
    if indirect inode i = -1 then fs
    else
      let fs := clearEntries (bioRead fs.disk (indirect inode i)) (blockSize / 4) 0 fs
      clearIndirect inode n (i + 1) (clearDataBlock fs (indirect inode i))

/-- `rufs_unlink`. -/
def rufsUnlink (env : Env) (fs : Fs) (path : CString) : Option (ℤ × Fs) :=
  (getNodeByPath fs path 0).bind fun
    | none => some (-enoent, fs)
    | some inode => removeInode env (clearIndirect inode 16 0 (clearDirect fs inode 16)) inode path

/-! ## Reading and writing -/

/-- A `size_t` returned as an `int`. -/
def toReturn (n : ℕ) : ℤ := Bytes.toInt32 (n % 2 ^ 32)

/-- The number of bytes of one round: what is left of the request and of the block. -/
def chunk (sizeCopy offset : ℕ) : ℕ := min sizeCopy (blockSize - offset % blockSize)

/-- The block that `rufs_read` reads for the file block `startBlock`; -1 when there is none. -/
def readPtr (fs : Fs) (inode : Inode) (startBlock : ℕ) : ℤ :=
  if startBlock ≤ 15 then direct inode startBlock
  else
    let indirectBlk := indirect inode ((startBlock - 16) / (blockSize / 4))
    if indirectBlk = -1 then -1
    else (bioRead fs.disk indirectBlk).getInt (4 * ((startBlock - 16) % (blockSize / 4)))

/-- The loop of `rufs_read`: the result when it returns early, and the caller's buffer. -/
def readLoop (fs : Fs) (inode : Inode) (size : ℕ) :
    ℕ → Bytes → ℕ → ℕ → ℕ → Option (Option ℤ × Bytes)
  | 0, buffer, sizeCopy, _, _ => if sizeCopy = 0 then some (none, buffer) else none
  | fuel + 1, buffer, sizeCopy, offset, startBlock =>
    if sizeCopy = 0 then some (none, buffer)
    else
      let blockPtr := readPtr fs inode startBlock
      if blockPtr = -1 then some (some (toReturn (size - sizeCopy)), buffer)
      else
        let n := chunk sizeCopy offset
        let buffer := buffer.copy 0 (bioRead fs.disk blockPtr) (offset % blockSize) n
        readLoop fs inode size fuel buffer (sizeCopy - n) 0 (startBlock + 1)

/-- `rufs_read`: the result, the caller's buffer and the state. -/
def rufsRead (env : Env) (fs : Fs) (path : CString) (buffer : Bytes) (size offset : ℕ) :
    Option (ℤ × Bytes × Fs) :=
  (getNodeByPath fs path 0).bind fun
    | none => some (-enoent, buffer, fs)
    | some inode =>
      if (offset + size) % 2 ^ 64 > get inode .size then some (0, buffer, fs)
      else
        (readLoop fs inode size size buffer size offset (offset / blockSize)).map fun
          | (some r, buffer) => (r, buffer, fs)
          | (none, buffer) => (toReturn size, buffer,
              writei fs (env.time 1) (get inode .ino) (set inode .stAtime (env.time 0)))

/-- The data block that `rufs_write` writes for the file block `startBlock`, which is allocated when
the file has none: `none` when no data block is left. -/
def writePtr (fs : Fs) (inode : Inode) (startBlock : ℕ) : Option ℤ × Fs × Inode :=
  if startBlock ≤ 15 then
    if direct inode startBlock = -1 then
      let (newBlk, fs) := getAvailBlkno fs
      if newBlk < 0 then (none, fs, inode)
      else (some newBlk, fs, setDirect inode startBlock newBlk)
    else (some (direct inode startBlock), fs, inode)
  else
    let indirectBlk := (startBlock - 16) / (blockSize / 4)
    let blkIndex := (startBlock - 16) % (blockSize / 4)
    let (newBlk, fs) := if indirect inode indirectBlk = -1 then getAvailBlkno fs else (0, fs)
    if newBlk < 0 then (none, fs, inode)
    else
      let (fs, inode) :=
        if indirect inode indirectBlk = -1 then
          ({ fs with disk := bioWrite fs.disk newBlk (initIndirectBlk (bioRead fs.disk newBlk)) },
            setIndirect inode indirectBlk newBlk)
        else (fs, inode)
      let blkPtrs := bioRead fs.disk (indirect inode indirectBlk)
      if blkPtrs.getInt (4 * blkIndex) = -1 then
        let (newBlk, fs) := getAvailBlkno fs
        if newBlk < 0 then (none, fs, inode)
        else
          let blkPtrs := blkPtrs.setInt (4 * blkIndex) newBlk
          (some newBlk,
            { fs with disk := bioWrite fs.disk (indirect inode indirectBlk) blkPtrs }, inode)
      else (some (blkPtrs.getInt (4 * blkIndex)), fs, inode)

/-- The loop of `rufs_write`: the result when it returns early, the state and the inode in memory.
-/
def writeLoop (buffer : Bytes) (size : ℕ) :
    ℕ → Fs → Inode → ℕ → ℕ → ℕ → Option (Option ℤ × Fs × Inode)
  | 0, fs, inode, sizeCopy, _, _ => if sizeCopy = 0 then some (none, fs, inode) else none
  | fuel + 1, fs, inode, sizeCopy, offset, startBlock =>
    if sizeCopy = 0 then some (none, fs, inode)
    else
      match writePtr fs inode startBlock with
      | (none, fs, inode) =>
        some (some (if startBlock ≤ 15 then toReturn (size - sizeCopy) else -enospc), fs, inode)
      | (some blockPtr, fs, inode) =>
        let n := chunk sizeCopy offset
        let blockMem := (bioRead fs.disk blockPtr).copy (offset % blockSize) buffer 0 n
        let fs := { fs with disk := bioWrite fs.disk blockPtr blockMem }
        writeLoop buffer size fuel fs inode (sizeCopy - n) 0 (startBlock + 1)

/-- `rufs_write`. -/
def rufsWrite (env : Env) (fs : Fs) (path : CString) (buffer : Bytes) (size offset : ℕ) :
    Option (ℤ × Fs) :=
  (getNodeByPath fs path 0).bind fun
    | none => some (-enoent, fs)
    | some inode =>
      if offset > get inode .size then some (0, fs)
      else
        (writeLoop buffer size size fs inode size offset (offset / blockSize)).map fun
          | (some r, fs, _) => (r, fs)
          | (none, fs, inode) =>
            let inode := set (set inode .stMtime (env.time 0)) .size (get inode .size + size)
            let inode := set inode .stSize (get inode .size)
            (toReturn size, writei fs (env.time 1) (get inode .ino) inode)

end UserOS.Rufs
