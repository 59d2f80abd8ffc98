import UserOS.Rufs.Links
import UserOS.Rufs.Pages

/-!
# Requests

The calls of `rufs_ope` answer requests, and the directories on the disk make up a tree of files.
`Served` says what a request does to a tree of files and what is replied, with nothing said about
inodes and blocks.

* `Request.serve`: the reply to a request, and the state after it.
* `Fs.tree`: the tree of files on the disk.
* `Served`: the meaning of the requests.
-/

namespace UserOS.Rufs

open Lib

/-! ## The server -/

/-- `rufs_opendir`. -/
def rufsOpendir (fs : Fs) (path : CString) : Option ℤ :=
  (getNodeByPath fs path 0).map fun
    | none => -enoent
    | some _ => 0

/-- `rufs_open`. -/
def rufsOpen (fs : Fs) (path : CString) : Option ℤ :=
  (getNodeByPath fs path 0).map fun
    | none => -enoent
    | some _ => 0

/-- The requests. `room` is the number of names that the buffer of `readdir` takes. -/
inductive Request
  | getattr (path : CString) (stbuf : Stat)
  | opendir (path : CString)
  | openFile (path : CString)
  | readdir (path : CString) (room : ℕ)
  | mkdir (path : CString)
  | create (path : CString) (mode : ℕ)
  | rmdir (path : CString)
  | unlink (path : CString)
  | read (path : CString) (buffer : Bytes) (size offset : ℕ)
  | write (path : CString) (buffer : Bytes) (size offset : ℕ)

/-- What the caller's buffer holds. -/
inductive Data
  | nothing
  | attr (stbuf : Stat)
  | names (l : List CString)
  | bytes (buffer : Bytes)

/-- The result of a call, and the caller's buffer after it. -/
structure Reply where
  result : ℤ
  data : Data

/-- The `filler` of FUSE: the buffer takes `room` names. -/
def takeName (room : ℕ) (l : List CString) (n : CString) : ℤ × List CString :=
  if l.length < room then (0, l ++ [n]) else (1, l)

namespace Request

def path : Request → CString
  | getattr path _ | opendir path | openFile path | readdir path _ | mkdir path | create path _
  | rmdir path | unlink path | read path _ _ _ | write path _ _ _ => path

/-- The caller's buffer before the call. -/
def given : Request → Data
  | getattr _ stbuf => .attr stbuf
  | readdir _ _ => .names []
  | read _ buffer _ _ => .bytes buffer
  | _ => .nothing

/-- The call for a request. -/
def serve (env : Env) (fs : Fs) : Request → Option (Reply × Fs)
  | getattr path stbuf => (rufsGetattr env fs path stbuf).map fun r => (⟨r.1, .attr r.2⟩, fs)
  | opendir path => (rufsOpendir fs path).map fun r => (⟨r, .nothing⟩, fs)
  | openFile path => (rufsOpen fs path).map fun r => (⟨r, .nothing⟩, fs)
  | readdir path room => (rufsReaddir fs path (takeName room) []).map fun r =>
      (⟨r.1, .names r.2⟩, fs)
  | mkdir path => (rufsMkdir env fs path).map fun r => (⟨r.1, .nothing⟩, r.2)
  | create path mode => (rufsCreate env fs path mode).map fun r => (⟨r.1, .nothing⟩, r.2)
  | rmdir path => (rufsRmdir env fs path).map fun r => (⟨r.1, .nothing⟩, r.2)
  | unlink path => (rufsUnlink env fs path).map fun r => (⟨r.1, .nothing⟩, r.2)
  | read path buffer size offset => (rufsRead env fs path buffer size offset).map fun r =>
      (⟨r.1, .bytes r.2.1⟩, r.2.2)
  | write path buffer size offset => (rufsWrite env fs path buffer size offset).map fun r =>
      (⟨r.1, .nothing⟩, r.2)

end Request

/-! ## The tree of files -/

/-- A regular file: its mode, the size that it records, and the bytes in its blocks. -/
structure File where
  mode : ℕ
  size : ℕ
  byte : ℕ → Option UInt8

/-- Directory `i` has the name, for inode `c`. -/
def Fs.enter (fs : Fs) (i : ℕ) (n : CString) : Option ℕ :=
  if IsDir (readi fs i) ∧ NameOk n then dirFind fs i n else none

/-- The inode that the names lead to, from directory to directory. -/
def Fs.find (fs : Fs) (cs : List CString) : Option ℕ := cs.foldlM fs.enter 0

/-- What inode `i` says. -/
def Fs.node (fs : Fs) (i : ℕ) : Node File :=
  if IsDir (readi fs i) then .dir
  else .file ⟨get (readi fs i) .stMode, get (readi fs i) .size, fs.fileByte i⟩

/-- **The tree of files** on the disk. -/
def Fs.tree (fs : Fs) : FileTree CString File := fun cs => (fs.find cs).map fs.node

/-! ## The meaning of the requests -/

/-- A new file. -/
def File.new (mode : ℕ) : File := ⟨(sIfreg ||| mode) % 2 ^ 32, 0, fun _ => none⟩

/-- The first `n` bytes of a buffer are written within one page. The size grows by `n`, wherever
they are written. -/
def File.write (f : File) (buffer : Bytes) (n offset : ℕ) : File :=
  { f with
    size := (f.size + n) % 2 ^ 32
    byte := storePage blockSize 0 f.byte buffer n offset }

/-- The range lies in the file, and its page is there. -/
def File.Has (f : File) (n offset : ℕ) : Prop :=
  offset + n ≤ f.size ∧ (n = 0 ∨ f.byte offset ≠ none)

/-- The path is one that the kernel passes: it does not go on from a file, and its names fit. -/
structure Walks (t : FileTree CString File) (path : CString) : Prop where
  ok : PathOk path
  short : ∀ c ∈ components path, c.length ≤ 207
  dirs : ∀ cs, cs <+: components path → cs ≠ components path → ∀ f, t cs ≠ some (.file f)

/-- The proper prefixes of the path can be looked up one by one. -/
theorem walks_iff {t : FileTree CString File} {path : CString} : Walks t path ↔
    PathOk path ∧ (∀ c ∈ components path, c.length ≤ 207) ∧
      ∀ k < (components path).length, ∀ f, t ((components path).take k) ≠ some (.file f) := by
  constructor
  · intro h
    refine ⟨h.ok, h.short, fun k hk => h.dirs _ (List.take_prefix k _) fun heq => ?_⟩
    have hlen := congrArg List.length heq
    rw [List.length_take] at hlen
    omega
  · intro ⟨hok, hshort, hdirs⟩
    refine ⟨hok, hshort, fun cs hpre hne => ?_⟩
    have hlt : cs.length < (components path).length :=
      lt_of_le_of_ne hpre.length_le fun heq => hne (hpre.eq_of_length heq)
    rw [List.prefix_iff_eq_take.1 hpre]
    exact hdirs _ hlt

instance {t : FileTree CString File} {path : CString} : Decidable (Walks t path) :=
  decidable_of_iff _ walks_iff.symm

namespace Request

/-- What is to be made. -/
def makes : Request → Option (Node File)
  | mkdir _ => some .dir
  | create _ mode => some (.file (.new mode))
  | _ => none

/-- The path is to be removed. -/
def Removes : Request → Prop
  | rmdir _ | unlink _ => True
  | _ => False

/-- The path that has to lead somewhere. -/
def needs : Request → CString
  | mkdir path | create path _ => dirname path
  | q => q.path

/-- Only directories are listed, only files are read and written, a page at a time, and the root is
neither made nor removed. -/
def Fits (t : FileTree CString File) : Request → Prop
  | readdir path _ => ∀ f, t (components path) ≠ some (.file f)
  | mkdir path | create path _ | rmdir path | unlink path => components path ≠ []
  | read path _ size offset | write path _ size offset => t (components path) ≠ some .dir ∧
      offset + size ≤ fileCapacity ∧ offset % blockSize + size ≤ blockSize
  | getattr _ _ | opendir _ | openFile _ => True

instance {t : FileTree CString File} {q : Request} : Decidable (q.Fits t) :=
  match q with
  | readdir path _ => inferInstanceAs (Decidable (∀ f, t (components path) ≠ some (.file f)))
  | mkdir path | create path _ | rmdir path | unlink path =>
    inferInstanceAs (Decidable (components path ≠ []))
  | read path _ size offset | write path _ size offset =>
    inferInstanceAs (Decidable (t (components path) ≠ some .dir ∧
      offset + size ≤ fileCapacity ∧ offset % blockSize + size ≤ blockSize))
  | getattr _ _ | opendir _ | openFile _ => .isTrue trivial

/-- The requests of the kernel. -/
def Allowed (t : FileTree CString File) (q : Request) : Prop := Walks t q.path ∧ q.Fits t

instance {t : FileTree CString File} {q : Request} : Decidable (q.Allowed t) :=
  inferInstanceAs (Decidable (_ ∧ _))

end Request

/-- **What a request does** to a tree of files, with its reply. -/
inductive Served (t : FileTree CString File) :
    Request → Reply → FileTree CString File → Prop
  | missing {q : Request} : t (components q.needs) = none → Served t q ⟨-enoent, q.given⟩ t
  /-- The size of a directory is that of its entries. -/
  | attrDir {path : CString} {stbuf st : Stat} {names : List CString} :
      t (components path) = some .dir → t.Lists (components path) names →
      st.mode = sIfdir ||| 0o755 → st.nlink = 2 → st.size = direntSize * names.length →
      Served t (.getattr path stbuf) ⟨0, .attr st⟩ t
  | attrFile {path : CString} {stbuf st : Stat} {f : File} :
      t (components path) = some (.file f) →
      st.mode = f.mode → st.nlink = 1 → st.size = f.size →
      Served t (.getattr path stbuf) ⟨0, .attr st⟩ t
  | opendir {path : CString} :
      t (components path) ≠ none → Served t (.opendir path) ⟨0, .nothing⟩ t
  | openFile {path : CString} :
      t (components path) ≠ none → Served t (.openFile path) ⟨0, .nothing⟩ t
  /-- The buffer takes the names from the first on, until it is full. -/
  | readdir {path : CString} {room : ℕ} {names : List CString} :
      t (components path) = some .dir → t.Lists (components path) names →
      Served t (.readdir path room) ⟨if room < names.length + 2 then -1 else 0,
        .names ((dotDot :: dot :: names).take room)⟩ t
  | taken {q : Request} :
      q.makes ≠ none → t (components q.path) ≠ none → Served t q ⟨-eexist, .nothing⟩ t
  /-- Inodes, blocks and entries may run out. -/
  | noSpace {q : Request} :
      q.makes ≠ none → t (components q.needs) = some .dir → Served t q ⟨-enospc, .nothing⟩ t
  | made {q : Request} {x : Node File} :
      q.makes = some x → t (components q.needs) = some .dir → t (components q.path) = none →
      Served t q ⟨0, .nothing⟩ (t.set (components q.path) x)
  | removed {q : Request} :
      q.Removes → t (components q.path) ≠ none →
      Served t q ⟨0, .nothing⟩ (t.prune (components q.path))
  | read {path : CString} {caller buf : Bytes} {n offset : ℕ} {f : File} :
      t (components path) = some (.file f) → f.Has n offset →
      (∀ j < n, f.byte (offset + j) = some (buf j)) → (∀ j, n ≤ j → buf j = caller j) →
      Served t (.read path caller n offset) ⟨n, .bytes buf⟩ t
  | readNothing {path : CString} {caller : Bytes} {n offset : ℕ} {f : File} :
      t (components path) = some (.file f) → ¬f.Has n offset →
      Served t (.read path caller n offset) ⟨0, .bytes caller⟩ t
  | written {path : CString} {buffer : Bytes} {n offset : ℕ} {f : File} :
      t (components path) = some (.file f) → offset ≤ f.size →
      Served t (.write path buffer n offset) ⟨n, .nothing⟩
        (t.set (components path) (.file (f.write buffer n offset)))
  | writtenPast {path : CString} {buffer : Bytes} {n offset : ℕ} {f : File} :
      t (components path) = some (.file f) → f.size < offset →
      Served t (.write path buffer n offset) ⟨0, .nothing⟩ t
  /-- Only pages that are missing need a block. -/
  | noBlock {path : CString} {buffer : Bytes} {n offset : ℕ} {f : File} :
      t (components path) = some (.file f) → n ≠ 0 → f.byte offset = none →
      Served t (.write path buffer n offset)
        ⟨if offset / blockSize ≤ 15 then 0 else -enospc, .nothing⟩ t

end UserOS.Rufs
