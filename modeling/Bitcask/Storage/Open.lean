import Bitcask.Lib.CrashHoare
import Bitcask.Storage.FileNames
import Bitcask.Storage.Writer

/-!
# Opening a directory

`Bitcask::open` as a program over the directory: take the lock file, walk the directory, elect
the active file and replay the log. Its calls that change the directory are the points at which a
crash may leave it; `write_all` of the marker is one such call for each byte. The order in which
`read_dir` lists the names is an argument, and so is the time. One process at a time is in it: the
advisory lock on `kvs.lock` is the subject of `LockFile`.

The programs are over any way to name the files of a store (`Naming`). `storeNames` are the names of
the store itself; the names of the file system, where other programs may leave files with names of
their own, are `textNames` of `OpenNames`.
-/

namespace Bitcask

open LittleEndian FileSystem CrashHoare

/-- A program over the directory. -/
abbrev DirM (N : Type) [DecidableEq N] := Prog (Fs N) Fault

/-- How the files of a store are named in a directory, and what a name is to the walk of `open`. -/
structure Naming (N : Type) where
  lock : N
  data : ℕ → N
  hint : ℕ → N
  classify : N → DirEntry
  /-- Where a hint is looked for its data file, there is no file the walk removes. -/
  data_of_hint : ∀ {n id}, classify n = .hint id → classify (data id) = .data id
  hint_ne_data : ∀ i j, hint i ≠ data j

/-- The names of the store. -/
abbrev storeNames : Naming FileName where
  lock := .lock
  data := .data
  hint := .hint
  classify := FileName.entry
  data_of_hint := fun _ => rfl
  hint_ne_data := by simp

namespace DirM

variable {N : Type} [DecidableEq N]

/-- `?` on an error. -/
def fail {α : Type} (e : KvsError) : DirM N α := Prog.throw (.error e)

/-- `OpenOptions::new().create(true)…open(name)`. -/
def openCreate (name : N) : DirM N Inode := do
  let fs ← Prog.get
  Prog.call (·.create name)
  return fs.handle name

/-- `write_all` to the end of a file, which a crash may leave after any of its bytes. -/
def writeAll (file : Inode) : Bytes → DirM N Unit
  | [] => return ()
  | b :: bytes => do
    Prog.call (·.append file [b])
    writeAll file bytes

end DirM

/-! ## The lock file -/

/-- `char::is_whitespace`: the Unicode property `White_Space`. -/
def isWhiteSpace (c : Char) : Bool :=
  (0x9 ≤ c.val ∧ c.val ≤ 0xd) ∨ (0x2000 ≤ c.val ∧ c.val ≤ 0x200a) ∨
    c.val ∈ [0x20, 0x85, 0xa0, 0x1680, 0x2028, 0x2029, 0x202f, 0x205f, 0x3000]

/-- `str::trim`. -/
def trim (s : String) : String :=
  String.ofList ((s.toList.dropWhile isWhiteSpace).reverse.dropWhile isWhiteSpace).reverse

/-- `StoreType`. -/
inductive StoreType
  | bitcask
  | sled
  deriving DecidableEq, Repr

/-- `StoreType::as_str`. -/
def StoreType.asStr : StoreType → String
  | .bitcask => "bitcask"
  | .sled => "sled"

/-- The marker of a store of this engine. -/
def engine : String := StoreType.bitcask.asStr

/-- What `acquire` makes of the bytes it has read. -/
inductive Verdict
  | blank
  | mine
  | refused (err : KvsError)
  deriving DecidableEq, Repr

/-- `read_to_string`, `trim` and the comparison with the engine's name. -/
def checkMarker (e : StoreType) (bytes : Bytes) : Verdict :=
  match String.fromUTF8? ⟨bytes.toArray⟩ with
  | none => .refused (.io ⟨.invalidData, "stream did not contain valid UTF-8"⟩)
  | some text =>
    if trim text = "" then .blank
    else if trim text ≠ e.asStr then .refused (.engineMismatch (trim text) e.asStr)
    else .mine

/-- `LockFile::acquire`: an empty marker is stamped, another engine's marker is refused. -/
def Naming.acquire {N : Type} [DecidableEq N] (nm : Naming N) (e : StoreType) : DirM N Unit := do
  let file ← DirM.openCreate nm.lock
  let fs ← Prog.get
  match checkMarker e (fs.bytes file) with
  | .blank =>
    DirM.writeAll file (asBytes e.asStr)
    Prog.call (·.sync file)
  | .mine => return ()
  | .refused err => DirM.fail err

/-! ## The walk over the directory -/

/-- The read handles and the highest data file id found so far. -/
structure Scan where
  readHandlers : Std.TreeMap ℕ Inode
  maxId : Option ℕ

/-- One entry of the directory: a data file is opened, the rest of an unfinished merge and the
hint of a data file that is gone are removed. -/
def Naming.scanEntry {N : Type} [DecidableEq N] (nm : Naming N) (scan : Scan) (name : N) :
    DirM N Scan := do
  let fs ← Prog.get
  match fs.lookup name with
  | none => return scan
  | some i =>
    match nm.classify name with
    | .data id =>
      return ⟨scan.readHandlers.insert id i, some (match scan.maxId with | none => id | some m => max m id)⟩
    | .leftover =>
      Prog.call (·.unlink name)
      return scan
    | .hint id =>
      if (fs.lookup (nm.data id)).isNone then Prog.call (·.unlink name)
      return scan
    | .other => return scan

/-! ## Replay -/

/-- `Loader`. -/
structure Loader where
  readers : Std.TreeMap ℕ Inode
  index : Index
  writer : WriterState

variable (crc : Bytes → UInt32)

/-- One hint record: its entry goes into the index. -/
def hintRecord (fileId : ℕ) (index : Index) (_position : ℕ) (bytes : Bytes) :
    Except KvsError Index := do
  let (key, value, _) ← IndexValue.deserialize crc bytes fileId
  return index.insert key value

/-- One log record: a set puts its position into the index, a remove takes the key out and counts
as stale. -/
def dataRecord (fileId : ℕ) (l : Loader) (position : ℕ) (bytes : Bytes) : Except KvsError Loader := do
  let (command, _) ← Command.deserialize crc bytes
  match command with
  | .set ts key _ =>
    return { l with
      index := l.index.insert key ⟨fileId, ts, position, bytes.length⟩
      writer := { l.writer with offset := l.writer.offset + bytes.length } }
  | .rm _ key =>
    return { l with
      index := l.index.remove key
      writer := { l.writer with
        staleBytesCount := l.writer.staleBytesCount + bytes.length
        offset := l.writer.offset + bytes.length } }

/-- The data file path of `replay`; the flag says whether the loop over the files goes on. -/
def replayData {N : Type} [DecidableEq N] (fileId : ℕ) (i : Inode) (l : Loader) :
    DirM N (Loader × Bool) := do
  let fs ← Prog.get
  let l := { l with writer := { l.writer with offset := 0 } }
  match forRecordsOf (dataRecord crc fileId) (fs.bytes i) l with
  | .panic => Prog.throw .panic
  | .stop _ e => DirM.fail e
  | .done l none => return (l, true)
  | .done l (some position) =>
    if fileId = l.writer.currentFileId then
      Prog.call (·.setLen l.writer.file position)
      return ({ l with writer := { l.writer with offset := position } }, false)
    else DirM.fail .corruption

namespace Naming

variable {N : Type} [DecidableEq N] (nm : Naming N)

/-- One file of the loop of `replay`. A sealed file is replayed from its hint if it has one; a
hint that does not decode is removed, with its first entries already in the index, and the data
file is replayed. -/
def replayFile (l : Loader) (fileId : ℕ) (i : Inode) : DirM N (Loader × Bool) := do
  let fs ← Prog.get
  match fs.lookup (nm.hint fileId) with
  | some h =>
    if fileId ≠ l.writer.currentFileId then
      match forRecordsOf (hintRecord crc fileId) (fs.bytes h) l.index with
      | .panic => Prog.throw .panic
      | .done index none => return ({ l with index }, true)
      | .done index (some _) | .stop index _ =>
        Prog.call (·.unlink (nm.hint fileId))
        replayData crc fileId i { l with index }
    else replayData crc fileId i l
  | none => replayData crc fileId i l

/-- `Loader::replay`. -/
def replay : List (ℕ × Inode) → Loader → DirM N Loader
  | [], l => return l
  | (fileId, i) :: files, l => do
    let (l, more) ← nm.replayFile crc l fileId i
    if more then replay files l else return l

/-- The part of `open` after the walk: the active file is elected and the log replayed. -/
def loadFrom (now : ℕ) (scan : Scan) : DirM N Loader := do
  let currentFileId := scan.maxId.getD 1
  let file ← DirM.openCreate (nm.data currentFileId)
  let readers := scan.readHandlers.insert currentFileId file
  nm.replay crc readers.toList ⟨readers, Index.empty, ⟨currentFileId, file, 0, 0, now, 0⟩⟩

/-- The part of `open` after `LockFile::acquire`. -/
def load (listing : List N) (now : ℕ) : DirM N Loader := do
  let scan ← listing.foldlM nm.scanEntry ⟨∅, none⟩
  nm.loadFrom crc now scan

/-- `Bitcask::open`, up to the store it makes of the loader. -/
def openStore (listing : List N) (now : ℕ) : DirM N Loader := do
  nm.acquire .bitcask
  nm.load crc listing now

end Naming

/-! ## The names of the store -/

/-- The store that `open` makes of the loader. -/
def Loader.store (l : Loader) (fs : Fs FileName) : Sys :=
  { fs, index := l.index, readers := l.readers, writer := l.writer, lock := .free, merge := .idle none }

/-- `Bitcask::open` after `LockFile::acquire`. -/
def loadStore (listing : List FileName) (now : ℕ) : DirM FileName Sys := do
  let l ← storeNames.load crc listing now
  let fs ← Prog.get
  return l.store fs

/-- `Bitcask::open`. -/
def openStore (listing : List FileName) (now : ℕ) : DirM FileName Sys := do
  let l ← storeNames.openStore crc listing now
  let fs ← Prog.get
  return l.store fs

theorem openStore_eq (listing : List FileName) (now : ℕ) :
    openStore crc listing now = storeNames.acquire .bitcask >>= fun _ => loadStore crc listing now :=
  Prog.bind_assoc _ _ _

end Bitcask
