import CourseWork.Lib.SparseFile
import CourseWork.Torrent.Metainfo

/-!
# Storage

The `storage` module: creating the files of a torrent under a directory, and writing
pieces to them. The file system is a parameter that answers every call.
-/

namespace CourseWork.Torrent
open CLib SparseFile

/-! ## Data -/

/-- `config_t`, as far as the output uses it. The names are C strings. -/
structure Config where
  outputFile : Option Bytes
  extractDir : Option Bytes

/-- An open file. Every entry of a torrent has one of its own, as on disk where their paths
differ. `outcomes` are the outcomes of the next pairs of `fseek` and `fwrite`:
`none` if the `fseek` fails, else the number of bytes that `fwrite` can write. Where
the list ends they succeed. -/
@[ext]
structure DiskFile where
  bytes : Bytes
  outcomes : List (Option Nat)
  deriving DecidableEq

/-- `file_info_t`. -/
structure FileInfo where
  fullPath : Bytes
  offset : UInt64
  length : UInt64
  fp : DiskFile
  deriving DecidableEq

/-- `storage_t`. -/
structure Storage where
  files : List FileInfo
  totalLength : UInt64
  pieceLength : UInt32
  extractDir : Option Bytes
  deriving DecidableEq

/-- A call that `storage_open` makes to the file system. -/
inductive FsCall where
  | mkdir (path : Bytes)
  | fopen (path : Bytes)
  deriving DecidableEq

/-- The file system, by its answers to a call after the calls before it: whether `mkdir`
succeeds or fails with `EEXIST`, and the outcomes of later writes if `fopen` succeeds. -/
structure Fs where
  mkdir : List FsCall → Bytes → Bool
  fopen : List FsCall → Bytes → Option (List (Option Nat))

/-- The file system on which everything succeeds. -/
def Fs.reliable : Fs where
  mkdir _ _ := true
  fopen _ _ := some []

/-- How `mkdir_p` ends; `undefined` if it reads outside of its buffer. -/
inductive MkdirResult where
  | created
  | failed
  | undefined
  deriving DecidableEq

/-! ## `mkdir_p` -/

/-- The loop of `mkdir_p` at `*p`, the text before `p` given, and the last `mkdir`. -/
def mkdirWalk (fs : Fs) (calls : List FsCall) (tmp : Bytes) :
    Bytes → MkdirResult × List FsCall
  | [] =>
    let calls' := calls ++ [.mkdir tmp]
    (if fs.mkdir calls tmp then .created else .failed, calls')
  | c :: p =>
    if c = 47 then
      let calls' := calls ++ [.mkdir tmp]
      if fs.mkdir calls tmp then mkdirWalk fs calls' (tmp ++ [c]) p else (.failed, calls')
    else mkdirWalk fs calls (tmp ++ [c]) p

/-- `mkdir_p` of a path that fits its buffer. The empty path makes it read `tmp[-1]`. -/
def mkdirP (fs : Fs) (calls : List FsCall) (path : Bytes) : MkdirResult × List FsCall :=
  if path = [] then (.undefined, calls)
  else
    let tmp := if path.getLast? = some 47 then path.dropLast else path
    mkdirWalk fs calls (tmp.take 1) (tmp.drop 1)

/-! ## `storage_open` -/

/-- `PATH_LEN`. -/
def pathLen : Nat := 4096

/-- `strncat(full_path, s, sizeof(full_path) - strlen(full_path) - 1)`. -/
def strncat (fullPath s : Bytes) : Bytes := fullPath ++ s.take (pathLen - fullPath.length - 1)

/-- The loop over the components of a path. -/
def appendPath (fullPath : Bytes) : List Bytes → Bytes
  | [] => fullPath
  | [s] => strncat fullPath s
  | s :: path => appendPath (strncat (strncat fullPath s) [47]) path

/-- The path that `storage_open` builds for a file. -/
def fullPath (extractDir : Option Bytes) (path : List Bytes) : Bytes :=
  match extractDir with
  | some dir => appendPath (strncat (dir.take (pathLen - 1)) [47]) path
  | none => appendPath [] path

/-- The text before the last slash, if there is one. -/
def dirName : Bytes → Option Bytes
  | [] => none
  | c :: path =>
    match dirName path with
    | some dir => some (c :: dir)
    | none => if c = 47 then some [] else none

/-- How `storage_open` ends: with the opened files, with `NULL`, or undefined. -/
inductive OpenResult (α : Type) where
  | opened (files : α)
  | failed
  | undefined
  deriving DecidableEq

/-- The directories of a file, made before it is opened. -/
def makeDirs (fs : Fs) (calls : List FsCall) (path : Bytes) : MkdirResult × List FsCall :=
  match dirName path with
  | some dir => mkdirP fs calls dir
  | none => (.created, calls)

/-- The loop of `storage_open` over the files, at offset `currentOffset`. -/
def openFiles (fs : Fs) (extractDir : Option Bytes) (calls : List FsCall)
    (currentOffset : UInt64) : List FileT → OpenResult (List FileInfo) × List FsCall
  | [] => (.opened [], calls)
  | tf :: tfs =>
    let path := fullPath extractDir tf.path
    match makeDirs fs calls path with
    | (.undefined, calls) => (.undefined, calls)
    | (.failed, calls) => (.failed, calls)
    | (.created, calls) =>
      let calls' := calls ++ [.fopen path]
      match fs.fopen calls path with
      | none => (.failed, calls')
      | some outcomes =>
        match openFiles fs extractDir calls' (currentOffset + tf.length) tfs with
        | (.opened files, calls) =>
          (.opened (⟨path, currentOffset, tf.length, ⟨[], outcomes⟩⟩ :: files), calls)
        | (.failed, calls) => (.failed, calls)
        | (.undefined, calls) => (.undefined, calls)

/-- `storage_open`, with the calls it makes. -/
def storageOpen (fs : Fs) (cfg : Config) (tor : TorrentT) : OpenResult Storage × List FsCall :=
  if cfg.outputFile.isSome ∧ 1 < tor.files.length then (.failed, [])
  else
    match openFiles fs cfg.extractDir [] 0 tor.files with
    | (.opened files, calls) =>
      (.opened ⟨files, tor.totalLength, tor.pieceLength, cfg.extractDir⟩, calls)
    | (.failed, calls) => (.failed, calls)
    | (.undefined, calls) => (.undefined, calls)

/-! ## `storage_write` -/

/-- `fseek` to a position and `fwrite` of the data, with the next outcome. A position
that is negative as a `long` is an error. -/
def DiskFile.writeAt (f : DiskFile) (pos : UInt64) (data : Bytes) : DiskFile :=
  match f.outcomes.headD (some data.length) with
  | none => { f with outcomes := f.outcomes.tail }
  | some n =>
    if pos.toNat < 2 ^ 63 then
      ⟨SparseFile.writeAt 0 f.bytes pos.toNat (data.take n), f.outcomes.tail⟩
    else { f with outcomes := f.outcomes.tail }

/-- The body of the loop of `storage_write`, for a piece that starts at `pieceStart`. -/
def writeOverlap (pieceStart pieceEnd : UInt64) (data : Bytes) (fi : FileInfo) : FileInfo :=
  let fileStart := fi.offset
  let fileEnd := fi.offset + fi.length
  let overlapStart := if pieceStart > fileStart then pieceStart else fileStart
  let overlapEnd := if pieceEnd < fileEnd then pieceEnd else fileEnd
  if overlapStart < overlapEnd then
    let offsetInFile := overlapStart - fileStart
    let offsetInPiece := overlapStart - pieceStart
    let bytesToWrite := overlapEnd - overlapStart
    { fi with
      fp := fi.fp.writeAt offsetInFile
        ((data.drop offsetInPiece.toNat).take bytesToWrite.toNat) }
  else fi

/-- `storage_write`. -/
def storageWrite (st : Storage) (pieceIndex : UInt32) (data : Bytes) (len : UInt32) : Storage :=
  let pieceStart := pieceIndex.toUInt64 * st.pieceLength.toUInt64
  let pieceEnd := pieceStart + len.toUInt64
  { st with files := st.files.map (writeOverlap pieceStart pieceEnd data) }

end CourseWork.Torrent
