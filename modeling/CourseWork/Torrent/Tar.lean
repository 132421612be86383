import CourseWork.Lib.Numeral
import CourseWork.Torrent.Storage

/-!
# Tar

The `tar` module: streaming pieces into a ustar archive. What standard output accepts
of each write, and the time, are given from outside.
-/

namespace CourseWork.Torrent
open CLib

/-! ## Headers -/

/-- `oct_to_str` into a field of the given size: the number as an `unsigned int`, padded
with zeros to `size - 2` digits, and a blank; cut to `size - 1` bytes and terminated. -/
def octToStr (val : UInt64) (size : Nat) : Bytes :=
  let text := Numeral.padded 8 (size - 2) val.toUInt32.toNat ++ [32]
  let cut := text.take (size - 1)
  cut ++ List.replicate (size - cut.length) 0

/-- `tar_header_t` without the trailing fields that stay zero. -/
structure TarHeader where
  name : Bytes
  mode : Bytes
  uid : Bytes
  gid : Bytes
  size : Bytes
  mtime : Bytes
  chksum : Bytes
  typeflag : UInt8
  magic : Bytes
  version : Bytes

/-- The 512 bytes of a header. -/
def TarHeader.bytes (hdr : TarHeader) : Bytes :=
  hdr.name ++ hdr.mode ++ hdr.uid ++ hdr.gid ++ hdr.size ++ hdr.mtime ++ hdr.chksum ++
    [hdr.typeflag] ++ List.replicate 100 0 ++ hdr.magic ++ hdr.version ++ List.replicate 247 0

/-- `calculate_checksum`. -/
def calculateChecksum (hdr : Bytes) : UInt32 :=
  hdr.foldl (fun sum c => sum + c.toUInt32) 0

/-- The name field: the path if it fits with its terminator, else its first 99 bytes. -/
def nameField (path : Bytes) : Bytes :=
  let name := path.take 99
  name ++ List.replicate (100 - name.length) 0

/-- The header that `write_header` fills in before the checksum. -/
def blankHeader (path : Bytes) (size time : UInt64) : TarHeader where
  name := nameField path
  mode := octToStr 420 8
  uid := octToStr 0 8
  gid := octToStr 0 8
  size := octToStr size 12
  mtime := octToStr time 12
  chksum := List.replicate 8 32
  typeflag := 48
  magic := ascii "ustar" ++ [0]
  version := ascii "00"

/-- The header that `write_header` writes. -/
def tarHeader (path : Bytes) (size time : UInt64) : TarHeader :=
  let hdr := blankHeader path size time
  { hdr with chksum := octToStr (calculateChecksum hdr.bytes).toUInt64 8 }

/-! ## The writer -/

/-- Standard output: the bytes that it took, and how many it can take of each of the next
writes. Where the list ends it takes everything. -/
structure OutStream where
  bytes : Bytes
  limits : List Nat
  deriving DecidableEq

/-- `fwrite`. -/
def OutStream.fwrite (out : OutStream) (data : Bytes) : OutStream :=
  ⟨out.bytes ++ data.take (out.limits.headD data.length), out.limits.tail⟩

/-- `tar_writer_t`; `clock` are the times at which the next headers are written. -/
structure TarWriter where
  tor : TorrentT
  out : OutStream
  currentFileIndex : Int32
  fileBytesWritten : UInt64
  totalWritten : UInt64
  clock : List UInt64

/-- `tar_writer_open`. -/
def tarWriterOpen (out : OutStream) (clock : List UInt64) (tor : TorrentT) : TarWriter :=
  ⟨tor, out, -1, 0, 0, clock⟩

/-- `fwrite` to the archive, counted as if it were complete. -/
def TarWriter.put (tw : TarWriter) (data : Bytes) : TarWriter :=
  { tw with
    out := tw.out.fwrite data
    totalWritten := tw.totalWritten + UInt64.ofNat data.length }

/-- `write_header`. -/
def writeHeader (tw : TarWriter) (path : Bytes) (size : UInt64) : TarWriter :=
  { tw.put (tarHeader path size (tw.clock.headD 0)).bytes with clock := tw.clock.tail }

/-- `write_padding`. -/
def writePadding (tw : TarWriter) : TarWriter :=
  let mod := tw.totalWritten % 512
  if mod ≠ 0 then tw.put (List.replicate (512 - mod).toNat 0) else tw

/-- The components of a path with slashes between them. -/
def joinPath (path : List Bytes) : Bytes := [47].intercalate path

/-- The switch to a new file: its header. A path that overflows `full_path` is undefined. -/
def enterFile (tw : TarWriter) (i : Nat) (f : FileT) : Option TarWriter :=
  if Int32.ofNat i ≠ tw.currentFileIndex then
    if (joinPath f.path).length < pathLen then
      let tw := writeHeader tw (joinPath f.path) f.length
      some { tw with currentFileIndex := Int32.ofNat i, fileBytesWritten := 0 }
    else none
  else some tw

/-- The body of the loop of `tar_writer_write`, for file `i` that starts at `fileStart`. -/
def writeFilePart (pieceStart pieceEnd : UInt64) (data : Bytes) (i : Nat) (f : FileT)
    (fileStart : UInt64) (tw : TarWriter) : Option TarWriter :=
  let fileEnd := fileStart + f.length
  let overlapStart := if pieceStart > fileStart then pieceStart else fileStart
  let overlapEnd := if pieceEnd < fileEnd then pieceEnd else fileEnd
  if overlapStart < overlapEnd then do
    let offsetInFile := overlapStart - fileStart
    let offsetInPiece := overlapStart - pieceStart
    let bytes := overlapEnd - overlapStart
    let tw ← enterFile tw i f
    let tw := tw.put ((data.drop offsetInPiece.toNat).take bytes.toNat)
    let tw := { tw with fileBytesWritten := tw.fileBytesWritten + bytes }
    return if offsetInFile + bytes = f.length then writePadding tw else tw
  else some tw

/-- The loop of `tar_writer_write` over the files from `i` on. -/
def writeFileParts (pieceStart pieceEnd : UInt64) (data : Bytes) :
    Nat → UInt64 → List FileT → TarWriter → Option TarWriter
  | _, _, [], tw => some tw
  | i, fileStart, f :: files, tw => do
    let tw ← writeFilePart pieceStart pieceEnd data i f fileStart tw
    writeFileParts pieceStart pieceEnd data (i + 1) (fileStart + f.length) files tw

/-- `tar_writer_write`; `none` if its behaviour is undefined. -/
def tarWriterWrite (tw : TarWriter) (pieceIndex : UInt32) (data : Bytes) (len : UInt32) :
    Option TarWriter :=
  let pieceStart := pieceIndex.toUInt64 * tw.tor.pieceLength.toUInt64
  let pieceEnd := pieceStart + len.toUInt64
  writeFileParts pieceStart pieceEnd data 0 0 tw.tor.files tw

/-- `tar_writer_close`. -/
def tarWriterClose (tw : TarWriter) : TarWriter :=
  let tw :=
    if 0 ≤ tw.currentFileIndex then
      match tw.tor.files[tw.currentFileIndex.toInt.toNat]? with
      | some f => if tw.fileBytesWritten < f.length then writePadding tw else tw
      | none => tw
    else tw
  { tw with out := tw.out.fwrite (List.replicate 1024 0) }

end CourseWork.Torrent
