import CourseWork.Lib.CLib
import CourseWork.Lib.HashTable

/-!
# Log parser

Parsing of log lines, the tables of URLs and referers, and the threads that share the
files. All allocations succeed and the counters do not overflow.
-/

namespace CourseWork.LogParser
open CLib HashTable

/-! ## Tables -/

/-- `HASH_TABLE_SIZE`. -/
def hashTableSize : Nat := 2048

/-- `BYTES_LEN`. -/
def bytesLen : Nat := 32

/-- `hash_string`, with `HASH_BASE`. -/
def hashString (str : Bytes) : UInt64 :=
  str.foldl (fun hash c => ((hash <<< 5) + hash) + c.toUInt64) 5381

/-- The hash as the index of a bucket is computed from it. -/
def hash (str : Bytes) : Nat := (hashString str).toNat

/-- The summed bytes of each URL. -/
abbrev UrlHashTable := Table Bytes Int

/-- The count of each referer. -/
abbrev RefererHashTable := Table Bytes Nat

/-- `update_url_table`. -/
def updateUrlTable (table : UrlHashTable) (url : Bytes) (bytes : Int) : UrlHashTable :=
  if url = [] then table else table.update hash url bytes

/-- `update_referer_table`. -/
def updateRefererTable (table : RefererHashTable) (referer : Bytes) : RefererHashTable :=
  if referer = [] ∨ referer = ascii "-" then table else table.update hash referer 1

/-- `merge_url_tables`. -/
def mergeUrlTables (src dst : UrlHashTable) : UrlHashTable :=
  src.buckets.foldl
    (fun dst chain => chain.foldl (fun dst current => updateUrlTable dst current.1 current.2) dst) dst

/-- `count` updates with one referer. -/
def updateRepeatedly (dst : RefererHashTable) (referer : Bytes) : Nat → RefererHashTable
  | 0 => dst
  | count + 1 => updateRepeatedly (updateRefererTable dst referer) referer count

/-- `merge_referer_tables`. -/
def mergeRefererTables (src dst : RefererHashTable) : RefererHashTable :=
  src.buckets.foldl
    (fun dst chain => chain.foldl (fun dst current => updateRepeatedly dst current.1 current.2) dst)
    dst

/-! ## Lines -/

/-- `skip_spaces` and `SKIP_SPACES`. -/
def skipSpaces (p : Bytes) : Bytes := p.dropWhile isSpace

/-- `skip_chars` and `SKIP_CHARS`. -/
def skipChars (p : Bytes) : Bytes := p.dropWhile (!isSpace ·)

/-- What `parse_log_line` returns. -/
structure LogLine where
  url : Bytes
  bytes : Int
  referer : Option Bytes
  deriving DecidableEq

/-- `parse_log_line` from the bytes on: `p` is behind the request. -/
def parseBytes (url p : Bytes) : Option LogLine :=
  let p := skipSpaces (skipChars (skipSpaces p))
  let bytesStr := (p.takeWhile (!isSpace ·)).take (bytesLen - 1)
  let bytes := (strtol bytesStr).1
  let p := skipSpaces (skipChars p)
  if p.head? ≠ some 34 then some ⟨url, bytes, none⟩
  else
    let ref := p.tail.takeWhile (· != 34)
    if p.tail.dropWhile (· != 34) = [] then none
    else if ref.all (· == 45) then some ⟨url, bytes, none⟩
    else some ⟨url, bytes, some ref⟩

/-- `parse_log_line` on a C string. -/
def parseLogLine (line : Bytes) : Option LogLine :=
  let p := skipSpaces (skipChars (skipSpaces (skipChars (skipSpaces (skipChars line)))))
  if p.head? ≠ some 91 then none
  else
    let p := p.dropWhile (· != 93)
    if p = [] then none
    else
      let p := skipSpaces p.tail
      if p.head? ≠ some 34 then none
      else
        let p := skipSpaces (skipChars p.tail)
        let url := p.takeWhile fun c => !isSpace c && c != 34
        let p := p.dropWhile fun c => !isSpace c && c != 34
        if url = [] then none
        else
          let p := p.dropWhile (· != 34)
          if p = [] then none
          else parseBytes url p.tail

/-! ## Files -/

/-- The tables and the total of a thread. -/
structure ThreadData where
  urlTable : UrlHashTable
  refererTable : RefererHashTable
  threadTotalBytes : Int

/-- The lines that `getline` returns one after another. -/
def getLines : Bytes → List Bytes
  | [] => []
  | c :: rest =>
    if c = 10 then [c] :: getLines rest
    else
      match getLines rest with
      | [] => [[c]]
      | line :: lines => (c :: line) :: lines

/-- The C string of a line, without its newline. -/
def chomp (line : Bytes) : Bytes :=
  cstr (if line.getLast? = some 10 then line.dropLast else line)

/-- What a line adds to the tables. -/
def account (r : LogLine) (data : ThreadData) : ThreadData where
  threadTotalBytes := data.threadTotalBytes + r.bytes
  urlTable := if r.url ≠ [] then updateUrlTable data.urlTable r.url r.bytes else data.urlTable
  refererTable :=
    match r.referer with
    | some referer =>
      if referer ≠ [] then updateRefererTable data.refererTable referer else data.refererTable
    | none => data.refererTable

/-- The body of the loop of `process_file`. -/
def processLine (data : ThreadData) (line : Bytes) : ThreadData :=
  if line.length ≤ 1 then data
  else
    match parseLogLine (chomp line) with
    | some r => account r data
    | none => data

/-- A file that may fail to open. -/
abbrev File := Option Bytes

/-- `process_file`. -/
def processFile (file : File) (data : ThreadData) : ThreadData :=
  match file with
  | none => data
  | some content => (getLines content).foldl processLine data

/-- Empty tables. -/
def ThreadData.create (size : Nat) : ThreadData := ⟨Table.create size, Table.create size, 0⟩

/-! ## Threads -/

/-- Where a thread is in `thread_func`. -/
inductive Thread
  | created
  /-- Before it claims a file. -/
  | claiming (data : ThreadData)
  | processing (data : ThreadData) (fileIndex : Nat)
  /-- After its last file. -/
  | merging (data : ThreadData)
  | exited

/-- The shared variables, and the threads. -/
structure Program (n : Nat) where
  nextFileIndex : Nat
  totalBytes : Int
  globalUrlTable : UrlHashTable
  globalRefererTable : RefererHashTable
  thread : Fin n → Thread

variable {n : Nat}

/-- `main` up to the creation of the threads. -/
def Program.main (n : Nat) : Program n where
  nextFileIndex := 0
  totalBytes := 0
  globalUrlTable := Table.create (hashTableSize * 2)
  globalRefererTable := Table.create (hashTableSize * 2)
  thread _ := .created

/-- The thread goes on. -/
def Program.setThread (p : Program n) (t : Fin n) (thread : Thread) : Program n :=
  { p with thread := Function.update p.thread t thread }

/-- A step of thread `t`: its tables are created, a file is claimed under `file_mutex` or
processed, or the tables are merged under `stats_mutex`. -/
def Program.step (files : List File) (p : Program n) (t : Fin n) : Option (Program n) :=
  match p.thread t with
  | .created => some (p.setThread t (.claiming (.create hashTableSize)))
  | .claiming data =>
    if p.nextFileIndex < files.length then
      some { p.setThread t (.processing data p.nextFileIndex) with
        nextFileIndex := p.nextFileIndex + 1 }
    else some (p.setThread t (.merging data))
  | .processing data fileIndex =>
    some (p.setThread t (.claiming (processFile (files[fileIndex]?.getD none) data)))
  | .merging data =>
    some { p.setThread t .exited with
      totalBytes := p.totalBytes + data.threadTotalBytes
      globalUrlTable := mergeUrlTables data.urlTable p.globalUrlTable
      globalRefererTable := mergeRefererTables data.refererTable p.globalRefererTable }
  | .exited => none

end CourseWork.LogParser
