import CourseWork.Lib.CLib
import CourseWork.Lib.Numeral

/-!
# File names in a ZIP archive

`extract_files`: a scan for the signatures of local file headers in buffers of 8192 bytes.
Where a signature is found too close to the end of the buffer, the function rolls back in
the file and reads again.
-/

namespace CourseWork.Zip
open CLib

/-- The file that is read. -/
structure Input where
  size : Nat
  byte : Nat → UInt8

/-- Why a run has no result: its behaviour is undefined, or it takes more reads than the
model was given. -/
inductive Stop where
  | undefined
  | unfinished
  deriving DecidableEq

/-- `ZIP_SIGNATURE`. -/
def zipSignature : UInt32 := 0x504b0304

/-- The size of `buffer`. -/
def bufferSize : Nat := 8192

/-- The size of `f_name`. -/
def fNameSize : Nat := 256

/-- A record that is reported: where its signature starts (which is not printed), and the
bytes that are copied to `f_name`. -/
structure Record where
  start : Nat
  name : Bytes
  deriving DecidableEq

/-- `buffer[k]`. -/
def bufferAt (buffer : Nat → UInt8) (k : Nat) : Except Stop UInt8 :=
  if k < bufferSize then .ok (buffer k) else .error .undefined

/-- The copy of `len` bytes from index `k` on to `f_name`, which has to hold a terminator
too. -/
def copyName (buffer : Nat → UInt8) (k len : Nat) : Except Stop Bytes :=
  if len < fNameSize then (List.range len).mapM fun n => bufferAt buffer (k + n)
  else .error .undefined

/-- The window moved by one byte. -/
def moveWindow (window : UInt32) (b : UInt8) : UInt32 := window <<< 8 ||| (b.toUInt32 &&& 0xFF)

/-- The loop over the buffer, with `bytes` bytes from position `pos` of the file: `n` rounds
from index `i` on. The result are `offset`, the window and the records. -/
def scanLoop (buffer : Nat → UInt8) (bytes pos : Nat) :
    Nat → Nat → UInt32 → List Record → Except Stop (Nat × UInt32 × List Record)
  | 0, _, window, records => .ok (3, window, records)
  | n + 1, i, window, records => do
    let window := moveWindow window (← bufferAt buffer i)
    if window = zipSignature then
      -- The length and the signature are not in the same buffer.
      if i + 24 > bytes then return (24, window, records)
      else
        let len := ((← bufferAt buffer (i + 23)) ||| (← bufferAt buffer (i + 24))).toNat
        -- The name and the signature are not in the same buffer.
        if i + 27 + len > bytes then return (i + 27 + len - bytes, window, records)
        else
          let fName ← copyName buffer (i + 27) len
          scanLoop buffer bytes pos n (i + 1) window (records ++ [⟨pos + i - 3, fName⟩])
    else scanLoop buffer bytes pos n (i + 1) window records

/-- The state before a read: the position in the file, the buffer, the window, and the
records reported so far. -/
structure ReadState where
  pos : Nat
  buffer : Nat → UInt8
  window : UInt32
  records : List Record

/-- The number of bytes that `fread` delivers. -/
def ReadState.bytes (file : Input) (st : ReadState) : Nat := min bufferSize (file.size - st.pos)

/-- The buffer behind `fread`; what was not overwritten stays. -/
def ReadState.read (file : Input) (st : ReadState) (k : Nat) : UInt8 :=
  if k < st.bytes file then file.byte (st.pos + k) else st.buffer k

/-- The body of the loop over the reads. -/
def readOnce (file : Input) (st : ReadState) : Except Stop ReadState := do
  let bytes := st.bytes file
  let buffer := st.read file
  let (offset, window, records) ← scanLoop buffer bytes st.pos bytes 0 st.window st.records
  let pos := st.pos + bytes
  return ⟨if bytes > offset then pos - offset else pos, buffer, window, records⟩

/-- The loop over the reads. -/
def readLoop (file : Input) : Nat → ReadState → Except Stop (List Record)
  | 0, _ => .error .unfinished
  | rounds + 1, st => do
    if 0 < st.bytes file then readLoop file rounds (← readOnce file st)
    else return st.records

/-- What `extract_files` leaves: the records with the text that it prints for them, and its
result. -/
structure Extraction where
  records : List Record
  text : Bytes
  found : Bool
  deriving DecidableEq

/-- The lines of the records, their number, and the result. -/
def report (records : List Record) : Extraction where
  records := records
  text := records.flatMap (fun r => cstr r.name ++ [10]) ++ ascii "Total records = " ++
    Numeral.print 10 records.length ++ [10]
  found := records.length ≠ 0

/-- `extract_files`; `garbage` is in the buffer before the first read. Every read but the
last one gets further, so that the size of the file bounds their number. -/
def extractFiles (file : Input) (garbage : Nat → UInt8) : Except Stop Extraction :=
  (readLoop file (file.size + 1) ⟨0, garbage, 0, []⟩).map report

end CourseWork.Zip
