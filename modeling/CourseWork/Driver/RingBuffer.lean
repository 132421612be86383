import CourseWork.Lib.CLib
import CourseWork.Lib.Cyclic

/-!
# Ring buffer

The `ring_buffer_*` functions of the character device, each as one atomic operation, where
all allocations succeed. A `memcpy` that leaves a buffer is `none`.
-/

namespace CourseWork.Driver
open CLib

/-- `MIN_BUFFER_SIZE`. -/
def minBufferSize : Nat := 256

/-- `MAX_BUFFER_SIZE`. -/
def maxBufferSize : Nat := 65536

/-- `EINVAL`. -/
def einval : Int := 22

/-- `ENOSPC`. -/
def enospc : Int := 28

/-- `struct ring_buffer` without its lock and its wait queues. -/
@[ext]
structure RingBuffer where
  buffer : Bytes
  size : Nat
  head : Nat
  tail : Nat
  count : Nat
  writes : UInt64
  reads : UInt64
  overruns : UInt64
  blocking : Bool
  deriving DecidableEq

/-- `memcpy` of `n` bytes from position `j` of `src` to position `i` of `dst`. -/
def memcpy (dst : Bytes) (i : Nat) (src : Bytes) (j n : Nat) : Option Bytes :=
  if i + n ≤ dst.length ∧ j + n ≤ src.length then
    some (dst.take i ++ (src.drop j).take n ++ dst.drop (i + n))
  else none

/-- `kmalloc`, with what the memory holds. -/
def kmalloc (mem : Nat → UInt8) (size : Nat) : Bytes := (List.range size).map mem

/-- `ring_buffer_init`. -/
def ringBufferInit (mem : Nat → UInt8) (size : Nat) : Except Int RingBuffer :=
  if size < minBufferSize ∨ size > maxBufferSize then .error (-einval)
  else .ok {
    buffer := kmalloc mem size
    size := size
    head := 0
    tail := 0
    count := 0
    blocking := true
    writes := 0
    reads := 0
    overruns := 0 }

/-- `ring_buffer_write`. -/
def ringBufferWrite (rb : RingBuffer) (data : Bytes) : Option (Int × RingBuffer) :=
  let freeSpace := rb.size - rb.count
  if freeSpace = 0 then some (-enospc, { rb with overruns := rb.overruns + 1 })
  else do
    let len := min data.length freeSpace
    let firstChunk := min len (rb.size - rb.head)
    let buffer ← memcpy rb.buffer rb.head data 0 firstChunk
    if len > firstChunk then
      let secondChunk := len - firstChunk
      let buffer ← memcpy buffer 0 data firstChunk secondChunk
      return (len, { rb with
        buffer := buffer
        head := secondChunk
        count := rb.count + len
        writes := rb.writes + 1 })
    else
      return (len, { rb with
        buffer := buffer
        head := (rb.head + len) % rb.size
        count := rb.count + len
        writes := rb.writes + 1 })

/-- `ring_buffer_read` into `data`: the result, and `data` after it. -/
def ringBufferRead (rb : RingBuffer) (data : Bytes) : Option (Int × Bytes × RingBuffer) :=
  if rb.count = 0 then some (0, data, rb)
  else do
    let available := min data.length rb.count
    let firstChunk := min available (rb.size - rb.tail)
    let data ← memcpy data 0 rb.buffer rb.tail firstChunk
    if available > firstChunk then
      let secondChunk := available - firstChunk
      let data ← memcpy data firstChunk rb.buffer 0 secondChunk
      return (available, data, { rb with
        tail := secondChunk
        count := rb.count - available
        reads := rb.reads + 1 })
    else
      return (available, data, { rb with
        tail := (rb.tail + available) % rb.size
        count := rb.count - available
        reads := rb.reads + 1 })

/-- `ring_buffer_clear`. -/
def ringBufferClear (rb : RingBuffer) : RingBuffer := { rb with head := 0, tail := 0, count := 0 }

/-- The bytes that `ring_buffer_resize` copies through `temp_buf`. -/
def copyOut (rb : RingBuffer) (tempBuf : Bytes) (toCopy : Nat) : Option Bytes := do
  let first := min toCopy (rb.size - rb.tail)
  let tempBuf ← memcpy tempBuf 0 rb.buffer rb.tail first
  if toCopy > first then memcpy tempBuf first rb.buffer 0 (toCopy - first)
  else return tempBuf

/-- `ring_buffer_resize`; `mem` and `tempMem` is what the new memory holds. -/
def ringBufferResize (mem tempMem : Nat → UInt8) (rb : RingBuffer) (newSize : Nat) :
    Option (Int × RingBuffer) :=
  if newSize < minBufferSize ∨ newSize > maxBufferSize then some (-einval, rb)
  else
    let newRb := { rb with
      buffer := kmalloc mem newSize
      size := newSize
      head := 0
      tail := 0
      count := 0 }
    if rb.count > 0 then do
      let toCopy := min rb.count newSize
      let tempBuf ← copyOut rb (kmalloc tempMem toCopy) toCopy
      let buffer ← memcpy newRb.buffer 0 tempBuf 0 toCopy
      return (0, { newRb with buffer := buffer, count := toCopy, head := toCopy % newSize })
    else some (0, newRb)

end CourseWork.Driver
