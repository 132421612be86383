import CourseWork.Driver.Resize

/-!
# System calls that fail

`rb_read`, `rb_write` and `rb_ioctl` from entry to return. Both allocations, the copy from or
to the user and the wait may fail, and other callers may use the device before the call does.
-/

namespace CourseWork.Driver
open CLib Cyclic

/-- `ENOTTY`. -/
def enotty : Int := 25

/-- `ERESTARTSYS`. -/
def erestartsys : Int := 512

/-! ## What a user sees of the ring buffer -/

/-- The queue is the same. -/
structure SameQueue (rb rb' : RingBuffer) : Prop where
  size : rb'.size = rb.size
  count : rb'.count = rb.count
  contents : rb'.contents = rb.contents

/-- The statistics are the same. -/
structure SameStatistics (rb rb' : RingBuffer) : Prop where
  writes : rb'.writes = rb.writes
  reads : rb'.reads = rb.reads
  overruns : rb'.overruns = rb.overruns

theorem SameQueue.refl (rb : RingBuffer) : SameQueue rb rb := ⟨rfl, rfl, rfl⟩

theorem SameStatistics.refl (rb : RingBuffer) : SameStatistics rb rb := ⟨rfl, rfl, rfl⟩

/-! ## Resizing -/

/-- `ring_buffer_resize`; `newBuffer` and `tempBuf` are what the calls of `kmalloc` return. -/
def ringBufferResizeAlloc (newBuffer tempBuf : Option (Nat → UInt8)) (rb : RingBuffer)
    (newSize : Nat) : Option (Int × RingBuffer) :=
  if newSize < minBufferSize ∨ newSize > maxBufferSize then some (-einval, rb)
  else
    match newBuffer with
    | none => some (-enomem, rb)
    | some mem => (newRb mem tempBuf rb newSize).map fun rb => (0, rb)

section

variable {newSize : Nat}

theorem ringBufferResizeAlloc_invalid (newBuffer tempBuf : Option (Nat → UInt8)) (rb : RingBuffer)
    (hinvalid : newSize < minBufferSize ∨ newSize > maxBufferSize) :
    ringBufferResizeAlloc newBuffer tempBuf rb newSize = some (-einval, rb) := if_pos hinvalid

theorem ringBufferResizeAlloc_none (tempBuf : Option (Nat → UInt8)) (rb : RingBuffer)
    (hvalid : ¬(newSize < minBufferSize ∨ newSize > maxBufferSize)) :
    ringBufferResizeAlloc none tempBuf rb newSize = some (-enomem, rb) := if_neg hvalid

theorem ringBufferResizeAlloc_some (mem : Nat → UInt8) (tempBuf : Option (Nat → UInt8))
    (rb : RingBuffer) (hvalid : ¬(newSize < minBufferSize ∨ newSize > maxBufferSize)) :
    ringBufferResizeAlloc (some mem) tempBuf rb newSize =
      (newRb mem tempBuf rb newSize).map fun rb => (0, rb) := if_neg hvalid

end

/-- The call resizes, and keeps the oldest bytes that fit, or it changes nothing. -/
def AllOrNothing (rb : RingBuffer) (newSize : Nat) (result : Int) (rb' : RingBuffer) : Prop :=
  (result < 0 ∧ SameQueue rb rb' ∧ SameStatistics rb rb') ∨
  (result = 0 ∧ rb'.size = newSize ∧ rb'.contents = rb.contents.take (min rb.count newSize) ∧
    rb'.count = min rb.count newSize ∧ rb'.blocking = rb.blocking ∧ SameStatistics rb rb')

section Resize

variable {rb : RingBuffer} {newSize : Nat}

/-- Bytes are queued, the new buffer is there, and the temporary one is not. -/
def ResizeDrops (newBuffer tempBuf : Option (Nat → UInt8)) (rb : RingBuffer) (newSize : Nat) :
    Prop :=
  minBufferSize ≤ newSize ∧ newSize ≤ maxBufferSize ∧ newBuffer.isSome ∧ tempBuf = none ∧
    0 < rb.count

/-- With `temp_buf` the new structure has what the queue keeps. -/
theorem newRb_some (h : Valid rb) (mem tempMem : Nat → UInt8)
    (hvalid : ¬(newSize < minBufferSize ∨ newSize > maxBufferSize)) :
    ∃ rb', newRb mem (some tempMem) rb newSize = some rb' ∧ Valid rb' ∧ rb'.size = newSize ∧
      rb'.contents = rb.contents.take newSize ∧ rb'.blocking = rb.blocking ∧
      SameStatistics rb rb' := by
  obtain ⟨rb', hresize, hrepresents⟩ := h.represents.resize mem tempMem newSize
  have hqueue : (h.queue.resize newSize).2 = ⟨rb.contents.take newSize, newSize,
      List.length_take_le _ _⟩ := by
    rw [Queue.resize, if_neg hvalid]
    rfl
  rw [ringBufferResize_eq mem tempMem rb hvalid] at hresize
  obtain ⟨rb'', hnew, heq⟩ := Option.map_eq_some_iff.mp hresize
  obtain ⟨_, rfl⟩ := Prod.mk.inj heq
  rw [hqueue] at hrepresents
  refine ⟨rb'', hnew, hrepresents.valid, hrepresents.size, hrepresents.contents, ?_⟩
  rw [newRb] at hnew
  dsimp only at hnew
  split at hnew
  · obtain ⟨tempBuf, _, hnew⟩ := Option.bind_eq_some_iff.mp hnew
    obtain ⟨buffer, _, hnew⟩ := Option.bind_eq_some_iff.mp hnew
    cases hnew
    exact ⟨rfl, rfl, rfl, rfl⟩
  · cases hnew
    exact ⟨rfl, rfl, rfl, rfl⟩

/-- The new structure before anything is copied into it. -/
def freshRb (mem : Nat → UInt8) (rb : RingBuffer) (newSize : Nat) : RingBuffer :=
  { rb with
    buffer := kmalloc mem newSize
    size := newSize
    head := 0
    tail := 0
    count := 0 }

/-- Without `temp_buf` nothing is copied. -/
theorem newRb_none (mem : Nat → UInt8) :
    newRb mem none rb newSize = some (freshRb mem rb newSize) := ite_self _

theorem not_allOrNothing_freshRb (mem : Nat → UInt8) (hcount : 0 < rb.count)
    (hvalid : ¬(newSize < minBufferSize ∨ newSize > maxBufferSize)) :
    ¬AllOrNothing rb newSize 0 (freshRb mem rb newSize) := by
  have hmin : 256 ≤ newSize := Nat.le_of_not_lt (not_or.mp hvalid).1
  rintro (⟨hresult, _⟩ | ⟨_, _, _, hkept, _⟩)
  · exact absurd hresult (by decide)
  · have hzero : min rb.count newSize = 0 := hkept.symm
    omega

/-- Resizing is all or nothing exactly if it does not lack `temp_buf` for a queue that is not
empty. -/
theorem ringBufferResizeAlloc_allOrNothing_iff (h : Valid rb)
    (newBuffer tempBuf : Option (Nat → UInt8)) (newSize : Nat) :
    ∃ result rb', ringBufferResizeAlloc newBuffer tempBuf rb newSize = some (result, rb') ∧
      (AllOrNothing rb newSize result rb' ↔ ¬ResizeDrops newBuffer tempBuf rb newSize) := by
  by_cases hinvalid : newSize < minBufferSize ∨ newSize > maxBufferSize
  · rw [ringBufferResizeAlloc_invalid _ _ _ hinvalid]
    refine ⟨-einval, rb, rfl, iff_of_true ?_ ?_⟩
    · exact .inl ⟨by decide, .refl rb, .refl rb⟩
    · rintro ⟨hmin, hmax, _⟩
      omega
  · obtain ⟨hmin, hmax⟩ := not_or.mp hinvalid
    cases newBuffer with
    | none =>
      rw [ringBufferResizeAlloc_none _ _ hinvalid]
      refine ⟨-enomem, rb, rfl, iff_of_true ?_ ?_⟩
      · exact .inl ⟨by decide, .refl rb, .refl rb⟩
      · rintro ⟨_, _, hnew, _⟩
        cases hnew
    | some mem =>
      rw [ringBufferResizeAlloc_some _ _ _ hinvalid]
      cases tempBuf with
      | some tempMem =>
        obtain ⟨rb', hnew, hrb', hsize, hcontents, hblocking, hstatistics⟩ :=
          newRb_some h mem tempMem hinvalid
        have htake : rb.contents.take newSize = rb.contents.take (min rb.count newSize) := by
          rw [List.take_eq_take_min, h.length_contents, Nat.min_comm]
        have hcount : rb'.count = min rb.count newSize := by
          rw [← hrb'.length_contents, hcontents, List.length_take, h.length_contents, Nat.min_comm]
        rw [hnew]
        refine ⟨0, rb', rfl, iff_of_true ?_ ?_⟩
        · exact .inr ⟨rfl, hsize, hcontents.trans htake, hcount, hblocking, hstatistics⟩
        · rintro ⟨_, _, _, htemp, _⟩
          cases htemp
      | none =>
        rw [newRb_none]
        refine ⟨0, freshRb mem rb newSize, rfl, ?_⟩
        by_cases hcount : rb.count = 0
        · refine iff_of_true (.inr ⟨rfl, rfl, ?_, ?_, rfl, rfl, rfl, rfl⟩) ?_
          · rw [hcount, Nat.zero_min, List.take_zero]
            exact window_zero _ _
          · rw [hcount, Nat.zero_min]
            rfl
          · rintro ⟨_, _, _, _, hpos⟩
            omega
        · refine iff_of_false (not_allOrNothing_freshRb mem (by omega) hinvalid) (not_not_intro ?_)
          exact ⟨Nat.le_of_not_lt hmin, Nat.le_of_not_lt hmax, rfl, rfl, by omega⟩

/-- A queue of one byte is resized, and keeps it. -/
theorem ringBufferResizeAlloc_allOrNothing_iff_oneByte :
    ∃ result rb', ringBufferResizeAlloc (some fun _ => 0) (some fun _ => 0) oneByte 512 =
      some (result, rb') ∧ AllOrNothing oneByte 512 result rb' := by
  obtain ⟨result, rb', hresize, hiff⟩ := ringBufferResizeAlloc_allOrNothing_iff valid_oneByte
    (some fun _ => 0) (some fun _ => 0) 512
  refine ⟨result, rb', hresize, hiff.mpr ?_⟩
  rintro ⟨_, _, _, htemp, _⟩
  cases htemp

/-- The queue of one byte loses it when `temp_buf` is missing, and the call reports success. -/
theorem ringBufferResizeAlloc_drops :
    ∃ rb newSize rb', Valid rb ∧
      ringBufferResizeAlloc (some fun _ => 0) none rb newSize = some (0, rb') ∧
      rb.contents = [7] ∧ rb'.contents = [] ∧ ¬AllOrNothing rb newSize 0 rb' := by
  have hresize : ringBufferResizeAlloc (some fun _ => 0) none oneByte 512 =
      some (0, freshRb (fun _ => 0) oneByte 512) := by
    rw [ringBufferResizeAlloc_some _ _ _ (by decide), newRb_none, Option.map_some]
  refine ⟨oneByte, 512, _, valid_oneByte, hresize, ?_, window_zero _ _, ?_⟩
  · decide +kernel
  · exact not_allOrNothing_freshRb _ (by decide) (by decide)

end Resize

/-! ## The calls -/

/-- What the kernel answers during a call, and what others do meanwhile. -/
structure Kernel where
  /-- What `kmalloc` returns for `kbuf`, or for the new buffer of a resize. -/
  kbuf : Option (Nat → UInt8)
  /-- What it returns for `temp_buf`. -/
  tempBuf : Option (Nat → UInt8)
  /-- The copy from or to the user fails. No call makes two. -/
  copyFails : Bool
  /-- A signal ends the wait. -/
  signal : Bool
  /-- What other callers make of the ring buffer before the call works on it. -/
  others : RingBuffer → RingBuffer

/-- `struct rb_stats`. -/
structure RbStats where
  size : Nat
  used : Nat
  free : Nat
  writes : UInt64
  reads : UInt64
  overruns : UInt64
  deriving DecidableEq

/-- What a call copies to the user. -/
inductive UserData
  | nothing
  | bytes (data : Bytes)
  | size (tmp : Nat)
  | stats (stats : RbStats)
  deriving DecidableEq

/-- How a call returns, with the ring buffer as the call finds it and as it leaves it. -/
structure Return where
  result : Int
  copied : UserData
  found : RingBuffer
  left : RingBuffer
  deriving DecidableEq

/-- A return that leaves the ring buffer alone. -/
def Return.unchanged (result : Int) (copied : UserData) (rb : RingBuffer) : Return :=
  ⟨result, copied, rb, rb⟩

/-- The return of a call that has reached this phase. -/
def Phase.toReturn (found left : RingBuffer) : Phase → Option Return
  | .readDone _ _ data result => some ⟨result, .bytes data, found, left⟩
  | .writeDone _ result => some ⟨result, .nothing, found, left⟩
  | _ => none

/-- `rb_read` from `ring_buffer_read` on. -/
def rbReadRest (k : Kernel) (rb : RingBuffer) (kbuf : Bytes) : Option Return := do
  let (phase, rb') ← rbReadFinish rb kbuf k.copyFails
  phase.toReturn rb rb'

/-- `rb_read`. -/
def rbRead (k : Kernel) (bufNull : Bool) (len : Nat) (rb : RingBuffer) : Option Return :=
  match rbReadStart rb bufNull k.kbuf len with
  | .readWait kbuf =>
    if k.signal then some (.unchanged (-erestartsys) .nothing (k.others rb))
    else rbReadRest k (k.others rb) kbuf
  | .reading kbuf => rbReadRest k (k.others rb) kbuf
  | phase => phase.toReturn rb rb

/-- `rb_write` from `ring_buffer_write` on. -/
def rbWriteRest (rb : RingBuffer) (kbuf : Bytes) : Option Return := do
  let (phase, rb') ← rbWriteFinish rb kbuf
  phase.toReturn rb rb'

/-- `rb_write` of the bytes at `buf`. -/
def rbWrite (k : Kernel) (bufNull : Bool) (buf : Bytes) (rb : RingBuffer) : Option Return :=
  match rbWriteStart rb bufNull k.kbuf k.copyFails buf with
  | .writeWait kbuf =>
    if k.signal then some (.unchanged (-erestartsys) .nothing (k.others rb))
    else rbWriteRest (k.others rb) kbuf
  | .writing kbuf => rbWriteRest (k.others rb) kbuf
  | phase => phase.toReturn rb rb

/-- The commands of `rb_ioctl`, with what they read at `arg`. -/
inductive Command
  | setSize (tmp : Nat)
  | getSize
  | getUsed
  | getFree
  | clear
  | setBlocking (blocking : Int)
  | getStats
  /-- Any other number. -/
  | unknown

/-- The end of the commands that copy something to the user. -/
def copyToUser (k : Kernel) (rb : RingBuffer) (data : UserData) : Return :=
  if k.copyFails then .unchanged (-efault) .nothing rb else .unchanged 0 data rb

/-- The commands of `rb_ioctl` on the ring buffer that they find. -/
def rbIoctlCommand (k : Kernel) (rb : RingBuffer) : Command → Option Return
  | .setSize tmp =>
    if k.copyFails then some (.unchanged (-efault) .nothing rb)
    else do
      let (ret, rb') ← ringBufferResizeAlloc k.kbuf k.tempBuf rb tmp
      return ⟨ret, .nothing, rb, rb'⟩
  | .getSize => some (copyToUser k rb (.size rb.size))
  | .getUsed => some (copyToUser k rb (.size rb.count))
  | .getFree => some (copyToUser k rb (.size (rb.size - rb.count)))
  | .clear => some ⟨0, .nothing, rb, ringBufferClear rb⟩
  | .setBlocking blocking =>
    if k.copyFails then some (.unchanged (-efault) .nothing rb)
    else some ⟨0, .nothing, rb, { rb with blocking := blocking ≠ 0 }⟩
  | .getStats =>
    some (copyToUser k rb (.stats {
      size := rb.size
      used := rb.count
      free := rb.size - rb.count
      writes := rb.writes
      reads := rb.reads
      overruns := rb.overruns }))
  | .unknown => some (.unchanged (-enotty) .nothing rb)

/-- `rb_ioctl`. -/
def rbIoctl (k : Kernel) (command : Command) (rb : RingBuffer) : Option Return :=
  rbIoctlCommand k (k.others rb) command

/-- A system call. -/
inductive Call
  | read (bufNull : Bool) (len : Nat)
  | write (bufNull : Bool) (buf : Bytes)
  | ioctl (command : Command)

/-- Runs the call. -/
def Call.run (k : Kernel) (rb : RingBuffer) : Call → Option Return
  | .read bufNull len => rbRead k bufNull len rb
  | .write bufNull buf => rbWrite k bufNull buf rb
  | .ioctl command => rbIoctl k command rb

/-! ## Failed calls -/

/-- If the call failed, the queue is as the call found it. -/
def Return.Intact (r : Return) : Prop := r.result < 0 → SameQueue r.found r.left

/-- A read takes bytes from the queue and cannot copy them to the user. -/
def Call.LosesBytes (k : Kernel) (rb : RingBuffer) : Call → Prop
  | .read bufNull len =>
    bufNull = false ∧ k.kbuf.isSome ∧ (if rb.blocking then k.signal = false else 0 < rb.count) ∧
      0 < len ∧ 0 < (k.others rb).count ∧ k.copyFails
  | _ => False

section Failed

variable {k : Kernel} {rb : RingBuffer}

theorem Return.intact_of_nonneg {r : Return} (h : 0 ≤ r.result) : r.Intact := fun hneg =>
  absurd hneg (by omega)

theorem Return.intact_unchanged (result : Int) (copied : UserData) (rb : RingBuffer) :
    (Return.unchanged result copied rb).Intact := fun _ => .refl rb

/-- What the first part of `rb_read` leads to. -/
theorem rbReadStart_cases (rb : RingBuffer) (bufNull : Bool) (kbuf : Option (Nat → UInt8))
    (len : Nat) :
    (∃ result, rbReadStart rb bufNull kbuf len = .readDone len false [] result ∧ result < 0 ∧
      ¬(bufNull = false ∧ kbuf.isSome ∧ (rb.blocking ∨ 0 < rb.count))) ∨
    (∃ mem, kbuf = some mem ∧ bufNull = false ∧ rb.blocking = true ∧
      rbReadStart rb bufNull kbuf len = .readWait (kmalloc mem len)) ∨
    (∃ mem, kbuf = some mem ∧ bufNull = false ∧ rb.blocking = false ∧ 0 < rb.count ∧
      rbReadStart rb bufNull kbuf len = .reading (kmalloc mem len)) := by
  cases bufNull with
  | true => exact .inl ⟨-efault, rfl, by decide, fun h => absurd h.1 (by decide)⟩
  | false =>
    cases kbuf with
    | none => exact .inl ⟨-enomem, rfl, by decide, fun h => absurd h.2.1 (by decide)⟩
    | some mem =>
      cases hblocking : rb.blocking with
      | true =>
        refine .inr (.inl ⟨mem, rfl, rfl, rfl, ?_⟩)
        rw [rbReadStart, if_neg Bool.false_ne_true]
        exact if_pos hblocking
      | false =>
        have hnot : ¬rb.blocking = true := by
          rw [hblocking]
          exact Bool.false_ne_true
        by_cases hcount : rb.count = 0
        · refine .inl ⟨-eagain, ?_, by decide, ?_⟩
          · rw [rbReadStart, if_neg Bool.false_ne_true]
            exact (if_neg hnot).trans (if_pos hcount)
          · rintro ⟨_, _, h | h⟩
            · cases h
            · omega
        · refine .inr (.inr ⟨mem, rfl, rfl, rfl, by omega, ?_⟩)
          rw [rbReadStart, if_neg Bool.false_ne_true]
          exact (if_neg hnot).trans (if_neg hcount)

/-- What the first part of `rb_write` leads to. -/
theorem rbWriteStart_cases (rb : RingBuffer) (bufNull : Bool) (kbuf : Option (Nat → UInt8))
    (copyFails : Bool) (buf : Bytes) :
    (∃ result, rbWriteStart rb bufNull kbuf copyFails buf = .writeDone buf.length result) ∨
    rbWriteStart rb bufNull kbuf copyFails buf = .writeWait buf ∨
    rbWriteStart rb bufNull kbuf copyFails buf = .writing buf := by
  cases bufNull with
  | true => exact .inl ⟨-efault, rfl⟩
  | false =>
    cases kbuf with
    | none => exact .inl ⟨-enomem, rfl⟩
    | some mem =>
      cases copyFails with
      | true => exact .inl ⟨-efault, rfl⟩
      | false =>
        by_cases hblocking : rb.blocking
        · exact .inr (.inl (if_pos hblocking))
        · exact .inr (.inr (if_neg hblocking))

/-- After its wait a read is intact unless it takes bytes and cannot copy them. -/
theorem rbReadRest_intact_iff (h : Valid rb) (kbuf : Bytes) :
    ∃ r, rbReadRest k rb kbuf = some r ∧ r.found = rb ∧
      (r.Intact ↔ ¬(0 < kbuf.length ∧ 0 < rb.count ∧ k.copyFails)) := by
  obtain ⟨rb', hread, hrepresents⟩ := h.represents.read kbuf
  have hitems : h.queue.items.length = rb.count := h.length_contents
  have hresult : (h.queue.read kbuf).1 = ((min kbuf.length rb.count : Nat) : Int) := by
    rw [Queue.read, hitems]
  have hcount : rb'.count = rb.count - kbuf.length := by
    rw [hrepresents.count, Queue.read, List.length_drop, hitems]
  rw [rbReadRest, rbReadFinish, hread, hresult]
  simp only [Option.bind_eq_bind, Option.bind_some]
  by_cases hlost : 0 < kbuf.length ∧ 0 < rb.count ∧ k.copyFails
  · obtain ⟨hlen, hqueued, hfails⟩ := hlost
    have hbranch : ((min kbuf.length rb.count : Nat) : Int) > 0 ∧ k.copyFails = true :=
      ⟨by omega, hfails⟩
    rw [if_pos hbranch]
    refine ⟨⟨-efault, .bytes [], rb, rb'⟩, rfl, rfl, iff_of_false (fun hintact => ?_)
      (not_not_intro ⟨hlen, hqueued, hfails⟩)⟩
    have hsame : rb'.count = rb.count := (hintact (show -efault < 0 by decide)).count
    omega
  · have hbranch : ¬(((min kbuf.length rb.count : Nat) : Int) > 0 ∧ k.copyFails = true) :=
      fun h => hlost ⟨by omega, by omega, h.2⟩
    rw [if_neg hbranch]
    exact ⟨_, rfl, rfl, iff_of_true (Return.intact_of_nonneg (Int.natCast_nonneg _)) hlost⟩

/-- After its wait a write fails only on a full queue, which it leaves full. -/
theorem rbWriteRest_intact (h : Valid rb) (kbuf : Bytes) :
    ∃ r, rbWriteRest rb kbuf = some r ∧ r.found = rb ∧ r.Intact := by
  rw [rbWriteRest, rbWriteFinish]
  by_cases hfull : rb.size - rb.count = 0
  · rw [ringBufferWrite_full kbuf hfull]
    exact ⟨_, rfl, rfl, fun _ => ⟨rfl, rfl, rfl⟩⟩
  · rw [ringBufferWrite_eq h kbuf hfull rfl]
    exact ⟨_, rfl, rfl, Return.intact_of_nonneg (Int.natCast_nonneg _)⟩

theorem copyToUser_intact (k : Kernel) (rb : RingBuffer) (data : UserData) :
    (copyToUser k rb data).found = rb ∧ (copyToUser k rb data).Intact := by
  rw [copyToUser]
  split
  · exact ⟨rfl, Return.intact_unchanged _ _ rb⟩
  · exact ⟨rfl, Return.intact_unchanged _ _ rb⟩

/-- A resize that fails changes nothing. -/
theorem ringBufferResizeAlloc_intact (h : Valid rb) (newBuffer tempBuf : Option (Nat → UInt8))
    (newSize : Nat) :
    ∃ result rb', ringBufferResizeAlloc newBuffer tempBuf rb newSize = some (result, rb') ∧
      (result < 0 → SameQueue rb rb') := by
  by_cases hinvalid : newSize < minBufferSize ∨ newSize > maxBufferSize
  · exact ⟨_, _, ringBufferResizeAlloc_invalid _ _ _ hinvalid, fun _ => .refl rb⟩
  · cases newBuffer with
    | none => exact ⟨_, _, ringBufferResizeAlloc_none _ _ hinvalid, fun _ => .refl rb⟩
    | some mem =>
      rw [ringBufferResizeAlloc_some _ _ _ hinvalid]
      cases tempBuf with
      | none =>
        rw [newRb_none]
        exact ⟨_, _, rfl, fun hneg => absurd hneg (by decide)⟩
      | some tempMem =>
        obtain ⟨rb', hnew, _⟩ := newRb_some h mem tempMem hinvalid
        rw [hnew]
        exact ⟨_, _, rfl, fun hneg => absurd hneg (by decide)⟩

/-- No command that fails has changed the queue. -/
theorem rbIoctlCommand_intact (h : Valid rb) (command : Command) :
    ∃ r, rbIoctlCommand k rb command = some r ∧ r.found = rb ∧ r.Intact := by
  cases command with
  | setSize tmp =>
    by_cases hfails : k.copyFails
    · exact ⟨_, if_pos hfails, rfl, Return.intact_unchanged _ _ rb⟩
    · obtain ⟨result, rb', hresize, hsame⟩ := ringBufferResizeAlloc_intact h k.kbuf k.tempBuf tmp
      refine ⟨⟨result, .nothing, rb, rb'⟩, (if_neg hfails).trans ?_, rfl, hsame⟩
      rw [hresize]
      rfl
  | getSize => exact ⟨_, rfl, copyToUser_intact k rb _⟩
  | getUsed => exact ⟨_, rfl, copyToUser_intact k rb _⟩
  | getFree => exact ⟨_, rfl, copyToUser_intact k rb _⟩
  | clear => exact ⟨_, rfl, rfl, Return.intact_of_nonneg (Int.le_refl 0)⟩
  | setBlocking blocking =>
    by_cases hfails : k.copyFails
    · exact ⟨_, if_pos hfails, rfl, Return.intact_unchanged _ _ rb⟩
    · exact ⟨_, if_neg hfails, rfl, Return.intact_of_nonneg (Int.le_refl 0)⟩
  | getStats => exact ⟨_, rfl, copyToUser_intact k rb _⟩
  | unknown => exact ⟨_, rfl, rfl, Return.intact_unchanged _ _ rb⟩

/-- Only a blocking or a non-empty buffer leads a read to its wait or its lock. -/
theorem rbRead_intact_iff (hothers : Valid (k.others rb)) (bufNull : Bool) (len : Nat) :
    ∃ r, rbRead k bufNull len rb = some r ∧ (r.found = rb ∨ r.found = k.others rb) ∧
      (r.Intact ↔ ¬(Call.read bufNull len).LosesBytes k rb) := by
  rw [rbRead]
  rcases rbReadStart_cases rb bufNull k.kbuf len with
    ⟨result, hstart, _, hnever⟩ | ⟨mem, hkbuf, hbuf, hblocking, hstart⟩ |
    ⟨mem, hkbuf, hbuf, hblocking, hcount, hstart⟩
  · rw [hstart]
    refine ⟨_, rfl, .inl rfl, iff_of_true (fun _ => .refl rb) ?_⟩
    rintro ⟨hbuf, hkbuf, hwait, _⟩
    refine hnever ⟨hbuf, hkbuf, ?_⟩
    split at hwait
    · next hblocking => exact .inl hblocking
    · exact .inr hwait
  · rw [hstart]
    dsimp only
    by_cases hsignal : k.signal
    · rw [if_pos hsignal]
      refine ⟨_, rfl, .inr rfl, iff_of_true (Return.intact_unchanged _ _ _) ?_⟩
      rintro ⟨_, _, hwait, _⟩
      rw [if_pos hblocking, hsignal] at hwait
      cases hwait
    · rw [if_neg hsignal]
      obtain ⟨r, hrest, hfound, hintact⟩ := rbReadRest_intact_iff (k := k) hothers (kmalloc mem len)
      refine ⟨r, hrest, .inr hfound, hintact.trans (not_congr ?_)⟩
      rw [length_kmalloc, Call.LosesBytes, if_pos hblocking, hkbuf]
      exact ⟨fun h => ⟨hbuf, rfl, Bool.eq_false_iff.mpr hsignal, h⟩, fun h => h.2.2.2⟩
  · rw [hstart]
    obtain ⟨r, hrest, hfound, hintact⟩ := rbReadRest_intact_iff (k := k) hothers (kmalloc mem len)
    have hnot : ¬rb.blocking = true := by
      rw [hblocking]
      exact Bool.false_ne_true
    refine ⟨r, hrest, .inr hfound, hintact.trans (not_congr ?_)⟩
    rw [length_kmalloc, Call.LosesBytes, if_neg hnot, hkbuf]
    exact ⟨fun h => ⟨hbuf, rfl, hcount, h⟩, fun h => h.2.2.2⟩

theorem rbWrite_intact (hothers : Valid (k.others rb)) (bufNull : Bool) (buf : Bytes) :
    ∃ r, rbWrite k bufNull buf rb = some r ∧ (r.found = rb ∨ r.found = k.others rb) ∧
      r.Intact := by
  obtain ⟨r, hrest, hfound, hintact⟩ := rbWriteRest_intact hothers buf
  rw [rbWrite]
  rcases rbWriteStart_cases rb bufNull k.kbuf k.copyFails buf with
    ⟨result, hstart⟩ | hstart | hstart
  · rw [hstart]
    exact ⟨_, rfl, .inl rfl, fun _ => .refl rb⟩
  · rw [hstart]
    dsimp only
    by_cases hsignal : k.signal
    · rw [if_pos hsignal]
      exact ⟨_, rfl, .inr rfl, Return.intact_unchanged _ _ _⟩
    · rw [if_neg hsignal]
      exact ⟨r, hrest, .inr hfound, hintact⟩
  · rw [hstart]
    exact ⟨r, hrest, .inr hfound, hintact⟩

/-- A call that fails leaves the queue as it finds it, exactly if it is not a read that takes
bytes and cannot copy them to the user. -/
theorem call_intact_iff (hothers : Valid (k.others rb)) (call : Call) :
    ∃ r, call.run k rb = some r ∧ (r.found = rb ∨ r.found = k.others rb) ∧
      (r.Intact ↔ ¬call.LosesBytes k rb) := by
  cases call with
  | read bufNull len => exact rbRead_intact_iff hothers bufNull len
  | write bufNull buf =>
    obtain ⟨r, hrun, hfound, hintact⟩ := rbWrite_intact hothers bufNull buf
    exact ⟨r, hrun, hfound, iff_of_true hintact not_false⟩
  | ioctl command =>
    obtain ⟨r, hrun, hfound, hintact⟩ := rbIoctlCommand_intact (k := k) hothers command
    exact ⟨r, hrun, .inr hfound, iff_of_true hintact not_false⟩

/-- A kernel in which everything works, and nobody else calls. -/
def quietKernel : Kernel where
  kbuf := some fun _ => 0
  tempBuf := some fun _ => 0
  copyFails := false
  signal := false
  others := id

/-- A wait that a signal ends leaves the byte in the queue. -/
theorem call_intact_iff_signal :
    ∃ r, (Call.read false 1).run { quietKernel with signal := true } oneByte = some r ∧
      r.result < 0 ∧ r.Intact := by
  obtain ⟨r, hrun, _, hintact⟩ := call_intact_iff (k := { quietKernel with signal := true })
    valid_oneByte (.read false 1)
  have hresult : (Call.read false 1).run { quietKernel with signal := true } oneByte =
      some (.unchanged (-erestartsys) .nothing oneByte) := rfl
  refine ⟨r, hrun, ?_, hintact.mpr ?_⟩
  · cases hresult.symm.trans hrun
    decide
  · rintro ⟨_, _, hwait, _⟩
    exact absurd hwait (by decide)

/-- A read returns `-EFAULT`, and the byte that it could not copy is gone. -/
theorem call_losesBytes :
    ∃ k rb call r, Valid rb ∧ k.others rb = rb ∧ Call.run k rb call = some r ∧ r.result = -efault ∧
      r.found = rb ∧ r.found.contents = [7] ∧ r.left.contents = [] := by
  have hrun : ((Call.read false 1).run { quietKernel with copyFails := true } oneByte).map
      (fun r => (r.result, r.found, r.found.contents, r.left.contents)) =
      some (-efault, oneByte, [7], []) := by
    decide +kernel
  obtain ⟨r, hr, hfields⟩ := Option.map_eq_some_iff.mp hrun
  obtain ⟨hresult, hfields⟩ := Prod.mk.inj hfields
  obtain ⟨hfound, hfields⟩ := Prod.mk.inj hfields
  obtain ⟨hbefore, hafter⟩ := Prod.mk.inj hfields
  exact ⟨{ quietKernel with copyFails := true }, oneByte, .read false 1, r, valid_oneByte, rfl, hr,
    hresult, hfound, hbefore, hafter⟩

end Failed

end CourseWork.Driver
