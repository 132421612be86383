import CourseWork.Driver.Queue

/-!
# Blocking reads and writes

`rb_read` and `rb_write` with any number of callers. The wait ends in one step, the locked
operation is another, and what other callers do between them decides about the result.
-/

namespace CourseWork.Driver
open CLib Runs

/-- `ENOMEM`. -/
def enomem : Int := 12

/-- `EFAULT`. -/
def efault : Int := 14

/-- `EAGAIN`. -/
def eagain : Int := 11

/-- Where a caller is. -/
inductive Phase
  | outside
  /-- In `wait_event_interruptible` of `rb_read`, with its `kbuf`. -/
  | readWait (kbuf : Bytes)
  /-- Before `ring_buffer_read`. -/
  | reading (kbuf : Bytes)
  /-- Returned from `rb_read`, with what was copied to the user. -/
  | readDone (len : Nat) (copyFailed : Bool) (data : Bytes) (result : Int)
  /-- In `wait_event_interruptible` of `rb_write`. -/
  | writeWait (kbuf : Bytes)
  /-- Before `ring_buffer_write`. -/
  | writing (kbuf : Bytes)
  /-- Returned from `rb_write`. -/
  | writeDone (len : Nat) (result : Int)
  deriving DecidableEq

/-- `rb_read` up to its wait; `kbuf` is what `kmalloc` returns, if not `NULL`. -/
def rbReadStart (rb : RingBuffer) (bufNull : Bool) (kbuf : Option (Nat → UInt8)) (len : Nat) :
    Phase :=
  if bufNull then .readDone len false [] (-efault)
  else match kbuf with
    | none => .readDone len false [] (-enomem)
    | some mem =>
      if rb.blocking then .readWait (kmalloc mem len)
      else if rb.count = 0 then .readDone len false [] (-eagain)
      else .reading (kmalloc mem len)

/-- `rb_read` after its wait. -/
def rbReadFinish (rb : RingBuffer) (kbuf : Bytes) (copyFails : Bool) :
    Option (Phase × RingBuffer) := do
  let (bytesRead, data, rb) ← ringBufferRead rb kbuf
  if bytesRead > 0 ∧ copyFails then return (.readDone kbuf.length true [] (-efault), rb)
  else return (.readDone kbuf.length false (data.take bytesRead.toNat) bytesRead, rb)

/-- `rb_write` up to its wait, with the data that are to be copied from `buf`. -/
def rbWriteStart (rb : RingBuffer) (bufNull : Bool) (kbuf : Option (Nat → UInt8))
    (copyFails : Bool) (buf : Bytes) : Phase :=
  if bufNull then .writeDone buf.length (-efault)
  else match kbuf with
    | none => .writeDone buf.length (-enomem)
    | some _ =>
      if copyFails then .writeDone buf.length (-efault)
      else if rb.blocking then .writeWait buf
      else .writing buf

/-- `rb_write` after its wait. -/
def rbWriteFinish (rb : RingBuffer) (kbuf : Bytes) : Option (Phase × RingBuffer) := do
  let (bytesWritten, rb) ← ringBufferWrite rb kbuf
  return (.writeDone kbuf.length bytesWritten, rb)

/-- The device and its callers. -/
structure Device where
  rb : RingBuffer
  caller : Nat → Phase

/-- The caller goes on to another phase. -/
def Device.setCaller (d : Device) (c : Nat) (phase : Phase) : Device :=
  { d with caller := Function.update d.caller c phase }

/-- A step of caller `c`. -/
inductive Action
  | read (c : Nat) (bufNull : Bool) (kbuf : Option (Nat → UInt8)) (len : Nat)
  | write (c : Nat) (bufNull : Bool) (kbuf : Option (Nat → UInt8)) (copyFails : Bool) (buf : Bytes)
  /-- The condition of the wait is found true. -/
  | found (c : Nat)
  /-- The locked operation, and the rest of the call. -/
  | locked (c : Nat) (copyFails : Bool)

/-- A caller that is not in a call can begin one. -/
def Phase.free : Phase → Bool
  | .outside | .readDone .. | .writeDone .. => true
  | _ => false

/-- One step, if the caller can make it. -/
def Device.step (d : Device) : Action → Option Device
  | .read c bufNull kbuf len =>
    if (d.caller c).free then some (d.setCaller c (rbReadStart d.rb bufNull kbuf len)) else none
  | .write c bufNull kbuf copyFails buf =>
    if (d.caller c).free then some (d.setCaller c (rbWriteStart d.rb bufNull kbuf copyFails buf))
    else none
  | .found c =>
    match d.caller c with
    | .readWait kbuf => if d.rb.count > 0 then some (d.setCaller c (.reading kbuf)) else none
    | .writeWait kbuf =>
      if d.rb.size - d.rb.count ≥ kbuf.length then some (d.setCaller c (.writing kbuf)) else none
    | _ => none
  | .locked c copyFails =>
    match d.caller c with
    | .reading kbuf => do
      let (phase, rb) ← rbReadFinish d.rb kbuf copyFails
      return { d.setCaller c phase with rb := rb }
    | .writing kbuf => do
      let (phase, rb) ← rbWriteFinish d.rb kbuf
      return { d.setCaller c phase with rb := rb }
    | _ => none

/-- A step relation for the runs. -/
def Device.Step (d : Device) (a : Action) (d' : Device) : Prop := d.step a = some d'

/-- No caller has called yet. -/
def Device.idle (rb : RingBuffer) : Device := ⟨rb, fun _ => .outside⟩

/-- What a call that has returned promises. -/
def Phase.Kept (size : Nat) : Phase → Prop
  | .readDone len copyFailed _ result => 0 < len → copyFailed = false → 1 ≤ result
  | .writeDone len result => 0 < len → len ≤ size → result = len
  | _ => True

/-- All calls that have returned kept their promise. -/
def Device.Kept (d : Device) : Prop := ∀ c, (d.caller c).Kept d.rb.size

/-- The buffers are there, and a locked operation finds what its caller has waited for. -/
def Device.StillTrue (d : Device) : Action → Prop
  | .read _ bufNull kbuf len => 0 < len → bufNull = false ∧ kbuf.isSome
  | .write _ bufNull kbuf copyFails buf =>
    0 < buf.length → buf.length ≤ d.rb.size →
      bufNull = false ∧ kbuf.isSome ∧ copyFails = false
  | .found _ => True
  | .locked c _ =>
    match d.caller c with
    | .reading kbuf => 0 < kbuf.length → d.rb.count > 0
    | .writing kbuf =>
      0 < kbuf.length → kbuf.length ≤ d.rb.size → d.rb.size - d.rb.count ≥ kbuf.length
    | _ => True

/-! ## Single operations -/

/-- The queue in a valid ring buffer. -/
def Valid.queue {rb : RingBuffer} (h : Valid rb) : Queue :=
  ⟨rb.contents, rb.size, h.length_contents.trans_le h.count_le⟩

section Operations

variable {rb : RingBuffer}

theorem Valid.represents (h : Valid rb) : Represents rb h.queue := ⟨h, rfl, rfl⟩

theorem Valid.read (h : Valid rb) (data : Bytes) :
    ∃ data' rb', ringBufferRead rb data =
        some (((min data.length rb.count : Nat) : Int), data', rb') ∧
      Valid rb' ∧ rb'.size = rb.size ∧ rb'.blocking = rb.blocking := by
  obtain ⟨rb', hread, hrepresents⟩ := h.represents.read data
  by_cases hempty : rb.count = 0
  · have heq : ringBufferRead rb data = some (0, data, rb) := if_pos hempty
    rw [hempty, Nat.min_zero]
    exact ⟨data, rb, heq, h, rfl, rfl⟩
  · have heq := ringBufferRead_eq h data hempty rfl
    rw [heq] at hread
    obtain ⟨_, htail⟩ := Prod.mk.inj (Option.some.inj hread)
    obtain ⟨_, rfl⟩ := Prod.mk.inj htail
    exact ⟨_, _, heq, hrepresents.valid, rfl, rfl⟩

theorem Valid.write (h : Valid rb) (data : Bytes) :
    ∃ result rb', ringBufferWrite rb data = some (result, rb') ∧ Valid rb' ∧ rb'.size = rb.size ∧
      rb'.blocking = rb.blocking ∧
      result = if rb.size - rb.count = 0 then -enospc
        else (min data.length (rb.size - rb.count) : Nat) := by
  obtain ⟨rb', hwrite, hrepresents⟩ := h.represents.write data
  by_cases hfull : rb.size - rb.count = 0
  · have heq := ringBufferWrite_full data hfull
    rw [heq] at hwrite
    obtain ⟨_, rfl⟩ := Prod.mk.inj (Option.some.inj hwrite)
    exact ⟨_, _, heq, hrepresents.valid, rfl, rfl, (if_pos hfull).symm⟩
  · have heq := ringBufferWrite_eq h data hfull rfl
    rw [heq] at hwrite
    obtain ⟨_, rfl⟩ := Prod.mk.inj (Option.some.inj hwrite)
    exact ⟨_, _, heq, hrepresents.valid, rfl, rfl, (if_neg hfull).symm⟩

/-- The first part of `rb_read` returns only for want of a buffer. -/
theorem rbReadStart_kept (hblocking : rb.blocking = true) (bufNull : Bool)
    (kbuf : Option (Nat → UInt8)) (len size : Nat) :
    (rbReadStart rb bufNull kbuf len).Kept size ↔ (0 < len → bufNull = false ∧ kbuf.isSome) := by
  unfold rbReadStart
  cases bufNull with
  | true => simp [Phase.Kept, efault]
  | false =>
    cases kbuf with
    | none => simp [Phase.Kept, enomem]
    | some mem => simp [Phase.Kept, hblocking]

/-- The first part of `rb_write` returns only for want of a buffer. -/
theorem rbWriteStart_kept (hblocking : rb.blocking = true) (bufNull : Bool)
    (kbuf : Option (Nat → UInt8)) (copyFails : Bool) (buf : Bytes) (size : Nat) :
    (rbWriteStart rb bufNull kbuf copyFails buf).Kept size ↔
      (0 < buf.length → buf.length ≤ size →
        bufNull = false ∧ kbuf.isSome ∧ copyFails = false) := by
  have herror : ∀ {e : Int}, 0 < e → ∀ {n : Nat}, -e ≠ (n : Int) := by omega
  unfold rbWriteStart
  cases bufNull with
  | true => simp [Phase.Kept, herror (show 0 < efault by decide)]
  | false =>
    cases kbuf with
    | none => simp [Phase.Kept, herror (show 0 < enomem by decide)]
    | some mem =>
      cases copyFails with
      | true => simp [Phase.Kept, herror (show 0 < efault by decide)]
      | false => simp [Phase.Kept, hblocking]

/-- The locked part of `rb_read` keeps the promise exactly if there are data. -/
theorem rbReadFinish_kept (h : Valid rb) (kbuf : Bytes) (copyFails : Bool) (size : Nat) :
    ∃ phase rb', rbReadFinish rb kbuf copyFails = some (phase, rb') ∧ Valid rb' ∧
      rb'.size = rb.size ∧ rb'.blocking = rb.blocking ∧
      (phase.Kept size ↔ (0 < kbuf.length → rb.count > 0)) := by
  obtain ⟨data, rb', hread, hvalid, hsize, hblocking⟩ := h.read kbuf
  rw [rbReadFinish, hread]
  simp only [Option.bind_eq_bind, Option.bind_some]
  by_cases hfails : ((min kbuf.length rb.count : Nat) : Int) > 0 ∧ copyFails = true
  · rw [if_pos hfails]
    refine ⟨_, rb', rfl, hvalid, hsize, hblocking, ?_⟩
    have hcount : rb.count > 0 := by omega
    simp [Phase.Kept, hcount]
  · rw [if_neg hfails]
    refine ⟨_, rb', rfl, hvalid, hsize, hblocking, ?_⟩
    simp only [Phase.Kept, true_implies]
    omega

/-- The locked part of `rb_write` keeps the promise exactly if there is room. -/
theorem rbWriteFinish_kept (h : Valid rb) (kbuf : Bytes) :
    ∃ phase rb', rbWriteFinish rb kbuf = some (phase, rb') ∧ Valid rb' ∧
      rb'.size = rb.size ∧ rb'.blocking = rb.blocking ∧
      (phase.Kept rb.size ↔
        (0 < kbuf.length → kbuf.length ≤ rb.size → rb.size - rb.count ≥ kbuf.length)) := by
  obtain ⟨result, rb', hwrite, hvalid, hsize, hblocking, hresult⟩ := h.write kbuf
  have hle := h.count_le
  rw [rbWriteFinish, hwrite]
  refine ⟨_, rb', rfl, hvalid, hsize, hblocking, ?_⟩
  simp only [Phase.Kept, hresult, enospc]
  split
  · omega
  · omega

end Operations

/-! ## Runs -/

section Runs

variable {d d' : Device} {a : Action}

/-- What holds of the ring buffer throughout. -/
structure Device.Inv (d : Device) : Prop where
  valid : Valid d.rb
  blocking : d.rb.blocking = true

/-- A step moves one caller, keeps the size, and breaks no promise exactly if `StillTrue`. -/
theorem Device.step_cases (h : d.Inv) (hstep : d.Step a d') :
    ∃ c phase, d'.caller = Function.update d.caller c phase ∧ d'.Inv ∧ d'.rb.size = d.rb.size ∧
      (phase.Kept d.rb.size ↔ d.StillTrue a) := by
  cases a with
  | read c bufNull kbuf len =>
    rw [Device.Step, Device.step] at hstep
    split at hstep
    · cases hstep
      exact ⟨c, _, rfl, ⟨h.valid, h.blocking⟩, rfl, rbReadStart_kept h.blocking _ _ _ _⟩
    · cases hstep
  | write c bufNull kbuf copyFails buf =>
    rw [Device.Step, Device.step] at hstep
    split at hstep
    · cases hstep
      exact ⟨c, _, rfl, ⟨h.valid, h.blocking⟩, rfl, rbWriteStart_kept h.blocking _ _ _ _ _⟩
    · cases hstep
  | found c =>
    rw [Device.Step, Device.step] at hstep
    split at hstep
    · split at hstep
      · cases hstep
        exact ⟨c, _, rfl, ⟨h.valid, h.blocking⟩, rfl, Iff.rfl⟩
      · cases hstep
    · split at hstep
      · cases hstep
        exact ⟨c, _, rfl, ⟨h.valid, h.blocking⟩, rfl, Iff.rfl⟩
      · cases hstep
    · cases hstep
  | locked c copyFails =>
    rw [Device.Step, Device.step] at hstep
    unfold Device.StillTrue
    split at hstep
    · next kbuf hphase =>
      obtain ⟨phase, rb', hfinish, hvalid, hsize, hblocking, hkept⟩ :=
        rbReadFinish_kept h.valid kbuf copyFails d.rb.size
      rw [hfinish] at hstep
      cases hstep
      simp only [hphase]
      exact ⟨c, phase, rfl, ⟨hvalid, hblocking.trans h.blocking⟩, hsize, hkept⟩
    · next kbuf hphase =>
      obtain ⟨phase, rb', hfinish, hvalid, hsize, hblocking, hkept⟩ :=
        rbWriteFinish_kept h.valid kbuf
      rw [hfinish] at hstep
      cases hstep
      simp only [hphase]
      exact ⟨c, phase, rfl, ⟨hvalid, hblocking.trans h.blocking⟩, hsize, hkept⟩
    · cases hstep

theorem Device.step_kept (h : d.Inv) (hkept : d.Kept) (hstep : d.Step a d') :
    d'.Inv ∧ (d'.Kept ↔ d.StillTrue a) := by
  obtain ⟨c, phase, hcaller, h', hsize, hiff⟩ := step_cases h hstep
  refine ⟨h', ?_⟩
  rw [Device.Kept, hcaller, hsize, ← hiff]
  constructor
  · intro hkept'
    have hc := hkept' c
    rwa [Function.update_self] at hc
  · intro hphase c'
    by_cases hc : c' = c
    · rw [hc, Function.update_self]
      exact hphase
    · rw [Function.update_of_ne hc]
      exact hkept c'

/-- In a run the blocking calls keep their promise exactly if every locked operation still
finds what its caller has waited for. -/
theorem blocking_kept_iff {rb : RingBuffer} (hvalid : Valid rb) (hblocking : rb.blocking = true)
    {trace : List (Device × Action)} (hrun : Run Device.Step (Device.idle rb) trace d) :
    Always Device.Kept trace d ↔ Steps Device.StillTrue trace :=
  hrun.always_iff (I := Device.Inv) ⟨hvalid, hblocking⟩ (fun _ => trivial)
    (fun _ _ _ h hkept hstep => Device.step_kept h hkept hstep)

/-- A ring buffer with one byte in it. -/
def oneByte : RingBuffer where
  buffer := kmalloc (fun _ => 7) 256
  size := 256
  head := 1
  tail := 0
  count := 1
  writes := 1
  reads := 0
  overruns := 0
  blocking := true

theorem valid_oneByte : Valid oneByte :=
  ⟨length_kmalloc _ _, by decide, by decide, by decide, by decide, by decide, by decide⟩

instance : ∀ (d : Device) (a : Action), Decidable (d.StillTrue a)
  | _, .read .. => inferInstanceAs (Decidable (_ → _))
  | _, .write .. => inferInstanceAs (Decidable (_ → _))
  | _, .found _ => inferInstanceAs (Decidable True)
  | d, .locked c _ => by
    unfold Device.StillTrue
    dsimp only
    split
    · infer_instance
    · infer_instance
    · infer_instance

/-- Two readers wait for one byte. The first reads it, a writer comes, and the second reads what
it has written. -/
theorem blocking_kept_iff_two_readers :
    ∃ trace d, Run Device.Step (Device.idle oneByte) trace d ∧
      d.caller 0 = .readDone 2 false [7] 1 ∧ d.caller 1 = .readDone 2 false [8, 9] 2 ∧
      d.caller 2 = .writeDone 3 3 ∧ d.rb.count = 1 ∧ Always Device.Kept trace d := by
  let next (d : Device) (a : Action) : Option Device :=
    if decide (d.StillTrue a) then d.step a else none
  have hexec : (exec next [.read 0 false (some fun _ => 0) 2, .read 1 false (some fun _ => 0) 2,
      .found 0, .locked 0 false, .write 2 false (some fun _ => 0) false [8, 9, 10], .found 2,
      .locked 2 false, .found 1, .locked 1 false] (Device.idle oneByte)).map
        (fun d => (d.caller 0, d.caller 1, d.caller 2, d.rb.count)) =
      some (.readDone 2 false [7] 1, .readDone 2 false [8, 9] 2, .writeDone 3 3, 1) := by
    decide +kernel
  obtain ⟨d, hd, hphases⟩ := Option.map_eq_some_iff.mp hexec
  simp only [Prod.mk.injEq] at hphases
  obtain ⟨hfirst, hsecond, hwriter, hcount⟩ := hphases
  obtain ⟨trace, -, hrun, hsteps⟩ := Run.nil.exec_checked nofun hd
  rw [List.append_nil] at hrun hsteps
  exact ⟨trace, d, hrun, hfirst, hsecond, hwriter, hcount,
    (blocking_kept_iff valid_oneByte rfl hrun).mpr fun x hx => of_decide_eq_true (hsteps x hx)⟩

/-- Two readers find one byte, and the second reads nothing. -/
theorem blocking_two_readers :
    ∃ d, exec Device.step [.read 0 false (some fun _ => 0) 1, .read 1 false (some fun _ => 0) 1,
        .found 0, .found 1, .locked 0 false, .locked 1 false] (Device.idle oneByte) = some d ∧
      (∃ trace, Run Device.Step (Device.idle oneByte) trace d) ∧
      d.caller 0 = .readDone 1 false [7] 1 ∧ d.caller 1 = .readDone 1 false [] 0 ∧
      Valid oneByte ∧ oneByte.blocking = true ∧ ¬d.Kept := by
  have hexec : (exec Device.step [.read 0 false (some fun _ => 0) 1,
      .read 1 false (some fun _ => 0) 1, .found 0, .found 1, .locked 0 false, .locked 1 false]
      (Device.idle oneByte)).map (fun d => (d.caller 0, d.caller 1)) =
        some (.readDone 1 false [7] 1, .readDone 1 false [] 0) := by decide +kernel
  obtain ⟨d, hd, hphases⟩ := Option.map_eq_some_iff.mp hexec
  obtain ⟨hfirst, hsecond⟩ := Prod.mk.inj hphases
  obtain ⟨trace, hrun⟩ := Run.nil.exec hd
  refine ⟨d, hd, ⟨trace, hrun⟩, hfirst, hsecond, valid_oneByte, rfl, fun hkept => ?_⟩
  have hreader := hkept 1
  rw [hsecond] at hreader
  exact absurd (hreader Nat.one_pos rfl) (by decide)

end Runs

end CourseWork.Driver
