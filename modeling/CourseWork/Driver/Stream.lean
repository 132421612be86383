import CourseWork.Driver.SystemCalls

/-!
# The stream through the device

Any number of readers and writers on one device, with signals, changes of the mode and
`RB_CLEAR` between their steps. `RB_SET_SIZE` is left out, since it replaces the lock that makes
the locked operations one step.
-/

namespace CourseWork.Driver
open CLib Runs Cyclic

/-! ## State -/

/-- Bytes that left the ring buffer: into the `kbuf` of a reader, with or without success of the
copy to the user, or by `RB_CLEAR`. -/
inductive Removal
  | read (c : Nat) (data : Bytes) (copied : Bool)
  | cleared (data : Bytes)
  deriving DecidableEq

def Removal.data : Removal → Bytes
  | .read _ data _ => data
  | .cleared data => data

def Removal.isRead : Removal → Bool
  | .read .. => true
  | .cleared _ => false

/-- The bytes went to this caller. -/
def Removal.isReadOf (c : Nat) : Removal → Bool
  | .read c' _ _ => c' = c
  | .cleared _ => false

/-- The device with what has happened to the bytes, in order: what each successful write has
put into the ring buffer, and what has left it. `refused` counts the writes to a full buffer,
`live` the `kbuf`s of each caller that `kmalloc` has returned and `kfree` has not got. -/
structure Stream where
  device : Device
  accepted : List (Nat × Bytes)
  removed : List Removal
  refused : Nat
  live : Nat → Nat

/-- Nobody has called yet. -/
def Stream.idle (rb : RingBuffer) : Stream := ⟨.idle rb, [], [], 0, fun _ => 0⟩

/-! ## Steps -/

/-- A step of a caller of `rb_read` or `rb_write`, a signal for one that waits, or a command
of `rb_ioctl`. -/
inductive StreamMove
  | call (a : Action)
  | signal (c : Nat)
  | clear
  | setBlocking (blocking : Int)

/-- One more `kbuf` of the caller. -/
def Stream.allocate (s : Stream) (c : Nat) : Stream :=
  { s with live := Function.update s.live c (s.live c + 1) }

/-- `kfree` of a `kbuf` of the caller. -/
def Stream.kfree (s : Stream) (c : Nat) : Stream :=
  { s with live := Function.update s.live c (s.live c - 1) }

/-- What `rb_read` and `rb_write` do to their `kbuf`s, and what the locked operations do to the
bytes. -/
def Stream.record (s : Stream) : Action → Stream
  -- `-EAGAIN` is returned without `kfree`.
  | .read c bufNull kbuf _ => if !bufNull && kbuf.isSome then s.allocate c else s
  | .write c bufNull kbuf copyFails _ =>
    if !bufNull && kbuf.isSome then
      if copyFails then (s.allocate c).kfree c else s.allocate c
    else s
  | .found _ => s
  | .locked c copyFails =>
    match s.device.caller c with
    | .reading kbuf =>
      match ringBufferRead s.device.rb kbuf with
      | some (bytesRead, data, _) =>
        if s.device.rb.count = 0 then s.kfree c
        else { s with
          removed := s.removed ++ [Removal.read c (data.take bytesRead.toNat)
            (!(bytesRead > 0 ∧ copyFails))] }.kfree c
      | none => s
    | .writing kbuf =>
      match ringBufferWrite s.device.rb kbuf with
      | some (bytesWritten, _) =>
        if bytesWritten < 0 then { s with refused := s.refused + 1 }.kfree c
        else { s with accepted := s.accepted ++ [(c, kbuf.take bytesWritten.toNat)] }.kfree c
      | none => s
    | _ => s

/-- One step, if it is possible. -/
def Stream.step (s : Stream) : StreamMove → Option Stream
  | .call a =>
    match s.device.step a with
    | some device => some { s.record a with device := device }
    | none => none
  | .signal c =>
    match s.device.caller c with
    -- `rb_read` returns without `kfree`.
    | .readWait kbuf => some { s with
        device := s.device.setCaller c (.readDone kbuf.length false [] (-erestartsys)) }
    | .writeWait kbuf => some { s.kfree c with
        device := s.device.setCaller c (.writeDone kbuf.length (-erestartsys)) }
    | _ => none
  | .clear => some { s with
      removed := s.removed ++ [Removal.cleared s.device.rb.contents]
      device := { s.device with rb := ringBufferClear s.device.rb } }
  | .setBlocking blocking => some { s with
      device := { s.device with rb := { s.device.rb with blocking := blocking ≠ 0 } } }

/-- A step relation for the runs. -/
def Stream.Step (s : Stream) (m : StreamMove) (s' : Stream) : Prop := s.step m = some s'

/-! ## Results -/

/-- The bytes that the caller has written, call by call. -/
def writtenBy (c : Nat) (accepted : List (Nat × Bytes)) : List (Nat × Bytes) :=
  accepted.filter (·.1 = c)

/-- The bytes that have left for the caller, call by call. -/
def readBy (c : Nat) (removed : List Removal) : List Removal := removed.filter (·.isReadOf c)

/-- A call that has returned tells the truth about the bytes it has moved, which are the last ones
of its caller. -/
def Phase.Told (accepted : List (Nat × Bytes)) (removed : List Removal) (c : Nat) : Phase → Prop
  | .readDone _ _ data result =>
    0 < result → data.length = result ∧ (readBy c removed).getLast? = some (.read c data true)
  | .writeDone _ result =>
    0 ≤ result → ∃ data, (writtenBy c accepted).getLast? = some (c, data) ∧ data.length = result
  | _ => True

/-- The caller that a step belongs to. -/
def StreamMove.caller : StreamMove → Option Nat
  | .call (.read c ..) | .call (.write c ..) | .call (.found c) | .call (.locked c _) => some c
  | .signal c => some c
  | .clear | .setBlocking _ => none

/-- A step's caller, and the phase in which the step leaves it. -/
def Stream.leaves : Stream × StreamMove → Option (Nat × Phase)
  | (s, m) => do
    let c ← m.caller
    let s' ← s.step m
    return (c, s'.device.caller c)

/-- A return from `rb_write` with success: the caller and the result. -/
def writeReturned : Nat × Phase → Option (Nat × Int)
  | (c, .writeDone _ result) => if 0 ≤ result then some (c, result) else none
  | _ => none

/-- A return from `rb_read` with bytes: the caller, the bytes and the result. -/
def readReturned : Nat × Phase → Option (Nat × Bytes × Int)
  | (c, .readDone _ _ data result) => if 0 < result then some (c, data, result) else none
  | _ => none

/-- What the reader is to be told of bytes that were copied to it. -/
def Removal.given : Removal → Option (Nat × Bytes × Int)
  | .read c data true => if data = [] then none else some (c, data, data.length)
  | _ => none

/-- The returns of a run are, one by one, the entries for what has moved. -/
structure Stream.Reported (s : Stream) (trace : List (Stream × StreamMove)) : Prop where
  writes : s.accepted.map (fun x => (x.1, (x.2.length : Int))) =
    trace.reverse.filterMap fun x => (Stream.leaves x).bind writeReturned
  reads : s.removed.filterMap Removal.given =
    trace.reverse.filterMap fun x => (Stream.leaves x).bind readReturned

/-- Every accepted byte has left the ring buffer, in order, or is in it, in order; the calls
tell the truth; and the statistics count the operations. -/
structure Stream.Kept (s : Stream) : Prop where
  order : s.accepted.flatMap Prod.snd = s.removed.flatMap Removal.data ++ s.device.rb.contents
  fits : s.device.rb.contents.length ≤ s.device.rb.size
  told : ∀ c, (s.device.caller c).Told s.accepted s.removed c
  writes : s.device.rb.writes = UInt64.ofNat s.accepted.length
  reads : s.device.rb.reads = UInt64.ofNat (s.removed.countP (·.isRead))
  overruns : s.device.rb.overruns = UInt64.ofNat s.refused

/-- The call goes on, or it has returned without a success. -/
def Phase.Silent : Phase → Prop
  | .readDone _ _ _ result => result ≤ 0
  | .writeDone _ result => result < 0
  | _ => True

/-- What a step of caller `c` does to the bytes: nothing, a write that is refused, a read of the
oldest bytes, or a write behind them. -/
inductive Stream.Moved (s : Stream) (c : Nat) : Stream → Prop
  | nothing (phase : Phase) (live : Nat → Nat) (hsilent : phase.Silent) :
    Moved s c { s with device := s.device.setCaller c phase, live := live }
  | refused (rb' : RingBuffer) (phase : Phase) (live : Nat → Nat) (hvalid : Valid rb')
    (hcontents : rb'.contents = s.device.rb.contents) (hwrites : rb'.writes = s.device.rb.writes)
    (hreads : rb'.reads = s.device.rb.reads) (hoverruns : rb'.overruns = s.device.rb.overruns + 1)
    (hsilent : phase.Silent) :
    Moved s c { s with
      device := ⟨rb', Function.update s.device.caller c phase⟩
      refused := s.refused + 1
      live := live }
  | takes (rb' : RingBuffer) (phase : Phase) (live : Nat → Nat) (data : Bytes) (copied : Bool)
    (hvalid : Valid rb') (hcontents : s.device.rb.contents = data ++ rb'.contents)
    (hwrites : rb'.writes = s.device.rb.writes) (hreads : rb'.reads = s.device.rb.reads + 1)
    (hoverruns : rb'.overruns = s.device.rb.overruns)
    (hcopied : copied = true → ∃ len, phase = .readDone len false data data.length)
    (hfailed : copied = false → phase.Silent) :
    Moved s c { s with
      device := ⟨rb', Function.update s.device.caller c phase⟩
      removed := s.removed ++ [Removal.read c data copied]
      live := live }
  | appends (rb' : RingBuffer) (phase : Phase) (live : Nat → Nat) (data : Bytes)
    (hvalid : Valid rb') (hcontents : rb'.contents = s.device.rb.contents ++ data)
    (hwrites : rb'.writes = s.device.rb.writes + 1) (hreads : rb'.reads = s.device.rb.reads)
    (hoverruns : rb'.overruns = s.device.rb.overruns)
    (hphase : ∃ len, phase = .writeDone len data.length) :
    Moved s c { s with
      device := ⟨rb', Function.update s.device.caller c phase⟩
      accepted := s.accepted ++ [(c, data)]
      live := live }

/-- The caller holds a `kbuf` in this phase. -/
def Phase.holds : Phase → Nat
  | .readWait _ | .reading _ | .writeWait _ | .writing _ => 1
  | _ => 0

/-- The step returns from `rb_read` and leaves the `kbuf` of caller `c` behind: a read that finds
nothing without blocking, or that a signal ends. -/
def leaks (c : Nat) : Stream × StreamMove → Bool
  | (s, .call (.read c' bufNull kbuf _)) =>
    c' = c && !bufNull && kbuf.isSome && !s.device.rb.blocking && s.device.rb.count = 0
  | (s, .signal c') =>
    c' = c &&
      match s.device.caller c' with
      | .readWait _ => true
      | _ => false
  | _ => false

/-! ## Single operations -/

section Operations

variable {rb : RingBuffer}

/-- A read of a buffer that is not empty takes the oldest bytes and counts itself. -/
theorem Valid.read_takes (h : Valid rb) (kbuf : Bytes) (hcount : rb.count ≠ 0) :
    ∃ data rb', ringBufferRead rb kbuf =
        some (((rb.contents.take kbuf.length).length : Int), data, rb') ∧
      data.take (rb.contents.take kbuf.length).length = rb.contents.take kbuf.length ∧
      Valid rb' ∧ rb'.contents = rb.contents.drop kbuf.length ∧ rb'.size = rb.size ∧
      rb'.writes = rb.writes ∧ rb'.reads = rb.reads + 1 ∧ rb'.overruns = rb.overruns := by
  have hlength : (rb.contents.take kbuf.length).length = min kbuf.length rb.count := by
    rw [List.length_take, h.length_contents]
  obtain ⟨rb', hread, hrepresents⟩ := h.represents.read kbuf
  have heq := ringBufferRead_eq h kbuf hcount rfl
  rw [hread] at heq
  obtain ⟨_, hrest⟩ := Prod.mk.inj (Option.some.inj heq)
  obtain ⟨_, rfl⟩ := Prod.mk.inj hrest
  refine ⟨(h.queue.read kbuf).2.1, _, hread.trans ?_, List.take_left' rfl, hrepresents.valid,
    hrepresents.contents, rfl, rfl, rfl, rfl⟩
  rw [hlength, Queue.read]
  dsimp only [Valid.queue]
  rw [h.length_contents]

/-- A write to a buffer that is not full appends what fits and counts itself. -/
theorem Valid.write_appends (h : Valid rb) (kbuf : Bytes) (hfree : rb.size - rb.count ≠ 0) :
    ∃ n : Nat, ∃ rb', ringBufferWrite rb kbuf = some ((n : Int), rb') ∧ n ≤ kbuf.length ∧
      Valid rb' ∧ rb'.contents = rb.contents ++ kbuf.take n ∧ rb'.size = rb.size ∧
      rb'.writes = rb.writes + 1 ∧ rb'.reads = rb.reads ∧ rb'.overruns = rb.overruns := by
  obtain ⟨rb', hwrite, hrepresents⟩ := h.represents.write kbuf
  have heq := ringBufferWrite_eq h kbuf hfree rfl
  have hcontents := hrepresents.contents
  have hroom : ¬h.queue.items.length = h.queue.capacity := by
    have hlength : h.queue.items.length = rb.count := h.length_contents
    have hcapacity : h.queue.capacity = rb.size := rfl
    omega
  rw [Queue.write, if_neg hroom] at hcontents
  rw [hwrite] at heq
  obtain ⟨hresult, rfl⟩ := Prod.mk.inj (Option.some.inj heq)
  refine ⟨_, _, hwrite.trans (by rw [hresult]), Nat.min_le_left _ _, hrepresents.valid,
    hcontents.trans ?_, rfl, rfl, rfl, rfl⟩
  show rb.contents ++ kbuf.take (rb.size - rb.contents.length) = _
  rw [h.length_contents, List.take_eq_take_min, Nat.min_comm]

/-- What the first part of `rb_read` returns is an error. -/
theorem rbReadStart_silent (bufNull : Bool) (kbuf : Option (Nat → UInt8)) (len : Nat) :
    (rbReadStart rb bufNull kbuf len).Silent := by
  rcases rbReadStart_cases rb bufNull kbuf len with
    ⟨result, hstart, hneg, _⟩ | ⟨mem, _, _, _, hstart⟩ | ⟨mem, _, _, _, _, hstart⟩
  · rw [hstart]
    exact Int.le_of_lt hneg
  · rw [hstart]
    trivial
  · rw [hstart]
    trivial

/-- What the first part of `rb_write` returns is an error. -/
theorem rbWriteStart_silent (bufNull : Bool) (kbuf : Option (Nat → UInt8)) (copyFails : Bool)
    (buf : Bytes) : (rbWriteStart rb bufNull kbuf copyFails buf).Silent := by
  have herror : ∀ {e : Int}, 0 < e → (Phase.writeDone buf.length (-e)).Silent :=
    fun hpos => Int.neg_neg_of_pos hpos
  unfold rbWriteStart
  split
  · exact herror (by decide)
  · split
    · exact herror (by decide)
    · split
      · exact herror (by decide)
      · split
        · trivial
        · trivial

/-- Without a success there is nothing to tell, and nothing is reported. -/
theorem Phase.Silent.told {phase : Phase} (h : phase.Silent) (accepted : List (Nat × Bytes))
    (removed : List Removal) (c : Nat) : phase.Told accepted removed c := by
  cases phase with
  | readDone _ _ data result => exact fun hpos => absurd hpos (Int.not_lt.mpr h)
  | writeDone _ result => exact fun hle => absurd h (Int.not_lt.mpr hle)
  | _ => trivial

theorem Phase.Silent.returned {phase : Phase} (h : phase.Silent) (c : Nat) :
    writeReturned (c, phase) = none ∧ readReturned (c, phase) = none := by
  cases phase with
  | readDone _ _ data result => exact ⟨rfl, if_neg (Int.not_lt.mpr h)⟩
  | writeDone _ result => exact ⟨if_neg (Int.not_le.mpr h), rfl⟩
  | _ => exact ⟨rfl, rfl⟩

/-- What has been told stays true when other bytes move. -/
theorem Phase.Told.mono {phase : Phase} {accepted accepted' : List (Nat × Bytes)}
    {removed removed' : List Removal} {c : Nat} (h : phase.Told accepted removed c)
    (haccepted : writtenBy c accepted' = writtenBy c accepted)
    (hremoved : readBy c removed' = readBy c removed) : phase.Told accepted' removed' c := by
  cases phase with
  | readDone _ _ data result =>
    intro hpos
    rw [hremoved]
    exact h hpos
  | writeDone _ result =>
    intro hle
    rw [haccepted]
    exact h hle
  | _ => trivial

theorem writtenBy_append_of_ne {c c' : Nat} (hc : c' ≠ c) (accepted : List (Nat × Bytes))
    (data : Bytes) : writtenBy c' (accepted ++ [(c, data)]) = writtenBy c' accepted := by
  have hother : [(c, data)].filter (·.1 = c') = [] :=
    List.filter_cons_of_neg (by simpa using hc.symm)
  rw [writtenBy, List.filter_append, hother, List.append_nil]
  rfl

theorem writtenBy_getLast (c : Nat) (accepted : List (Nat × Bytes)) (data : Bytes) :
    (writtenBy c (accepted ++ [(c, data)])).getLast? = some (c, data) := by
  have hown : [(c, data)].filter (·.1 = c) = [(c, data)] :=
    List.filter_cons_of_pos (decide_eq_true rfl)
  rw [writtenBy, List.filter_append, hown]
  exact List.getLast?_concat

theorem readBy_append {c : Nat} {x : Removal} (hx : x.isReadOf c = false) (removed : List Removal) :
    readBy c (removed ++ [x]) = readBy c removed := by
  rw [readBy, List.filter_append, List.filter_cons_of_neg (by rw [hx]; exact Bool.false_ne_true),
    List.filter_nil, List.append_nil]
  rfl

theorem readBy_getLast {c : Nat} {x : Removal} (hx : x.isReadOf c = true)
    (removed : List Removal) : (readBy c (removed ++ [x])).getLast? = some x := by
  rw [readBy, List.filter_append, List.filter_cons_of_pos hx]
  exact List.getLast?_concat

end Operations

/-! ## Runs -/

section Runs

variable {s s' : Stream} {c : Nat} {m : StreamMove}

/-- What holds of the stream throughout. -/
structure Stream.Inv (s : Stream) : Prop where
  valid : Valid s.device.rb
  kept : s.Kept

/-- A finished call is told after its bytes have moved. -/
theorem Stream.Kept.told_update (h : s.Kept) {phase : Phase} {accepted : List (Nat × Bytes)}
    {removed : List Removal}
    (haccepted : ∀ c', c' ≠ c → writtenBy c' accepted = writtenBy c' s.accepted)
    (hremoved : ∀ c', c' ≠ c → readBy c' removed = readBy c' s.removed)
    (hphase : phase.Told accepted removed c) (c' : Nat) :
    (Function.update s.device.caller c phase c').Told accepted removed c' := by
  rcases eq_or_ne c' c with rfl | hc
  · rw [Function.update_self]
    exact hphase
  · rw [Function.update_of_ne hc]
    exact (h.told c').mono (haccepted c' hc) (hremoved c' hc)

/-- `ring_buffer_read` and the rest of `rb_read`. -/
theorem Stream.moved_read (h : Valid s.device.rb) {kbuf : Bytes} {copyFails : Bool}
    (hphase : s.device.caller c = .reading kbuf)
    (hstep : s.Step (.call (.locked c copyFails)) s') : s.Moved c s' := by
  unfold Stream.Step Stream.step Device.step Stream.record at hstep
  simp only [hphase] at hstep
  rcases eq_or_ne s.device.rb.count 0 with hempty | hcount
  · have hread : ringBufferRead s.device.rb kbuf = some (0, kbuf, s.device.rb) := if_pos hempty
    simp only [rbReadFinish, hread, Option.bind_eq_bind, Option.bind_some, if_pos hempty] at hstep
    cases hstep
    exact .nothing _ _ (Int.le_refl 0)
  · obtain ⟨data, rb', hread, hdata, hvalid, hcontents, hsize, hwrites, hreads, hoverruns⟩ :=
      h.read_takes kbuf hcount
    have hall : s.device.rb.contents =
        s.device.rb.contents.take kbuf.length ++ rb'.contents := by
      rw [hcontents, List.take_append_drop]
    simp only [rbReadFinish, hread, Option.bind_eq_bind, Option.bind_some, if_neg hcount,
      Int.toNat_natCast, hdata] at hstep
    split at hstep
    · next hfinish =>
      split at hfinish
      · next hfails =>
        cases hfinish
        cases hstep
        refine .takes _ _ _ _ _ hvalid hall hwrites hreads hoverruns
          (fun hcopied => ?_) (fun _ => show (-efault : Int) ≤ 0 by decide)
        rw [decide_eq_true hfails] at hcopied
        cases hcopied
      · next hcopied =>
        cases hfinish
        cases hstep
        refine .takes _ _ _ _ _ hvalid hall hwrites hreads hoverruns
          (fun _ => ⟨_, rfl⟩) (fun hfails => ?_)
        rw [decide_eq_false hcopied] at hfails
        cases hfails
    · cases hstep

/-- `ring_buffer_write` and the rest of `rb_write`. -/
theorem Stream.moved_write (h : Valid s.device.rb) {kbuf : Bytes} {copyFails : Bool}
    (hphase : s.device.caller c = .writing kbuf)
    (hstep : s.Step (.call (.locked c copyFails)) s') : s.Moved c s' := by
  unfold Stream.Step Stream.step Device.step Stream.record at hstep
  simp only [hphase] at hstep
  rcases eq_or_ne (s.device.rb.size - s.device.rb.count) 0 with hfull | hfree
  · simp only [rbWriteFinish, ringBufferWrite_full kbuf hfull, Option.bind_eq_bind,
      Option.bind_some] at hstep
    cases hstep
    obtain ⟨h1, h2, h3, h4, h5, h6, h7⟩ := h
    exact .refused _ _ _ ⟨h1, h2, h3, h4, h5, h6, h7⟩ rfl rfl rfl rfl
      (show (-enospc : Int) < 0 by decide)
  · obtain ⟨n, rb', hwrite, hn, hvalid, hcontents, hsize, hwrites, hreads, hoverruns⟩ :=
      h.write_appends kbuf hfree
    have hpos : ¬(n : Int) < 0 := Int.not_lt.mpr (Int.natCast_nonneg n)
    simp only [rbWriteFinish, hwrite, Option.bind_eq_bind, Option.bind_some, if_neg hpos,
      Int.toNat_natCast] at hstep
    cases hstep
    have hlength : (n : Int) = ((kbuf.take n).length : Int) := by
      rw [List.length_take, Nat.min_eq_left hn]
    exact .appends _ _ _ _ hvalid hcontents hwrites hreads hoverruns ⟨_, by rw [← hlength]⟩

/-- A caller's step moves bytes in one of four ways. -/
theorem Stream.moved (h : Valid s.device.rb) (hcaller : m.caller = some c) (hstep : s.Step m s') :
    s.Moved c s' := by
  cases m with
  | call a =>
    cases a with
    | read c0 bufNull kbuf len =>
      obtain rfl : c0 = c := Option.some.inj hcaller
      unfold Stream.Step Stream.step Device.step Stream.record at hstep
      dsimp only at hstep
      split at hstep
      · next hbegin =>
        split at hbegin
        · cases hbegin
          cases hstep
          split
          · exact .nothing _ _ (rbReadStart_silent _ _ _)
          · exact .nothing _ _ (rbReadStart_silent _ _ _)
        · cases hbegin
      · cases hstep
    | write c0 bufNull kbuf copyFails buf =>
      obtain rfl : c0 = c := Option.some.inj hcaller
      unfold Stream.Step Stream.step Device.step Stream.record at hstep
      dsimp only at hstep
      split at hstep
      · next hbegin =>
        split at hbegin
        · cases hbegin
          cases hstep
          split
          · split
            · exact .nothing _ _ (rbWriteStart_silent _ _ _ _)
            · exact .nothing _ _ (rbWriteStart_silent _ _ _ _)
          · exact .nothing _ _ (rbWriteStart_silent _ _ _ _)
        · cases hbegin
      · cases hstep
    | found c0 =>
      obtain rfl : c0 = c := Option.some.inj hcaller
      unfold Stream.Step Stream.step Device.step Stream.record at hstep
      dsimp only at hstep
      split at hstep
      · next hfound =>
        cases hstep
        split at hfound
        · split at hfound
          · cases hfound
            exact .nothing _ _ trivial
          · cases hfound
        · split at hfound
          · cases hfound
            exact .nothing _ _ trivial
          · cases hfound
        · cases hfound
      · cases hstep
    | locked c0 copyFails =>
      obtain rfl : c0 = c := Option.some.inj hcaller
      cases hphase : s.device.caller c0 with
      | reading kbuf => exact moved_read h hphase hstep
      | writing kbuf => exact moved_write h hphase hstep
      | _ =>
        unfold Stream.Step Stream.step Device.step at hstep
        simp only [hphase] at hstep
        cases hstep
  | signal c0 =>
    obtain rfl : c0 = c := Option.some.inj hcaller
    unfold Stream.Step Stream.step at hstep
    dsimp only at hstep
    split at hstep
    · cases hstep
      exact .nothing _ _ (show (-erestartsys : Int) ≤ 0 by decide)
    · cases hstep
      exact .nothing _ _ (show (-erestartsys : Int) < 0 by decide)
    · cases hstep
  | clear => cases hcaller
  | setBlocking blocking => cases hcaller

/-- One step of a caller. -/
theorem Stream.Inv.moved (h : s.Inv) (hmoved : s.Moved c s') : s'.Inv := by
  cases hmoved with
  | nothing phase live hsilent =>
    exact ⟨h.valid, h.kept.order, h.kept.fits,
      h.kept.told_update (fun _ _ => rfl) (fun _ _ => rfl) (hsilent.told _ _ _), h.kept.writes,
      h.kept.reads, h.kept.overruns⟩
  | refused rb' phase live hvalid hcontents hwrites hreads hoverruns hsilent =>
    refine ⟨hvalid, ?_, hvalid.length_contents.trans_le hvalid.count_le,
      h.kept.told_update (fun _ _ => rfl) (fun _ _ => rfl) (hsilent.told _ _ _),
      hwrites.trans h.kept.writes, hreads.trans h.kept.reads, ?_⟩
    · show s.accepted.flatMap Prod.snd = s.removed.flatMap Removal.data ++ rb'.contents
      rw [hcontents, h.kept.order]
    · show rb'.overruns = UInt64.ofNat (s.refused + 1)
      rw [hoverruns, h.kept.overruns, UInt64.ofNat_add]
      rfl
  | takes rb' phase live data copied hvalid hcontents hwrites hreads hoverruns hcopied hfailed =>
    have htold : phase.Told s.accepted (s.removed ++ [Removal.read c data copied]) c := by
      cases copied with
      | false => exact (hfailed rfl).told _ _ _
      | true =>
        obtain ⟨len, rfl⟩ := hcopied rfl
        have hown : (Removal.read c data true).isReadOf c = true := decide_eq_true rfl
        exact fun _ => ⟨rfl, readBy_getLast hown _⟩
    refine ⟨hvalid, ?_, hvalid.length_contents.trans_le hvalid.count_le,
      h.kept.told_update (fun _ _ => rfl)
        (fun c' hc => readBy_append (x := .read c data copied) (decide_eq_false hc.symm) _) htold,
      hwrites.trans h.kept.writes, ?_, hoverruns.trans h.kept.overruns⟩
    · show s.accepted.flatMap Prod.snd = (s.removed ++ _).flatMap Removal.data ++ rb'.contents
      rw [h.kept.order, hcontents, List.flatMap_append, List.append_assoc, List.flatMap_singleton]
      rfl
    · show rb'.reads = UInt64.ofNat ((s.removed ++ _).countP _)
      rw [hreads, h.kept.reads, List.countP_append, UInt64.ofNat_add]
      rfl
  | appends rb' phase live data hvalid hcontents hwrites hreads hoverruns hphase =>
    obtain ⟨len, rfl⟩ := hphase
    refine ⟨hvalid, ?_, hvalid.length_contents.trans_le hvalid.count_le,
      h.kept.told_update (fun _ hc => writtenBy_append_of_ne hc _ _) (fun _ _ => rfl)
        (fun _ => ⟨data, writtenBy_getLast c _ _, rfl⟩), ?_,
      hreads.trans h.kept.reads, hoverruns.trans h.kept.overruns⟩
    · show (s.accepted ++ _).flatMap Prod.snd = s.removed.flatMap Removal.data ++ rb'.contents
      rw [List.flatMap_append, h.kept.order, hcontents, List.append_assoc,
        List.flatMap_singleton]
    · show rb'.writes = UInt64.ofNat (s.accepted ++ _).length
      rw [hwrites, h.kept.writes, List.length_append, UInt64.ofNat_add]
      rfl

/-- One step. -/
theorem Stream.Inv.step (h : s.Inv) (hstep : s.Step m s') : s'.Inv := by
  cases hcaller : m.caller with
  | some c => exact h.moved (Stream.moved h.valid hcaller hstep)
  | none =>
    cases m with
    | call a => cases a <;> cases hcaller
    | signal c => cases hcaller
    | clear =>
      cases hstep
      have hclear := h.valid.represents.clear
      refine ⟨hclear.valid, ?_, ?_, ?_, h.kept.writes, ?_, h.kept.overruns⟩
      · show s.accepted.flatMap Prod.snd =
          (s.removed ++ [Removal.cleared _]).flatMap Removal.data ++ _
        rw [hclear.contents, h.kept.order, List.flatMap_append, List.flatMap_singleton]
        exact (List.append_nil _).symm
      · exact hclear.valid.length_contents.trans_le hclear.valid.count_le
      · exact fun c => (h.kept.told c).mono rfl (readBy_append rfl _)
      · show s.device.rb.reads = UInt64.ofNat ((s.removed ++ _).countP _)
        rw [h.kept.reads, List.countP_append]
        rfl
    | setBlocking blocking =>
      cases hstep
      obtain ⟨h1, h2, h3, h4, h5, h6, h7⟩ := h.valid
      exact ⟨⟨h1, h2, h3, h4, h5, h6, h7⟩, h.kept.order, h.kept.fits, h.kept.told, h.kept.writes,
        h.kept.reads, h.kept.overruns⟩

/-- A caller's step adds an entry exactly if it is a return with success. -/
theorem Stream.Moved.reported (h : s.Moved c s') :
    (∃ entries, s'.accepted = s.accepted ++ entries ∧
      entries.map (fun x => (x.1, (x.2.length : Int))) =
        (writeReturned (c, s'.device.caller c)).toList) ∧
      ∃ entries, s'.removed = s.removed ++ entries ∧
        entries.filterMap Removal.given = (readReturned (c, s'.device.caller c)).toList := by
  have hcaller : ∀ phase, Function.update s.device.caller c phase c = phase :=
    fun phase => Function.update_self ..
  cases h with
  | nothing phase live hsilent =>
    obtain ⟨hwrite, hread⟩ := hsilent.returned c
    rw [Device.setCaller]
    dsimp only
    rw [hcaller, hwrite, hread]
    exact ⟨⟨[], (List.append_nil _).symm, rfl⟩, [], (List.append_nil _).symm, rfl⟩
  | refused rb' phase live hvalid hcontents hwrites hreads hoverruns hsilent =>
    obtain ⟨hwrite, hread⟩ := hsilent.returned c
    dsimp only
    rw [hcaller, hwrite, hread]
    exact ⟨⟨[], (List.append_nil _).symm, rfl⟩, [], (List.append_nil _).symm, rfl⟩
  | takes rb' phase live data copied hvalid hcontents hwrites hreads hoverruns hcopied hfailed =>
    dsimp only
    rw [hcaller]
    cases copied with
    | false =>
      obtain ⟨hwrite, hread⟩ := (hfailed rfl).returned c
      rw [hwrite, hread]
      exact ⟨⟨[], (List.append_nil _).symm, rfl⟩, _, rfl, rfl⟩
    | true =>
      obtain ⟨len, rfl⟩ := hcopied rfl
      refine ⟨⟨[], (List.append_nil _).symm, rfl⟩, _, rfl, ?_⟩
      rw [readReturned]
      by_cases hempty : data = []
      · subst hempty
        rfl
      · have hpos : (0 : Int) < data.length :=
          Int.natCast_pos.mpr (List.length_pos_of_ne_nil hempty)
        have hgiven : (Removal.read c data true).given = some (c, data, (data.length : Int)) :=
          if_neg hempty
        rw [if_pos hpos, List.filterMap_cons_some hgiven, List.filterMap_nil]
        rfl
  | appends rb' phase live data hvalid hcontents hwrites hreads hoverruns hphase =>
    obtain ⟨len, rfl⟩ := hphase
    dsimp only
    rw [hcaller, writeReturned, if_pos (Int.natCast_nonneg _)]
    exact ⟨⟨_, rfl, rfl⟩, [], (List.append_nil _).symm, rfl⟩

/-- The returns of a longer run. -/
theorem returns_cons {α : Type} (x : Stream × StreamMove) (trace : List (Stream × StreamMove))
    (f : Nat × Phase → Option α) :
    (x :: trace).reverse.filterMap (fun x => (Stream.leaves x).bind f) =
      trace.reverse.filterMap (fun x => (Stream.leaves x).bind f) ++
        ((Stream.leaves x).bind f).toList := by
  rw [List.reverse_cons, List.filterMap_append, List.filterMap_cons]
  cases (Stream.leaves x).bind f <;> rfl

/-- One step and its report. -/
theorem Stream.Reported.step {trace : List (Stream × StreamMove)} (h : s.Reported trace)
    (hvalid : Valid s.device.rb) (hstep : s.Step m s') : s'.Reported ((s, m) :: trace) := by
  have hleaves : Stream.leaves (s, m) = m.caller.map fun c => (c, s'.device.caller c) := by
    rw [Stream.leaves, show s.step m = some s' from hstep]
    cases m.caller <;> rfl
  cases hcaller : m.caller with
  | some c =>
    obtain ⟨⟨written, haccepted, hwrite⟩, given, hremoved, hread⟩ :=
      (Stream.moved hvalid hcaller hstep).reported
    rw [hcaller, Option.map_some] at hleaves
    refine ⟨?_, ?_⟩
    · rw [returns_cons, hleaves, haccepted, List.map_append, h.writes, hwrite]
      rfl
    · rw [returns_cons, hleaves, hremoved, List.filterMap_append, h.reads, hread]
      rfl
  | none =>
    have hsame : s'.accepted = s.accepted ∧
        s'.removed.filterMap Removal.given = s.removed.filterMap Removal.given := by
      cases m with
      | call a => cases a <;> cases hcaller
      | signal c => cases hcaller
      | clear =>
        cases hstep
        refine ⟨rfl, ?_⟩
        rw [List.filterMap_append, List.filterMap_cons_none rfl, List.filterMap_nil,
          List.append_nil]
      | setBlocking blocking =>
        cases hstep
        exact ⟨rfl, rfl⟩
    rw [hcaller, Option.map_none] at hleaves
    refine ⟨?_, ?_⟩
    · rw [returns_cons, hleaves, hsame.1, h.writes]
      exact (List.append_nil _).symm
    · rw [returns_cons, hleaves, hsame.2, h.reads]
      exact (List.append_nil _).symm

/-- In every run from a new ring buffer, with any callers, signals, changes of the mode and
`RB_CLEAR`s in any order, no accepted byte is lost, doubled or overtaken in the ring buffer, each
successful return of a call is the report of one entry for the bytes that have moved, in the
order of the entries, and the statistics are those of the run. -/
theorem stream_kept (mem : Nat → UInt8) {size : Nat} (hmin : 256 ≤ size) (hmax : size ≤ 65536) :
    ∃ rb, ringBufferInit mem size = .ok rb ∧
      ∀ trace s, Run Stream.Step (Stream.idle rb) trace s → s.Kept ∧ s.Reported trace := by
  obtain ⟨rb, hinit, hrepresents⟩ := represents_init mem hmin hmax
  obtain ⟨hwrites, hreads, hoverruns⟩ : rb.writes = 0 ∧ rb.reads = 0 ∧ rb.overruns = 0 := by
    unfold ringBufferInit at hinit
    split at hinit
    · cases hinit
    · cases hinit
      exact ⟨rfl, rfl, rfl⟩
  have hinv : ∀ trace s, Run Stream.Step (Stream.idle rb) trace s → s.Inv := by
    intro trace s hrun
    refine hrun.invariant (I := Stream.Inv) (C := fun _ _ => True) ⟨hrepresents.valid, ?_⟩
      (fun _ _ _ h _ hstep => h.step hstep) (fun _ _ => trivial)
    exact ⟨hrepresents.contents.symm, hrepresents.valid.length_contents.trans_le
      hrepresents.valid.count_le, fun _ => trivial, hwrites, hreads, hoverruns⟩
  refine ⟨rb, hinit, fun trace s hrun => ⟨(hinv trace s hrun).kept, ?_⟩⟩
  induction hrun with
  | nil => exact ⟨rfl, rfl⟩
  | cons hbefore hstep ih => exact ih.step (hinv _ _ hbefore).valid hstep

/-- Two bytes are written, one of them is read, and the other one is cleared. -/
theorem stream_kept_two :
    ∃ rb trace s, ringBufferInit (fun _ => 0) 256 = .ok rb ∧
      Run Stream.Step (Stream.idle rb) trace s ∧ s.accepted = [(0, [1, 2])] ∧
      s.removed = [.read 1 [1] true, .cleared [2]] ∧ s.Kept ∧ s.Reported trace := by
  obtain ⟨rb, hinit, hkept⟩ :=
    stream_kept (fun _ => 0) (show 256 ≤ 256 by decide) (show 256 ≤ 65536 by decide)
  have hexec : (exec Stream.step [.call (.write 0 false (some fun _ => 0) false [1, 2]),
      .call (.found 0), .call (.locked 0 false), .call (.read 1 false (some fun _ => 0) 1),
      .call (.found 1), .call (.locked 1 false), .clear] (Stream.idle rb)).map
        (fun s => (s.accepted, s.removed)) =
      some ([(0, [1, 2])], [.read 1 [1] true, .cleared [2]]) := by
    obtain rfl : _ = rb := Except.ok.inj hinit
    decide +kernel
  obtain ⟨s, hs, hfields⟩ := Option.map_eq_some_iff.mp hexec
  obtain ⟨haccepted, hremoved⟩ := Prod.mk.inj hfields
  obtain ⟨trace, hrun⟩ := Run.nil.exec hs
  exact ⟨rb, trace, s, hinit, hrun, haccepted, hremoved, hkept trace s hrun⟩

/-! ### Kernel memory -/

/-- One caller goes to another phase with another number of `kbuf`s. -/
theorem live_update {live : Nat → Nat} {caller : Nat → Phase} {leaked : Nat → Nat} (c : Nat)
    (phase : Phase) (n : Nat) (leak : Nat → Bool)
    (hlive : ∀ c', live c' = (caller c').holds + leaked c')
    (hother : ∀ c', c' ≠ c → leak c' = false)
    (hn : n = phase.holds + (leaked c + (leak c).toNat)) (c' : Nat) :
    Function.update live c n c' =
      (Function.update caller c phase c').holds + (leaked c' + (leak c').toNat) := by
  rcases eq_or_ne c' c with rfl | hc
  · rw [Function.update_self, Function.update_self, hn]
  · rw [Function.update_of_ne hc, Function.update_of_ne hc, hother c' hc, hlive c']
    rfl

/-- `rb_read` allocates a `kbuf` exactly if it keeps it for later or leaks it. -/
theorem rbReadStart_allocates (rb : RingBuffer) (bufNull : Bool) (kbuf : Option (Nat → UInt8))
    (len : Nat) :
    (!bufNull && kbuf.isSome).toNat = (rbReadStart rb bufNull kbuf len).holds +
      (!bufNull && kbuf.isSome && !rb.blocking && rb.count = 0).toNat := by
  unfold rbReadStart
  cases bufNull with
  | true => rfl
  | false =>
    cases kbuf with
    | none => rfl
    | some mem =>
      cases rb.blocking with
      | true => rfl
      | false =>
        rcases eq_or_ne rb.count 0 with hempty | hcount
        · simp [hempty, Phase.holds]
        · simp [hcount, Phase.holds]

/-- `rb_write` frees the `kbuf` that it does not keep. -/
theorem rbWriteStart_allocates (rb : RingBuffer) (bufNull : Bool) (kbuf : Option (Nat → UInt8))
    (copyFails : Bool) (buf : Bytes) :
    (!bufNull && kbuf.isSome && !copyFails).toNat =
      (rbWriteStart rb bufNull kbuf copyFails buf).holds := by
  unfold rbWriteStart
  cases bufNull with
  | true => rfl
  | false =>
    cases kbuf with
    | none => rfl
    | some mem =>
      cases copyFails with
      | true => rfl
      | false =>
        cases rb.blocking with
        | true => rfl
        | false => rfl

/-- What a free caller's call does to the number of its `kbuf`s. -/
theorem Phase.holds_of_free {phase : Phase} (h : phase.free = true) : phase.holds = 0 := by
  cases phase with
  | outside => rfl
  | readDone => rfl
  | writeDone => rfl
  | _ => cases h

theorem leaks_of_ne {c c' : Nat} (hc : c' ≠ c) (s : Stream) :
    (∀ bufNull kbuf len, leaks c' (s, .call (.read c bufNull kbuf len)) = false) ∧
      leaks c' (s, .signal c) = false := by
  have hne : decide (c = c') = false := decide_eq_false (Ne.symm hc)
  refine ⟨fun bufNull kbuf len => ?_, ?_⟩
  · simp [leaks, hne]
  · simp [leaks, hne]

/-- Each caller has the `kbuf`s that it holds in a call and those that it has leaked. -/
def Stream.Counted (s : Stream) (leaked : Nat → Nat) : Prop :=
  ∀ c, s.live c = (s.device.caller c).holds + leaked c

section Live

variable {leaked : Nat → Nat}

theorem Stream.Counted.read {c0 len : Nat} {bufNull : Bool} {kbuf : Option (Nat → UInt8)}
    (hlive : s.Counted leaked) (hstep : s.Step (.call (.read c0 bufNull kbuf len)) s') :
    s'.Counted fun c => leaked c + (leaks c (s, .call (.read c0 bufNull kbuf len))).toNat := by
  intro c
  unfold Stream.Step Stream.step Device.step Stream.record at hstep
  dsimp only at hstep
  split at hstep
  · next hbegin =>
    split at hbegin
    · next hfree =>
      cases hbegin
      cases hstep
      have hallocates := rbReadStart_allocates s.device.rb bufNull kbuf len
      have hc0 := hlive c0
      rw [Phase.holds_of_free hfree] at hc0
      have hleaks : leaks c0 (s, .call (.read c0 bufNull kbuf len)) =
          (!bufNull && kbuf.isSome && !s.device.rb.blocking && s.device.rb.count = 0) := by
        simp [leaks]
      have hupdate := fun n => live_update c0 (rbReadStart s.device.rb bufNull kbuf len) n
        (fun c => leaks c (s, .call (.read c0 bufNull kbuf len))) hlive
        (fun c hc => (leaks_of_ne hc s).1 _ _ _)
      rw [hleaks] at hupdate
      split
      · next hsome =>
        have hone : (!bufNull && kbuf.isSome).toNat = 1 := congrArg Bool.toNat hsome
        exact hupdate _ (by omega) c
      · next hnone =>
        have hzero : (!bufNull && kbuf.isSome).toNat = 0 :=
          congrArg Bool.toNat (Bool.eq_false_iff.mpr hnone)
        have hsame := hupdate (s.live c0) (by omega) c
        rwa [Function.update_eq_self] at hsame
    · cases hbegin
  · cases hstep

theorem Stream.Counted.write {c0 : Nat} {bufNull copyFails : Bool} {kbuf : Option (Nat → UInt8)}
    {buf : Bytes} (hlive : s.Counted leaked)
    (hstep : s.Step (.call (.write c0 bufNull kbuf copyFails buf)) s') : s'.Counted leaked := by
  intro c
  unfold Stream.Step Stream.step Device.step Stream.record at hstep
  dsimp only at hstep
  split at hstep
  · next hbegin =>
    split at hbegin
    · next hfree =>
      cases hbegin
      cases hstep
      have hallocates := rbWriteStart_allocates s.device.rb bufNull kbuf copyFails buf
      have hc0 := hlive c0
      rw [Phase.holds_of_free hfree] at hc0
      have hupdate := fun n => live_update c0
        (rbWriteStart s.device.rb bufNull kbuf copyFails buf) n (fun _ => false) hlive
        (fun _ _ => rfl)
      split
      · next hsome =>
        split
        · next hfails =>
          rw [hsome, hfails] at hallocates
          have hsame := hupdate (s.live c0) (by rw [hc0, hfails, ← hallocates]; rfl) c
          have hlive1 : (s.allocate c0).live = Function.update s.live c0 (s.live c0 + 1) := rfl
          show Function.update (s.allocate c0).live c0 _ c = _
          rw [hlive1, Function.update_idem, Function.update_self]
          exact hsame
        · next hcopied =>
          obtain rfl : copyFails = false := Bool.eq_false_iff.mpr hcopied
          rw [hsome] at hallocates
          exact hupdate _ (by rw [hc0, ← hallocates, Nat.zero_add, Nat.add_comm]; rfl) c
      · next hnone =>
        rw [Bool.eq_false_iff.mpr hnone] at hallocates
        have hsame := hupdate (s.live c0) (by rw [hc0, ← hallocates]; rfl) c
        rwa [Function.update_eq_self] at hsame
    · cases hbegin
  · cases hstep

theorem Stream.Counted.found {c0 : Nat} (hlive : s.Counted leaked)
    (hstep : s.Step (.call (.found c0)) s') : s'.Counted leaked := by
  intro c
  unfold Stream.Step Stream.step Device.step Stream.record at hstep
  dsimp only at hstep
  split at hstep
  · next hfound =>
    cases hstep
    have hc0 := hlive c0
    have hsame := fun phase hholds => live_update c0 phase (s.live c0) (fun _ => false) hlive
      (fun _ _ => rfl) hholds c
    rw [Function.update_eq_self] at hsame
    split at hfound
    · next kbuf hphase =>
      rw [hphase] at hc0
      split at hfound
      · cases hfound
        exact hsame _ hc0
      · cases hfound
    · next kbuf hphase =>
      rw [hphase] at hc0
      split at hfound
      · cases hfound
        exact hsame _ hc0
      · cases hfound
    · cases hfound
  · cases hstep

theorem Stream.Counted.locked {c0 : Nat} {copyFails : Bool} (hlive : s.Counted leaked)
    (hstep : s.Step (.call (.locked c0 copyFails)) s') : s'.Counted leaked := by
  intro c
  have hgone := fun phase (hphase : Phase.holds phase = 0)
      (hheld : (s.device.caller c0).holds = 1) =>
    live_update c0 phase (s.live c0 - 1) (fun _ => false) hlive (fun _ _ => rfl)
      (by rw [hphase, hlive c0, hheld, Nat.zero_add, Nat.add_sub_cancel_left]; rfl) c
  unfold Stream.Step Stream.step Device.step Stream.record at hstep
  dsimp only at hstep
  cases hphase : s.device.caller c0 with
  | reading kbuf =>
    have hheld : (s.device.caller c0).holds = 1 := congrArg Phase.holds hphase
    cases hread : ringBufferRead s.device.rb kbuf with
    | none =>
      simp only [hphase, rbReadFinish, hread] at hstep
      cases hstep
    | some answer =>
      simp only [hphase, rbReadFinish, hread, Option.bind_eq_bind, Option.bind_some] at hstep
      split at hstep
      · next hfinish =>
        cases hstep
        split at hfinish
        · cases hfinish
          split
          · exact hgone _ rfl hheld
          · exact hgone _ rfl hheld
        · cases hfinish
          split
          · exact hgone _ rfl hheld
          · exact hgone _ rfl hheld
      · cases hstep
  | writing kbuf =>
    have hheld : (s.device.caller c0).holds = 1 := congrArg Phase.holds hphase
    cases hwrite : ringBufferWrite s.device.rb kbuf with
    | none =>
      simp only [hphase, rbWriteFinish, hwrite] at hstep
      cases hstep
    | some answer =>
      simp only [hphase, rbWriteFinish, hwrite, Option.bind_eq_bind, Option.bind_some] at hstep
      cases hstep
      split
      · exact hgone _ rfl hheld
      · exact hgone _ rfl hheld
  | _ =>
    simp only [hphase] at hstep
    cases hstep

theorem Stream.Counted.signal {c0 : Nat} (hlive : s.Counted leaked)
    (hstep : s.Step (.signal c0) s') :
    s'.Counted fun c => leaked c + (leaks c (s, .signal c0)).toNat := by
  intro c
  have hc0 := hlive c0
  unfold Stream.Step Stream.step at hstep
  dsimp only at hstep
  split at hstep
  · next kbuf hphase =>
    cases hstep
    rw [hphase] at hc0
    have hleak : leaks c0 (s, .signal c0) = true := by simp [leaks, hphase]
    have hupdate := live_update c0 (.readDone kbuf.length false [] (-erestartsys)) (s.live c0)
      (fun c => leaks c (s, .signal c0)) hlive (fun c hc => (leaks_of_ne hc s).2)
      (by rw [hc0, hleak, Nat.add_comm]; exact (Nat.zero_add _).symm) c
    rwa [Function.update_eq_self] at hupdate
  · next kbuf hphase =>
    cases hstep
    rw [hphase] at hc0
    have hleak : leaks c0 (s, .signal c0) = false := by simp [leaks, hphase]
    exact live_update c0 (.writeDone kbuf.length (-erestartsys)) (s.live c0 - 1)
      (fun c => leaks c (s, .signal c0)) hlive (fun c hc => (leaks_of_ne hc s).2)
      (by rw [hc0, hleak]; exact (Nat.add_sub_cancel_left ..).trans (Nat.zero_add _).symm) c
  · cases hstep

/-- One step and the `kbuf`s. -/
theorem Stream.Counted.step (hlive : s.Counted leaked) (hstep : s.Step m s') :
    s'.Counted fun c => leaked c + (leaks c (s, m)).toNat := by
  cases m with
  | call a =>
    cases a with
    | read => exact hlive.read hstep
    | write => exact hlive.write hstep
    | found => exact hlive.found hstep
    | locked => exact hlive.locked hstep
  | signal => exact hlive.signal hstep
  | clear =>
    cases hstep
    exact hlive
  | setBlocking =>
    cases hstep
    exact hlive

end Live

/-- In every run a caller has as many `kbuf`s as it holds in a call, and one more for each of its
reads that has returned with `-EAGAIN` or from a signal: those are never freed. -/
theorem stream_leaks {rb : RingBuffer} {trace : List (Stream × StreamMove)}
    (hrun : Run Stream.Step (Stream.idle rb) trace s) (c : Nat) :
    s.live c = (s.device.caller c).holds + trace.countP (leaks c) := by
  induction hrun generalizing c with
  | nil => rfl
  | cons _ hstep ih =>
    have hlive := Stream.Counted.step ih hstep c
    dsimp only at hlive
    rw [List.countP_cons, hlive]
    cases leaks c _ with
    | true => rfl
    | false => rfl

/-- A read of an empty buffer without blocking leaves its `kbuf` behind. -/
theorem stream_leaks_one :
    ∃ trace s, Run Stream.Step
        (Stream.idle { oneByte with tail := 1, count := 0, blocking := false }) trace s ∧
      s.device.caller 0 = .readDone 1 false [] (-eagain) ∧ s.live 0 = 1 := by
  have hread : (Stream.idle { oneByte with tail := 1, count := 0, blocking := false }).step
    (.call (.read 0 false (some fun _ => 0) 1)) = some _ := rfl
  have hrun : Run Stream.Step _ _ _ := Run.nil.cons hread
  exact ⟨_, _, hrun, rfl, stream_leaks hrun 0⟩

end Runs

end CourseWork.Driver
