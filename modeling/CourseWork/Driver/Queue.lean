import CourseWork.Driver.RingBuffer
import CourseWork.Lib.Runs

/-!
# The ring buffer as a queue

The ring buffer refines a bounded queue: the bytes from `tail` on, cyclically, are the
items, and every operation answers as the queue does.
-/

namespace CourseWork.Driver
open CLib Cyclic

/-! ## The bounded queue -/

/-- A queue of bytes with a capacity. -/
@[ext]
structure Queue where
  items : Bytes
  capacity : Nat
  fits : items.length ≤ capacity

namespace Queue

/-- A new queue. -/
def empty (capacity : Nat) : Queue := ⟨[], capacity, Nat.zero_le _⟩

/-- Appends what fits, and says how much that is. A full queue is an error. -/
def write (q : Queue) (data : Bytes) : Int × Queue :=
  if q.items.length = q.capacity then (-enospc, q)
  else
    ((min data.length (q.capacity - q.items.length) : Nat), {
      items := q.items ++ data.take (q.capacity - q.items.length)
      capacity := q.capacity
      fits := by
        have hfits := q.fits
        rw [List.length_append, List.length_take]
        omega })

/-- Moves the oldest items to the front of `data`, and says how many. -/
def read (q : Queue) (data : Bytes) : Int × Bytes × Queue :=
  ((min data.length q.items.length : Nat), q.items.take data.length ++ data.drop q.items.length, {
    items := q.items.drop data.length
    capacity := q.capacity
    fits := by
      have hfits := q.fits
      rw [List.length_drop]
      omega })

/-- Removes all items. -/
def clear (q : Queue) : Queue := empty q.capacity

/-- Another capacity, with the oldest items that fit. An invalid capacity is an error. -/
def resize (q : Queue) (capacity : Nat) : Int × Queue :=
  if capacity < minBufferSize ∨ capacity > maxBufferSize then (-einval, q)
  else (0, ⟨q.items.take capacity, capacity, List.length_take_le _ _⟩)

end Queue

/-! ## Representation -/

/-- The queued bytes. -/
def RingBuffer.contents (rb : RingBuffer) : Bytes := window rb.buffer rb.tail rb.count

/-- The invariant of the ring buffer. -/
structure Valid (rb : RingBuffer) : Prop where
  length_buffer : rb.buffer.length = rb.size
  head_lt : rb.head < rb.size
  tail_lt : rb.tail < rb.size
  count_le : rb.count ≤ rb.size
  head_eq : rb.head = (rb.tail + rb.count) % rb.size
  min_le : minBufferSize ≤ rb.size
  le_max : rb.size ≤ maxBufferSize

/-- The ring buffer represents the queue. -/
structure Represents (rb : RingBuffer) (q : Queue) : Prop where
  valid : Valid rb
  contents : rb.contents = q.items
  size : rb.size = q.capacity

section Represents

variable {rb : RingBuffer} {q : Queue}

theorem Represents.count (h : Represents rb q) : rb.count = q.items.length := by
  rw [← h.contents, RingBuffer.contents, length_window]
  rw [h.valid.length_buffer]
  exact h.valid.count_le

end Represents

/-! ## Copies with a split -/

section Copies

variable {buffer data : Bytes} {pos n : Nat}

theorem memcpy_of_le {dst src : Bytes} {i j : Nat} (hdst : i + n ≤ dst.length)
    (hsrc : j + n ≤ src.length) :
    memcpy dst i src j n = some (dst.take i ++ (src.drop j).take n ++ dst.drop (i + n)) :=
  if_pos ⟨hdst, hsrc⟩

/-- Data that fit before the end of the buffer are written by one call. -/
theorem memcpy_put_fits (hpos : pos ≤ buffer.length) (hn : n ≤ data.length)
    (hfits : n ≤ buffer.length - pos) :
    memcpy buffer pos data 0 n = some (put buffer pos (data.take n)) := by
  have hlen : (data.take n).length = n := by
    rw [List.length_take]
    exact Nat.min_eq_left hn
  rw [memcpy_of_le (by omega) (by omega), put, hlen, Nat.min_eq_left hfits, Nat.sub_self,
    List.drop_zero, List.drop_zero, List.drop_of_length_le (Nat.le_of_eq hlen), List.nil_append,
    List.take_take, Nat.min_self, List.append_assoc]

/-- Other data are written by two calls. -/
theorem memcpy_put_wraps (hpos : pos ≤ buffer.length) (hn : n ≤ data.length)
    (hbuffer : n ≤ buffer.length) (hwraps : buffer.length - pos < n) :
    ∃ buffer1, memcpy buffer pos data 0 (buffer.length - pos) = some buffer1 ∧
      memcpy buffer1 0 data (buffer.length - pos) (n - (buffer.length - pos)) =
        some (put buffer pos (data.take n)) := by
  have hlen : (data.take n).length = n := by
    rw [List.length_take]
    exact Nat.min_eq_left hn
  have hend : buffer.drop (pos + (buffer.length - pos)) = [] :=
    List.drop_of_length_le (by omega)
  refine ⟨_, memcpy_of_le (by omega) (by omega), ?_⟩
  rw [hend, List.append_nil, List.drop_zero, memcpy_of_le _ (by omega), put, hlen,
    Nat.min_eq_right (Nat.le_of_lt hwraps), hend, List.append_nil, List.take_zero, List.nil_append,
    Nat.zero_add, List.drop_take, List.take_take, Nat.min_eq_left (Nat.le_of_lt hwraps),
    List.drop_append_of_le_length, List.append_assoc]
  · rw [List.length_take]
    omega
  · simp only [List.length_append, List.length_take]
    omega

/-- A window that ends before the end of the buffer is read by one call. -/
theorem memcpy_window_fits (hpos : pos ≤ buffer.length) (hn : n ≤ data.length)
    (hfits : n ≤ buffer.length - pos) :
    memcpy data 0 buffer pos n = some (window buffer pos n ++ data.drop n) := by
  rw [memcpy_of_le (by omega) (by omega), window_eq_append hpos (by omega),
    Nat.sub_eq_zero_of_le hfits, List.take_zero, List.take_zero, List.nil_append, List.append_nil,
    Nat.zero_add]

/-- Another window is read by two calls. -/
theorem memcpy_window_wraps (hpos : pos ≤ buffer.length) (hn : n ≤ data.length)
    (hbuffer : n ≤ buffer.length) (hwraps : buffer.length - pos < n) :
    ∃ data1, memcpy data 0 buffer pos (buffer.length - pos) = some data1 ∧
      memcpy data1 (buffer.length - pos) buffer 0 (n - (buffer.length - pos)) =
        some (window buffer pos n ++ data.drop n) := by
  have hlen : (buffer.drop pos).length = buffer.length - pos := List.length_drop
  have hfirst : memcpy data 0 buffer pos (buffer.length - pos) =
      some (buffer.drop pos ++ data.drop (buffer.length - pos)) := by
    rw [memcpy_of_le (by omega) (by omega), List.take_zero, List.nil_append, Nat.zero_add,
      List.take_of_length_le (Nat.le_of_eq hlen)]
  have hdata1 : (buffer.drop pos ++ data.drop (buffer.length - pos)).length = data.length := by
    simp only [List.length_append, List.length_drop]
    omega
  have hgone : (buffer.drop pos).drop n = [] := List.drop_of_length_le (by omega)
  have hall : (buffer.drop pos).take n = buffer.drop pos := List.take_of_length_le (by omega)
  refine ⟨_, hfirst, ?_⟩
  rw [memcpy_of_le (by omega) (by omega), List.take_left' hlen, List.drop_zero,
    Nat.add_sub_cancel' (Nat.le_of_lt hwraps), List.drop_append, hgone, hlen, List.nil_append,
    List.drop_drop, Nat.add_sub_cancel' (Nat.le_of_lt hwraps), window_eq_append hpos hbuffer, hall]

end Copies

/-! ## The operations -/

section Operations

variable {rb : RingBuffer}

theorem Valid.length_contents (h : Valid rb) : rb.contents.length = rb.count := by
  rw [RingBuffer.contents, length_window]
  rw [h.length_buffer]
  exact h.count_le

/-- The next position of `head` or `tail`, as both branches of the source compute it. -/
theorem next_position {pos n size : Nat} (hpos : pos < size) (hn : n ≤ size) :
    (size - pos < n → (pos + n) % size = n - (size - pos)) := by
  intro hwraps
  rw [Nat.mod_eq_sub_mod (by omega), Nat.mod_eq_of_lt (by omega)]
  omega

theorem ringBufferWrite_full (data : Bytes) (hfull : rb.size - rb.count = 0) :
    ringBufferWrite rb data = some (-enospc, { rb with overruns := rb.overruns + 1 }) :=
  if_pos hfull

/-- Both branches of `ring_buffer_write` put the data behind the window. -/
theorem ringBufferWrite_eq (h : Valid rb) (data : Bytes) (hfree : rb.size - rb.count ≠ 0) {n : Nat}
    (hn : n = min data.length (rb.size - rb.count)) :
    ringBufferWrite rb data = some ((n : Int), { rb with
      buffer := put rb.buffer rb.head (data.take n)
      head := (rb.head + n) % rb.size
      count := rb.count + n
      writes := rb.writes + 1 }) := by
  have hlen := h.length_buffer
  have hhead := h.head_lt
  rw [ringBufferWrite, if_neg hfree]
  dsimp only
  rw [← hn]
  by_cases hwraps : rb.size - rb.head < n
  · obtain ⟨buffer1, hfirst, hsecond⟩ := memcpy_put_wraps
      (show rb.head ≤ rb.buffer.length by omega) (show n ≤ data.length by omega) (by omega)
      (by omega)
    rw [hlen] at hfirst hsecond
    rw [Nat.min_eq_right (Nat.le_of_lt hwraps), hfirst, Option.bind_eq_bind, Option.bind_some,
      if_pos hwraps, hsecond, next_position hhead (by omega) hwraps]
    rfl
  · have hfits : n ≤ rb.size - rb.head := Nat.le_of_not_lt hwraps
    rw [Nat.min_eq_left hfits, memcpy_put_fits (by omega) (by omega) (by omega)]
    rw [Option.bind_eq_bind, Option.bind_some, if_neg (Nat.lt_irrefl n)]
    rfl

/-- Both branches of `ring_buffer_read` read a window. -/
theorem ringBufferRead_eq (h : Valid rb) (data : Bytes) (hcount : rb.count ≠ 0) {n : Nat}
    (hn : n = min data.length rb.count) :
    ringBufferRead rb data = some ((n : Int), window rb.buffer rb.tail n ++ data.drop n, { rb with
      tail := (rb.tail + n) % rb.size
      count := rb.count - n
      reads := rb.reads + 1 }) := by
  have hlen := h.length_buffer
  have htail := h.tail_lt
  have hle := h.count_le
  rw [ringBufferRead, if_neg hcount]
  dsimp only
  rw [← hn]
  by_cases hwraps : rb.size - rb.tail < n
  · obtain ⟨data1, hfirst, hsecond⟩ := memcpy_window_wraps
      (show rb.tail ≤ rb.buffer.length by omega) (show n ≤ data.length by omega) (by omega)
      (by omega)
    rw [hlen] at hfirst hsecond
    rw [Nat.min_eq_right (Nat.le_of_lt hwraps), hfirst, Option.bind_eq_bind, Option.bind_some,
      if_pos hwraps, hsecond, next_position htail (by omega) hwraps]
    rfl
  · have hfits : n ≤ rb.size - rb.tail := Nat.le_of_not_lt hwraps
    rw [Nat.min_eq_left hfits, memcpy_window_fits (by omega) (by omega) (by omega)]
    rw [Option.bind_eq_bind, Option.bind_some, if_neg (Nat.lt_irrefl n)]
    rfl

theorem Represents.write {q : Queue} (h : Represents rb q) (data : Bytes) :
    ∃ rb', ringBufferWrite rb data = some ((q.write data).1, rb') ∧
      Represents rb' (q.write data).2 := by
  obtain ⟨items, capacity, fits⟩ := q
  obtain rfl : rb.contents = items := h.contents
  obtain rfl : rb.size = capacity := h.size
  obtain ⟨hlen, hhead, htail, hle, heq, hmin, hmax⟩ := h.valid
  have hcount := h.valid.length_contents
  rw [Queue.write]
  dsimp only
  by_cases hfull : rb.contents.length = rb.size
  · rw [if_pos hfull, ringBufferWrite_full data (by omega)]
    exact ⟨_, rfl, ⟨hlen, hhead, htail, hle, heq, hmin, hmax⟩, rfl, rfl⟩
  · have htake : (data.take (min data.length (rb.size - rb.count))).length =
        min data.length (rb.size - rb.count) := by
      rw [List.length_take, Nat.min_eq_left (Nat.min_le_left _ _)]
    have hbound := Nat.min_le_right data.length (rb.size - rb.count)
    have hanswer : ((min data.length (rb.size - rb.count) : Nat) : Int) =
        (min data.length (rb.size - rb.contents.length) : Nat) := by rw [hcount]
    rw [if_neg hfull, ringBufferWrite_eq h.valid data (by omega) rfl]
    refine ⟨_, congrArg (fun n => some (n, _)) hanswer, ⟨?_, Nat.mod_lt _ (Nat.zero_lt_of_lt hhead),
      htail, ?_, ?_, hmin, hmax⟩, ?_, rfl⟩
    · refine (length_put ?_ ?_).trans hlen
      · rw [hlen]
        exact Nat.le_of_lt hhead
      · rw [htake, hlen]
        omega
    · show rb.count + min data.length (rb.size - rb.count) ≤ rb.size
      omega
    · rw [heq, Nat.mod_add_mod, Nat.add_assoc]
    · have hput := window_put (show rb.tail < rb.buffer.length by omega)
        (show rb.count + (data.take (min data.length (rb.size - rb.count))).length ≤
          rb.buffer.length by omega) (show rb.head = _ by rw [hlen]; exact heq)
      rw [htake] at hput
      show window _ _ _ = _ ++ _
      rw [hput, hcount, List.take_eq_take_min (i := rb.size - rb.count), Nat.min_comm]
      rfl

theorem Represents.read {q : Queue} (h : Represents rb q) (data : Bytes) :
    ∃ rb', ringBufferRead rb data = some ((q.read data).1, (q.read data).2.1, rb') ∧
      Represents rb' (q.read data).2.2 := by
  obtain ⟨items, capacity, fits⟩ := q
  obtain rfl : rb.contents = items := h.contents
  obtain rfl : rb.size = capacity := h.size
  obtain ⟨hlen, hhead, htail, hle, heq, hmin, hmax⟩ := h.valid
  have hcount := h.valid.length_contents
  rw [Queue.read]
  dsimp only
  by_cases hempty : rb.count = 0
  · have hitems : rb.contents = [] := List.eq_nil_of_length_eq_zero (hcount.trans hempty)
    rw [ringBufferRead, if_pos hempty]
    refine ⟨rb, ?_, h.valid, ?_, rfl⟩
    · rw [hitems, List.length_nil, Nat.min_zero, List.take_nil, List.drop_zero, List.nil_append]
      rfl
    · show rb.contents = rb.contents.drop _
      rw [hitems, List.drop_nil]
  · have hbound := Nat.min_le_right data.length rb.count
    have hdrop : data.drop (min data.length rb.count) = data.drop rb.count := by
      rcases Nat.le_total data.length rb.count with hle | hle
      · rw [Nat.min_eq_left hle, List.drop_length, List.drop_of_length_le hle]
      · rw [Nat.min_eq_right hle]
    have hread : ringBufferRead rb data = some (((min data.length rb.contents.length : Nat) : Int),
        rb.contents.take data.length ++ data.drop rb.contents.length, { rb with
          tail := (rb.tail + min data.length rb.count) % rb.size
          count := rb.count - min data.length rb.count
          reads := rb.reads + 1 }) := by
      rw [ringBufferRead_eq h.valid data hempty rfl, hcount, hdrop, RingBuffer.contents,
        take_window]
    refine ⟨_, hread, ⟨hlen, hhead, Nat.mod_lt _ (Nat.zero_lt_of_lt htail), ?_, ?_, hmin, hmax⟩, ?_,
      rfl⟩
    · exact Nat.le_trans (Nat.sub_le _ _) hle
    · have htotal : rb.tail + min data.length rb.count + (rb.count - min data.length rb.count) =
          rb.tail + rb.count := by omega
      rw [heq, Nat.mod_add_mod, htotal]
    · have hmod := window_mod rb.buffer (rb.tail + min data.length rb.count)
        (rb.count - min data.length rb.count)
      rw [hlen, ← drop_window hbound (show rb.count ≤ rb.buffer.length by omega)] at hmod
      show window _ _ _ = rb.contents.drop _
      rw [hmod]
      show rb.contents.drop _ = _
      rcases Nat.le_total data.length rb.count with hle | hle
      · rw [Nat.min_eq_left hle]
      · rw [Nat.min_eq_right hle, List.drop_of_length_le (Nat.le_of_eq hcount),
          List.drop_of_length_le (by omega)]

theorem Represents.clear {q : Queue} (h : Represents rb q) :
    Represents (ringBufferClear rb) q.clear := by
  obtain ⟨hlen, hhead, htail, hle, heq, hmin, hmax⟩ := h.valid
  refine ⟨⟨hlen, ?_, ?_, Nat.zero_le _, rfl, hmin, hmax⟩, window_zero _ _, h.size⟩
  · exact Nat.zero_lt_of_lt hhead
  · exact Nat.zero_lt_of_lt hhead

theorem length_kmalloc (mem : Nat → UInt8) (size : Nat) : (kmalloc mem size).length = size := by
  rw [kmalloc, List.length_map, List.length_range]

theorem copyOut_eq (h : Valid rb) {tempBuf : Bytes} (hle : tempBuf.length ≤ rb.size) :
    copyOut rb tempBuf tempBuf.length = some (window rb.buffer rb.tail tempBuf.length) := by
  have hlen := h.length_buffer
  have htail := h.tail_lt
  rw [copyOut]
  by_cases hwraps : rb.size - rb.tail < tempBuf.length
  · obtain ⟨temp1, hfirst, hsecond⟩ := memcpy_window_wraps
      (show rb.tail ≤ rb.buffer.length by omega) (Nat.le_refl tempBuf.length) (by omega) (by omega)
    rw [hlen] at hfirst hsecond
    rw [Nat.min_eq_right (Nat.le_of_lt hwraps), hfirst, Option.bind_eq_bind, Option.bind_some,
      if_pos hwraps, hsecond, List.drop_length, List.append_nil]
  · have hfits : tempBuf.length ≤ rb.size - rb.tail := Nat.le_of_not_lt hwraps
    rw [Nat.min_eq_left hfits, memcpy_window_fits (by omega) (Nat.le_refl _) (by omega),
      Option.bind_eq_bind, Option.bind_some, if_neg (Nat.lt_irrefl _), List.drop_length,
      List.append_nil]
    rfl

theorem Represents.resize {q : Queue} (h : Represents rb q) (mem tempMem : Nat → UInt8)
    (newSize : Nat) :
    ∃ rb', ringBufferResize mem tempMem rb newSize = some ((q.resize newSize).1, rb') ∧
      Represents rb' (q.resize newSize).2 := by
  have hcount := h.count
  have hlen := h.valid.length_buffer
  have hle := h.valid.count_le
  rw [Queue.resize, ringBufferResize]
  by_cases hinvalid : newSize < minBufferSize ∨ newSize > maxBufferSize
  · rw [if_pos hinvalid, if_pos hinvalid]
    exact ⟨rb, rfl, h⟩
  · obtain ⟨hmin, hmax⟩ := not_or.mp hinvalid
    have hpos : 0 < newSize := Nat.lt_of_lt_of_le (by decide) (Nat.le_of_not_lt hmin)
    rw [if_neg hinvalid, if_neg hinvalid]
    dsimp only
    by_cases hempty : rb.count > 0
    · have hwindow : (window rb.buffer rb.tail (min rb.count newSize)).length =
          min rb.count newSize := length_window (by omega)
      have hnew := length_kmalloc mem newSize
      have htemp := length_kmalloc tempMem (min rb.count newSize)
      have hcopy := copyOut_eq h.valid (show (kmalloc tempMem (min rb.count newSize)).length ≤
        rb.size by omega)
      have hput := memcpy_put_fits (Nat.zero_le (kmalloc mem newSize).length)
        (Nat.le_of_eq hwindow.symm) (show min rb.count newSize ≤ (kmalloc mem newSize).length - 0 by
          omega)
      rw [List.take_of_length_le (Nat.le_of_eq hwindow)] at hput
      rw [htemp] at hcopy
      rw [if_pos hempty, hcopy, Option.bind_eq_bind, Option.bind_some, hput]
      have hzero : 0 = (0 + 0) % (kmalloc mem newSize).length := (Nat.zero_mod _).symm
      have hwrite := window_put (show 0 < (kmalloc mem newSize).length by omega)
        (show 0 + (window rb.buffer rb.tail (min rb.count newSize)).length ≤
          (kmalloc mem newSize).length by omega) hzero
      rw [hwindow, Nat.zero_add, window_zero, List.nil_append] at hwrite
      refine ⟨_, rfl, ⟨?_, Nat.mod_lt _ hpos, hpos, Nat.min_le_right _ _, ?_,
        Nat.le_of_not_lt hmin, Nat.le_of_not_lt hmax⟩, ?_, rfl⟩
      · exact (length_put (Nat.zero_le _) (by omega)).trans hnew
      · show min rb.count newSize % newSize = (0 + min rb.count newSize) % newSize
        rw [Nat.zero_add]
      · show window _ _ _ = q.items.take newSize
        rw [hwrite, ← h.contents, RingBuffer.contents, take_window, Nat.min_comm]
    · rw [if_neg hempty]
      have hitems : q.items = [] := List.eq_nil_of_length_eq_zero (by omega)
      refine ⟨_, rfl, ⟨length_kmalloc _ _, hpos, hpos, Nat.zero_le _, rfl, Nat.le_of_not_lt hmin,
        Nat.le_of_not_lt hmax⟩, ?_, rfl⟩
      show window _ _ _ = q.items.take newSize
      rw [hitems, window_zero, List.take_nil]

end Operations

/-! ## Sequences of operations -/

/-- A call of one of the functions. -/
inductive Op
  | write (data : Bytes)
  | read (data : Bytes)
  | clear
  | resize (mem tempMem : Nat → UInt8) (newSize : Nat)

/-- The result of a call, and the buffer of the caller after it. -/
abbrev Answer := Int × Bytes

/-- The call on the ring buffer. -/
def RingBuffer.exec : Op → RingBuffer → Option (Answer × RingBuffer)
  | .write data, rb => do
    let (result, rb) ← ringBufferWrite rb data
    return ((result, data), rb)
  | .read data, rb => do
    let (result, data, rb) ← ringBufferRead rb data
    return ((result, data), rb)
  | .clear, rb => some ((0, []), ringBufferClear rb)
  | .resize mem tempMem newSize, rb => do
    let (result, rb) ← ringBufferResize mem tempMem rb newSize
    return ((result, []), rb)

/-- The call on the queue. -/
def Queue.exec : Op → Queue → Answer × Queue
  | .write data, q => (((q.write data).1, data), (q.write data).2)
  | .read data, q => (((q.read data).1, (q.read data).2.1), (q.read data).2.2)
  | .clear, q => ((0, []), q.clear)
  | .resize _ _ newSize, q => (((q.resize newSize).1, []), (q.resize newSize).2)

/-- One call: no copy leaves a buffer, the answer is that of the queue, and the ring buffer
represents the new queue. -/
theorem Represents.exec (op : Op) (rb : RingBuffer) (q : Queue) (h : Represents rb q) :
    ∃ rb', RingBuffer.exec op rb = some ((Queue.exec op q).1, rb') ∧
      Represents rb' (Queue.exec op q).2 := by
  cases op with
  | write data =>
    obtain ⟨rb', hwrite, h'⟩ := h.write data
    refine ⟨rb', ?_, h'⟩
    rw [RingBuffer.exec, hwrite]
    rfl
  | read data =>
    obtain ⟨rb', hread, h'⟩ := h.read data
    refine ⟨rb', ?_, h'⟩
    rw [RingBuffer.exec, hread]
    rfl
  | clear => exact ⟨_, rfl, h.clear⟩
  | resize mem tempMem newSize =>
    obtain ⟨rb', hresize, h'⟩ := h.resize mem tempMem newSize
    refine ⟨rb', ?_, h'⟩
    rw [RingBuffer.exec, hresize]
    rfl

theorem represents_init (mem : Nat → UInt8) {size : Nat} (hmin : minBufferSize ≤ size)
    (hmax : size ≤ maxBufferSize) :
    ∃ rb, ringBufferInit mem size = .ok rb ∧ Represents rb (Queue.empty size) := by
  have hpos : 0 < size := Nat.lt_of_lt_of_le (by decide) hmin
  have hvalid : ¬(size < minBufferSize ∨ size > maxBufferSize) := by omega
  rw [ringBufferInit, if_neg hvalid]
  exact ⟨_, rfl, ⟨length_kmalloc _ _, hpos, hpos, Nat.zero_le _, rfl, hmin, hmax⟩, window_zero _ _,
    rfl⟩

/-- The ring buffer refines the queue: after any calls it has given the answers of the
queue, is valid and holds the items of the queue. -/
theorem ring_buffer_refines (mem : Nat → UInt8) {size : Nat} (hmin : 256 ≤ size)
    (hmax : size ≤ 65536) (ops : List Op) :
    ∃ rb rb', ringBufferInit mem size = .ok rb ∧
      Runs.answers RingBuffer.exec ops rb =
        some ((Runs.totalAnswers Queue.exec ops (Queue.empty size)).1, rb') ∧
      Valid rb' ∧
      rb'.contents = (Runs.totalAnswers Queue.exec ops (Queue.empty size)).2.items ∧
      rb'.size = (Runs.totalAnswers Queue.exec ops (Queue.empty size)).2.capacity := by
  obtain ⟨rb, hinit, hrepresents⟩ := represents_init mem hmin hmax
  obtain ⟨rb', hanswers, hvalid, hcontents, hsize⟩ :=
    Runs.answers_simulation Represents.exec ops hrepresents
  exact ⟨rb, rb', hinit, hanswers, hvalid, hcontents, hsize⟩

/-- Two bytes are written and one is read. -/
theorem ring_buffer_refines_two :
    ∃ rb rb', ringBufferInit (fun _ => 0) 256 = .ok rb ∧
      Runs.answers RingBuffer.exec [.write [1, 2], .read [0]] rb =
        some ([(2, [1, 2]), (1, [1])], rb') ∧
      Valid rb' ∧ rb'.contents = [2] ∧ rb'.size = 256 :=
  ring_buffer_refines (fun _ => 0) (by decide) (by decide) [.write [1, 2], .read [0]]

end CourseWork.Driver
