import CourseWork.Torrent.Session

/-!
# Receiving a block

What `peer_receive_block` returns while `running` stays set and nothing times out, in terms
of the stream of the peer alone: its messages follow one another, each behind the four bytes
of its length, and the way in which `recv` cuts the stream does not matter. The loop skips
messages up to the block that was asked for, or up to one that makes it fail, or up to the
end of the stream.
-/

namespace CourseWork.Torrent
open CLib Prog

/-! ## Messages of a stream -/

/-- Where the frame that starts at `pos` ends. -/
def frameEnd (stream : Nat → UInt8) (pos : Nat) : Nat := pos + (4 + frameLen stream pos)

/-- The message in the frame that starts at `pos`. -/
def messageAt (stream : Nat → UInt8) (pos : Nat) : Bytes :=
  slice stream (pos + 4) (frameLen stream pos)

/-- Where frame number `n` starts, counted from one at `pos`. -/
def frameStart (stream : Nat → UInt8) (pos : Nat) : Nat → Nat
  | 0 => pos
  | n + 1 => frameEnd stream (frameStart stream pos n)

/-- A piece message with exactly this index, this begin and a block of this length. -/
def IsBlock (index begin : UInt32) (length : Nat) (msg block : Bytes) : Prop :=
  msg = 7 :: (htonl index ++ htonl begin ++ block) ∧ block.length = length

/-- A choke message, or a piece message without an index and a begin. -/
def Refuses (msg : Bytes) : Prop :=
  ∃ payload, msg = 0 :: payload ∨ (msg = 7 :: payload ∧ payload.length < 8)

/-- Any other message; a keep-alive is the empty one. -/
def Skipped (index begin : UInt32) (length : Nat) (msg : Bytes) : Prop :=
  ¬Refuses msg ∧ ∀ block, ¬IsBlock index begin length msg block

theorem frameStart_mono {stream : Nat → UInt8} {pos m n : Nat} (h : m ≤ n) :
    frameStart stream pos m ≤ frameStart stream pos n := by
  induction h with
  | refl => exact Nat.le_refl _
  | step _ ih =>
    rw [frameStart, frameEnd]
    omega

/-! ## Reading the stream -/

/-- `used` of the script was taken, and the stream was read up to `stop`. -/
structure Took (used : List RecvStep) (stop : Nat) (s s' : Net) : Prop where
  flag : s'.flag = none
  stream : s'.conn.stream = s.conn.stream
  pos : s'.conn.pos = stop
  script : s.conn.recvs = used ++ s'.conn.recvs

/-- `running` stays set, and a receive is only interrupted, successful or at the end of the
stream. -/
structure Calm (s : Net) : Prop where
  flag : s.flag = none
  script : ∀ step ∈ s.conn.recvs, step ≠ .pollError ∧ step ≠ .timeout ∧ step ≠ .error

/-- Everything up to `stop` was read. -/
def ReadTo (stop : Nat) (s s' : Net) : Prop :=
  ∃ used, .closed ∉ used ∧ (s.conn.pos < stop → used ≠ []) ∧ Took used stop s s'

/-- The stream has ended before `stop`. -/
def Ended (stop : Nat) (s s' : Net) : Prop :=
  ∃ used, .closed ∉ used ∧ s'.conn.pos < stop ∧ Took (used ++ [.closed]) s'.conn.pos s s'

/-- Everything before `stop` has not arrived yet. -/
def Waiting (stop : Nat) (s s' : Net) : Prop :=
  ∃ used, .closed ∉ used ∧ s'.conn.pos < stop ∧ s'.conn.recvs = [] ∧
    Took used s'.conn.pos s s'

section Took

variable {used used' : List RecvStep} {stop stop' : Nat} {s s1 s' : Net}

theorem Took.trans (h : Took used stop s s1) (h' : Took used' stop' s1 s') :
    Took (used ++ used') stop' s s' where
  flag := h'.flag
  stream := h'.stream.trans h.stream
  pos := h'.pos
  script := by rw [h.script, h'.script, List.append_assoc]

theorem Took.trace (h : Took used stop s s') (trace : List NetEvent) :
    Took used stop s { s' with trace := trace } := ⟨h.flag, h.stream, h.pos, h.script⟩

theorem Calm.took (hcalm : Calm s) (h : Took used stop s s') : Calm s' where
  flag := h.flag
  script step hstep := hcalm.script step (by
    rw [h.script]
    exact List.mem_append_right used hstep)

theorem ReadTo.refl (hflag : s.flag = none) : ReadTo s.conn.pos s s :=
  ⟨[], List.not_mem_nil, fun h => absurd h (Nat.lt_irrefl _), hflag, rfl, rfl, rfl⟩

theorem not_mem_append {used used' : List RecvStep} (h : .closed ∉ used) (h' : .closed ∉ used') :
    .closed ∉ used ++ used' := fun hmem => (List.mem_append.mp hmem).elim h h'

theorem ReadTo.trans (h : ReadTo stop s s1) (h' : ReadTo stop' s1 s') :
    ReadTo stop' s s' := by
  obtain ⟨used, hopen, hused, htook⟩ := h
  obtain ⟨used', hopen', hused', htook'⟩ := h'
  refine ⟨used ++ used', not_mem_append hopen hopen', fun hlt hnil => ?_, htook.trans htook'⟩
  obtain ⟨rfl, rfl⟩ := List.append_eq_nil_iff.mp hnil
  have hpos : stop ≤ s.conn.pos := Nat.not_lt.mp fun hlt => hused hlt rfl
  exact hused' (by rw [htook.pos]; omega) rfl

theorem ReadTo.ended (h : ReadTo stop s s1) (h' : Ended stop' s1 s') : Ended stop' s s' := by
  obtain ⟨used, hopen, _, htook⟩ := h
  obtain ⟨used', hopen', hlt, htook'⟩ := h'
  refine ⟨used ++ used', not_mem_append hopen hopen', hlt, ?_⟩
  rw [List.append_assoc]
  exact htook.trans htook'

theorem ReadTo.waiting (h : ReadTo stop s s1) (h' : Waiting stop' s1 s') :
    Waiting stop' s s' := by
  obtain ⟨used, hopen, _, htook⟩ := h
  obtain ⟨used', hopen', hlt, hscript, htook'⟩ := h'
  exact ⟨used ++ used', not_mem_append hopen hopen', hlt, hscript, htook.trans htook'⟩

theorem ReadTo.calm (h : ReadTo stop s s') (hcalm : Calm s) : Calm s' := by
  obtain ⟨_, _, _, htook⟩ := h
  exact hcalm.took htook

theorem Ended.mono (h : Ended stop s s') (hle : stop ≤ stop') : Ended stop' s s' := by
  obtain ⟨used, hopen, hlt, htook⟩ := h
  exact ⟨used, hopen, Nat.lt_of_lt_of_le hlt hle, htook⟩

theorem Waiting.mono (h : Waiting stop s s') (hle : stop ≤ stop') : Waiting stop' s s' := by
  obtain ⟨used, hopen, hlt, hscript, htook⟩ := h
  exact ⟨used, hopen, Nat.lt_of_lt_of_le hlt hle, hscript, htook⟩

/-- Reading on takes a step of the script. -/
theorem ReadTo.script_lt (h : ReadTo stop s s') (hlt : s.conn.pos < stop) :
    s'.conn.recvs.length < s.conn.recvs.length := by
  obtain ⟨used, _, hused, htook⟩ := h
  have hpos := List.length_pos_iff.mpr (hused hlt)
  rw [htook.script, List.length_append]
  omega

end Took

/-! ## The functions -/

/-- While `running` stays set, a read of it changes nothing. -/
theorem running_set {P : Net → Prop} {E : Net → Prop} (hP : ∀ s, P s → s.flag = none) :
    Triple P running (fun b s => b = true ∧ P s) E := by
  intro s hs
  rw [running, hP s hs]
  exact ⟨rfl, hs⟩

/-- The outcome of a receive of `len` bytes. -/
def ReceivedAll (len : Nat) (s0 : Net) : Option Bytes → Net → Prop
  | some received, s => received = slice s0.conn.stream s0.conn.pos len ∧
      ReadTo (s0.conn.pos + len) s0 s
  | none, s => Ended (s0.conn.pos + len) s0 s

/-- In the loop of `recv_full_timeout`, with `n` bytes received and `steps` of the script
left. -/
def Receiving (s0 : Net) (n : Nat) (steps : List RecvStep) (s : Net) : Prop :=
  ReadTo (s0.conn.pos + n) s0 s ∧ s.conn.recvs = steps

theorem Receiving.flag {s0 s : Net} {n : Nat} {steps : List RecvStep}
    (h : Receiving s0 n steps s) : s.flag = none := by
  obtain ⟨⟨_, _, _, htook⟩, _⟩ := h
  exact htook.flag

/-- A step that is not the end of the stream. -/
theorem Receiving.step {s0 s : Net} {n k : Nat} {step : RecvStep} {steps : List RecvStep}
    (h : Receiving s0 n (step :: steps) s) (hstep : step ≠ .closed) :
    Receiving s0 (n + k) steps
      { s with conn := { s.conn with recvs := steps, pos := s.conn.pos + k } } := by
  obtain ⟨⟨used, hopen, _, htook⟩, hscript⟩ := h
  refine ⟨⟨used ++ [step], not_mem_append hopen (by simpa using hstep.symm), fun _ => by simp,
    htook.flag, htook.stream, ?_, ?_⟩, rfl⟩
  · show s.conn.pos + k = _
    rw [htook.pos, Nat.add_assoc]
  · rw [htook.script, hscript, List.append_assoc]
    rfl

theorem recvLoop_all {s0 : Net} (hcalm : Calm s0) {len : Nat} : ∀ (steps : List RecvStep) {n : Nat},
    n ≤ len → Triple (Receiving s0 n steps) (recvLoop len steps (slice s0.conn.stream s0.conn.pos n))
      (ReceivedAll len s0) (Waiting (s0.conn.pos + len) s0) := by
  have hfull : ∀ {steps n}, n = len → Triple (Receiving s0 n steps)
      (do return if ← running then some (slice s0.conn.stream s0.conn.pos n) else none)
      (ReceivedAll len s0) (Waiting (s0.conn.pos + len) s0) := by
    intro steps n hn
    refine Triple.bind (running_set fun s h => h.flag) fun b => Triple.assume fun hb => ?_
    subst hb hn
    exact Triple.pure fun s hs => ⟨rfl, hs.1⟩
  intro steps
  induction steps with
  | nil =>
    intro n hn
    rw [recvLoop, length_slice]
    refine Triple.ite (fun hle => hfull (Nat.le_antisymm hn hle)) fun hpart => ?_
    refine Triple.bind (running_set fun s h => h.flag) fun b => Triple.assume fun hb => ?_
    subst hb
    refine Triple.stop fun s hs => ?_
    obtain ⟨⟨used, hopen, _, htook⟩, hscript⟩ := hs
    exact ⟨used, hopen, by rw [htook.pos]; omega, hscript, htook.pos ▸ htook⟩
  | cons step steps ih =>
    intro n hn
    rw [recvLoop.eq_def]
    dsimp only
    rw [length_slice]
    refine Triple.ite (fun hle => hfull (Nat.le_antisymm hn hle)) fun hpart => ?_
    refine Triple.bind (running_set fun s h => h.flag) fun b => Triple.assume fun hb => ?_
    subst hb
    refine Triple.ite (fun _ => ?_) fun h => absurd rfl h
    -- The step is taken from the script before it is looked at.
    refine Triple.bind (Triple.modify (Q := fun _ s' => ∃ s, Receiving s0 n (step :: steps) s ∧
      s' = { s with conn := { s.conn with recvs := steps } }) fun s hs => ⟨s, hs, rfl⟩) fun _ => ?_
    have hfail : ∀ {s}, Receiving s0 n (step :: steps) s →
        step ≠ .pollError ∧ step ≠ .timeout ∧ step ≠ .error := by
      rintro s ⟨⟨used, _, _, htook⟩, hscript⟩
      refine hcalm.script step ?_
      rw [htook.script, hscript]
      exact List.mem_append_right used List.mem_cons_self
    cases step with
    | interrupted =>
      refine (ih hn).pre ?_
      rintro _ ⟨s, hs, rfl⟩
      exact hs.step (k := 0) (by decide)
    | pollError =>
      refine Triple.pure ?_
      rintro _ ⟨s, hs, rfl⟩
      exact absurd rfl (hfail hs).1
    | timeout =>
      refine Triple.pure ?_
      rintro _ ⟨s, hs, rfl⟩
      exact absurd rfl (hfail hs).2.1
    | error =>
      refine Triple.pure ?_
      rintro _ ⟨s, hs, rfl⟩
      exact absurd rfl (hfail hs).2.2
    | closed =>
      refine Triple.pure ?_
      rintro _ ⟨s, ⟨⟨used, hopen, _, htook⟩, hscript⟩, rfl⟩
      have hpos := htook.pos
      refine ⟨used, hopen, by show s.conn.pos < _; omega, htook.flag, htook.stream, rfl, ?_⟩
      rw [htook.script, hscript, List.append_assoc]
      rfl
    | data k =>
      refine Triple.bind (Triple.get (Q := fun s s' => s' = s ∧ ∃ s1,
        Receiving s0 n (.data k :: steps) s1 ∧
          s = { s1 with conn := { s1.conn with recvs := steps } }) fun s hs => ⟨rfl, hs⟩)
        fun s => ?_
      refine Triple.of_eq fun s2 h2 => ?_
      obtain ⟨rfl, s1, hs, rfl⟩ := h2
      have hstream : s1.conn.stream = s0.conn.stream := by
        obtain ⟨⟨_, _, _, htook⟩, _⟩ := hs
        exact htook.stream
      have hpos : s1.conn.pos = s0.conn.pos + n := by
        obtain ⟨⟨_, _, _, htook⟩, _⟩ := hs
        exact htook.pos
      refine Triple.bind (Triple.modify (Q := fun _ =>
        Receiving s0 (n + min (k + 1) (len - n)) steps) ?_) fun _ => ?_
      · rintro _ rfl
        exact hs.step (by simp)
      · show Triple _ (recvLoop len steps (slice s0.conn.stream s0.conn.pos n ++
          slice s1.conn.stream s1.conn.pos (min (k + 1) (len - n)))) _ _
        rw [hstream, hpos, slice_append]
        exact ih (by omega)

/-- `recv_full_timeout`. -/
theorem recvFullTimeout_all {s0 : Net} (hcalm : Calm s0) (len : Nat) :
    Triple (· = s0) (recvFullTimeout len) (ReceivedAll len s0)
      (Waiting (s0.conn.pos + len) s0) := by
  refine Triple.bind (Triple.get (Q := fun s s' => s' = s ∧ s = s0)
    fun s hs => ⟨rfl, hs⟩) fun s => (recvLoop_all hcalm s.conn.recvs (Nat.zero_le len)).pre ?_
  rintro _ ⟨rfl, rfl⟩
  exact ⟨ReadTo.refl hcalm.flag, rfl⟩

/-- `recv_message`: the message of the next frame. -/
theorem recvMessage_all {s0 : Net} (hcalm : Calm s0) :
    Triple (· = s0) recvMessage
      (fun r s => match r with
        | some msg => msg = messageAt s0.conn.stream s0.conn.pos ∧
          ReadTo (frameEnd s0.conn.stream s0.conn.pos) s0 s
        | none => Ended (frameEnd s0.conn.stream s0.conn.pos) s0 s)
      (Waiting (frameEnd s0.conn.stream s0.conn.pos) s0) := by
  have hle : s0.conn.pos + 4 ≤ frameEnd s0.conn.stream s0.conn.pos := by
    rw [frameEnd]
    omega
  refine Triple.bind ((recvFullTimeout_all hcalm 4).conseq (fun _ h => h) (fun _ _ h => h)
    fun s h => h.mono hle) fun r => ?_
  cases r with
  | none => exact Triple.pure fun s h => Ended.mono h hle
  | some lenPrefix =>
    refine Triple.assume fun hprefix => ?_
    dsimp only
    have hlen : frameLen s0.conn.stream s0.conn.pos = (ntohl lenPrefix).toNat := by
      rw [frameLen, hprefix]
    refine Triple.ite (fun hzero => Triple.pure fun s h => ?_) fun _ => ?_
    · rw [hzero] at hlen
      refine ⟨by rw [messageAt, hlen]; rfl, ?_⟩
      rw [frameEnd, hlen]
      exact h
    · refine Triple.of_eq fun s1 h1 => ?_
      obtain ⟨_, _, _, htook⟩ := id h1
      have hstop : s1.conn.pos + (ntohl lenPrefix).toNat =
          frameEnd s0.conn.stream s0.conn.pos := by
        rw [frameEnd, hlen, htook.pos, Nat.add_assoc]
      refine (recvFullTimeout_all (h1.calm hcalm) (ntohl lenPrefix).toNat).conseq (fun _ h => h)
        (fun r s h => ?_) fun s h => h1.waiting (hstop ▸ h)
      cases r with
      | none => exact h1.ended (hstop ▸ h)
      | some msg =>
        obtain ⟨hmsg, h⟩ := h
        refine ⟨?_, h1.trans (hstop ▸ h)⟩
        rw [hmsg, htook.stream, htook.pos, messageAt, hlen]

/-- `peer_read_message`: it fails only at the end of the stream. -/
theorem peerReadMessage_all {s0 : Net} (hcalm : Calm s0) :
    Triple (· = s0) peerReadMessage
      (fun r s => match r with
        | some (id, payload) => ReadTo (frameEnd s0.conn.stream s0.conn.pos) s0 s ∧
          (messageAt s0.conn.stream s0.conn.pos = id :: payload ∨
            (messageAt s0.conn.stream s0.conn.pos = [] ∧ id = 255))
        | none => Ended (frameEnd s0.conn.stream s0.conn.pos) s0 s)
      (Waiting (frameEnd s0.conn.stream s0.conn.pos) s0) := by
  have hcomplete : ∀ {s stop} (e : NetEvent), ReadTo stop s0 s →
      ReadTo stop s0 { s with trace := e :: s.trace } := by
    rintro s stop e ⟨used, hopen, hused, htook⟩
    exact ⟨used, hopen, hused, htook.trace _⟩
  refine Triple.bind (Triple.get (Q := fun s s' => s = s0 ∧ s' = s0) fun s hs => ⟨hs, hs⟩)
    fun s => Triple.assume fun hs => ?_
  subst hs
  dsimp only
  refine Triple.bind (recvMessage_all hcalm) fun r => ?_
  cases r with
  | none =>
    refine Triple.bind (Triple.get (Q := fun _ s' =>
      Ended (frameEnd s.conn.stream s.conn.pos) s s') fun s h => h) fun s' => ?_
    refine Triple.bind (Triple.modify (Q := fun _ s' =>
      Ended (frameEnd s.conn.stream s.conn.pos) s s') ?_) fun _ => Triple.pure fun _ h => h
    rintro s1 ⟨used, hopen, hlt, htook⟩
    exact ⟨used, hopen, hlt, htook.trace _⟩
  | some msg =>
    refine Triple.assume fun hmsg => ?_
    cases msg with
    | nil =>
      refine Triple.bind (Triple.modify (Q := fun _ =>
        ReadTo (frameEnd s.conn.stream s.conn.pos) s) fun s' h => hcomplete _ h) fun _ =>
        Triple.pure fun _ h => ⟨h, .inr ⟨hmsg.symm, rfl⟩⟩
    | cons id payload =>
      refine Triple.bind (Triple.modify (Q := fun _ =>
        ReadTo (frameEnd s.conn.stream s.conn.pos) s) fun s' h => hcomplete _ h) fun _ =>
        Triple.pure fun _ h => ⟨h, .inl hmsg.symm⟩

/-! ## The messages that the loop looks at -/

/-- What the loop reads in a piece message. -/
theorem isBlock_iff {index begin : UInt32} {length : Nat} {payload block : Bytes} :
    IsBlock index begin length (7 :: payload) block ↔
      8 ≤ payload.length ∧ ntohl payload = index ∧ ntohl (payload.drop 4) = begin ∧
        payload.length - 8 = length ∧ block = payload.drop 8 := by
  constructor
  · rintro ⟨hmsg, rfl⟩
    obtain rfl := (List.cons.inj hmsg).2
    have hbegin : (htonl index ++ htonl begin ++ block).drop 4 = htonl begin ++ block := rfl
    have hlength : (htonl index ++ htonl begin ++ block).length = 8 + block.length := by
      rw [List.length_append]
      rfl
    refine ⟨by omega, ?_, by rw [hbegin, ntohl_htonl], by omega, rfl⟩
    rw [List.append_assoc, ntohl_htonl]
  · rintro ⟨hlength, rfl, rfl, rfl, rfl⟩
    refine ⟨?_, List.length_drop⟩
    have hsplit : payload = payload.take 4 ++ ((payload.drop 4).take 4 ++ payload.drop 8) := by
      rw [show payload.drop 8 = (payload.drop 4).drop 4 by rw [List.drop_drop],
        List.take_append_drop, List.take_append_drop]
    rw [htonl_ntohl (by omega), htonl_ntohl (by rw [List.length_drop]; omega), List.append_assoc,
      ← hsplit]

section Classified

variable {index begin : UInt32} {length : Nat} {payload : Bytes}

/-- Only messages 0 and 7 are looked at. -/
theorem skipped_other {id : UInt8} (h0 : id ≠ 0) (h7 : id ≠ 7) :
    Skipped index begin length (id :: payload) := by
  refine ⟨?_, fun block hblock => h7 (List.cons.inj hblock.1).1⟩
  rintro ⟨rest, h | ⟨h, _⟩⟩
  · exact h0 (List.cons.inj h).1
  · exact h7 (List.cons.inj h).1

theorem skipped_keepAlive : Skipped index begin length [] := by
  refine ⟨?_, fun block hblock => absurd hblock.1 (by simp)⟩
  rintro ⟨rest, h | ⟨h, _⟩⟩
  · cases h
  · cases h

/-- A piece message for another request. -/
theorem skipped_piece (h8 : 8 ≤ payload.length)
    (hother : ¬(ntohl payload = index ∧ ntohl (payload.drop 4) = begin ∧
      payload.length - 8 = length)) : Skipped index begin length (7 :: payload) := by
  refine ⟨?_, fun block hblock => ?_⟩
  · rintro ⟨rest, h | ⟨h, hshort⟩⟩
    · exact absurd (List.cons.inj h).1 (by decide)
    · rw [← (List.cons.inj h).2] at hshort
      omega
  · obtain ⟨_, hindex, hbegin, hlength, _⟩ := isBlock_iff.mp hblock
    exact hother ⟨hindex, hbegin, hlength⟩

theorem not_refuses_of_isBlock {msg block : Bytes} (h : IsBlock index begin length msg block) :
    ¬Refuses msg := by
  rintro ⟨payload, hmsg | ⟨hmsg, hshort⟩⟩
  · exact absurd (List.cons.inj (hmsg.symm.trans h.1)).1 (by decide)
  · rw [hmsg] at h
    have hlength := (isBlock_iff.mp h).1
    omega

end Classified

/-! ## The loop -/

/-- The loop has skipped the first `n` messages behind `s0`. -/
def SkippedFirst (index begin : UInt32) (length : Nat) (s0 : Net) (n : Nat) : Prop :=
  ∀ m < n, Skipped index begin length
    (messageAt s0.conn.stream (frameStart s0.conn.stream s0.conn.pos m))

/-- The outcome of `peer_receive_block`: the block in the first message that is not skipped;
or a failure at that message, or at the end of the stream before that message. -/
def BlockReceived (index begin : UInt32) (length : Nat) (s0 : Net) : Option Bytes → Net → Prop
  | some block, s => ∃ n, SkippedFirst index begin length s0 n ∧
      IsBlock index begin length
        (messageAt s0.conn.stream (frameStart s0.conn.stream s0.conn.pos n)) block ∧
      ReadTo (frameStart s0.conn.stream s0.conn.pos (n + 1)) s0 s
  | none, s => ∃ n, SkippedFirst index begin length s0 n ∧
      ((Refuses (messageAt s0.conn.stream (frameStart s0.conn.stream s0.conn.pos n)) ∧
        ReadTo (frameStart s0.conn.stream s0.conn.pos (n + 1)) s0 s) ∨
      Ended (frameStart s0.conn.stream s0.conn.pos (n + 1)) s0 s)

/-- A step of the loop is due: `n` messages are skipped, and the next one is not read. -/
structure AtFrame (index begin : UInt32) (length : Nat) (s0 : Net) (rounds n : Nat) (s : Net) :
    Prop where
  skipped : SkippedFirst index begin length s0 n
  complete : ReadTo (frameStart s0.conn.stream s0.conn.pos n) s0 s
  script : s.conn.recvs.length < rounds

theorem receiveLoop_all {s0 : Net} (hcalm : Calm s0) {index begin : UInt32} {length : Nat} :
    ∀ {rounds n : Nat}, Triple (AtFrame index begin length s0 rounds n)
      (receiveLoop index begin length rounds) (BlockReceived index begin length s0)
      (fun s => ∃ n, SkippedFirst index begin length s0 n ∧
        Waiting (frameStart s0.conn.stream s0.conn.pos (n + 1)) s0 s)
  | 0, n => Triple.stop fun s h => absurd h.script (Nat.not_lt_zero _)
  | rounds + 1, n => by
    refine Triple.of_eq fun s hs => ?_
    rw [receiveLoop]
    obtain ⟨_, _, _, htook⟩ := id hs.complete
    have hnext : frameEnd s.conn.stream s.conn.pos =
        frameStart s0.conn.stream s0.conn.pos (n + 1) := by
      rw [frameStart, htook.stream, htook.pos]
    have hmessage : messageAt s.conn.stream s.conn.pos =
        messageAt s0.conn.stream (frameStart s0.conn.stream s0.conn.pos n) := by
      rw [htook.stream, htook.pos]
    have hread := peerReadMessage_all (hs.complete.calm hcalm)
    rw [hnext, hmessage] at hread
    refine Triple.bind (hread.conseq (fun _ h => h) (fun _ _ h => h) fun s' h =>
      ⟨n, hs.skipped, hs.complete.waiting h⟩) fun r => ?_
    cases r with
    | none => exact Triple.pure fun s' h => ⟨n, hs.skipped, .inr (hs.complete.ended h)⟩
    | some msg =>
      obtain ⟨id, payload⟩ := msg
      -- A message that is skipped leads to the next round.
      have hskip : ∀ {s'}, ReadTo (frameStart s0.conn.stream s0.conn.pos (n + 1)) s s' →
          Skipped index begin length
            (messageAt s0.conn.stream (frameStart s0.conn.stream s0.conn.pos n)) →
          AtFrame index begin length s0 rounds (n + 1) s' := by
        intro s' hcomplete hskipped
        refine ⟨fun m hm => ?_, hs.complete.trans hcomplete, ?_⟩
        · rcases Nat.lt_succ_iff_lt_or_eq.mp hm with hm | rfl
          · exact hs.skipped m hm
          · exact hskipped
        · have hlt : s.conn.pos < frameStart s0.conn.stream s0.conn.pos (n + 1) := by
            rw [← hnext, frameEnd]
            omega
          have hless := hcomplete.script_lt hlt
          have hscript := hs.script
          omega
      refine Triple.ite (fun h255 => ?_) fun h255 => ?_
      · refine (receiveLoop_all hcalm (n := n + 1)).pre fun s' h => hskip h.1 ?_
        rcases h.2 with hmsg | ⟨hmsg, _⟩
        · rw [hmsg, h255]
          exact skipped_other (by decide) (by decide)
        · rw [hmsg]
          exact skipped_keepAlive
      -- Any other id is the first byte of a message.
      have hid : ∀ {s'}, (ReadTo (frameStart s0.conn.stream s0.conn.pos (n + 1)) s s' ∧
          (messageAt s0.conn.stream (frameStart s0.conn.stream s0.conn.pos n) = id :: payload ∨
            (messageAt s0.conn.stream (frameStart s0.conn.stream s0.conn.pos n) = [] ∧
              id = 255))) →
          ReadTo (frameStart s0.conn.stream s0.conn.pos (n + 1)) s s' ∧
            messageAt s0.conn.stream (frameStart s0.conn.stream s0.conn.pos n) = id :: payload :=
        fun h => ⟨h.1, h.2.resolve_right fun hnil => h255 hnil.2⟩
      refine Triple.ite (fun h7 => ?_) fun h7 => Triple.ite (fun h0 => ?_) fun h0 => ?_
      · refine Triple.ite (fun hshort => ?_) fun hlong =>
          Triple.ite (fun hmatch => ?_) fun hother => ?_
        · refine Triple.pure fun s' h => ⟨n, hs.skipped, .inl ⟨?_, hs.complete.trans h.1⟩⟩
          exact ⟨payload, .inr ⟨by rw [(hid h).2, h7], hshort⟩⟩
        · refine Triple.pure fun s' h => ⟨n, hs.skipped, ?_, hs.complete.trans h.1⟩
          rw [(hid h).2, h7]
          exact isBlock_iff.mpr ⟨Nat.not_lt.mp hlong, hmatch.1, hmatch.2.1, hmatch.2.2, rfl⟩
        · refine (receiveLoop_all hcalm (n := n + 1)).pre fun s' h => hskip h.1 ?_
          rw [(hid h).2, h7]
          exact skipped_piece (Nat.not_lt.mp hlong) hother
      · refine Triple.pure fun s' h => ⟨n, hs.skipped, .inl ⟨?_, hs.complete.trans h.1⟩⟩
        exact ⟨payload, .inl (by rw [(hid h).2, h0])⟩
      · refine (receiveLoop_all hcalm (n := n + 1)).pre fun s' h => hskip h.1 ?_
        rw [(hid h).2]
        exact skipped_other h0 h7

/-- `peer_receive_block`, for every stream and every way to cut it. -/
theorem peerReceiveBlock_all {s0 : Net} (hcalm : Calm s0) (index begin : UInt32) (length : Nat) :
    Triple (· = s0) (peerReceiveBlock index begin length) (BlockReceived index begin length s0)
      (fun s => ∃ n, SkippedFirst index begin length s0 n ∧
        Waiting (frameStart s0.conn.stream s0.conn.pos (n + 1)) s0 s) := by
  refine Triple.bind (Triple.get (Q := fun s s' => s' = s ∧ s = s0) fun s hs => ⟨rfl, hs⟩)
    fun s => (receiveLoop_all hcalm (n := 0)).pre ?_
  rintro _ ⟨rfl, rfl⟩
  exact ⟨fun m hm => absurd hm (Nat.not_lt_zero m), ReadTo.refl hcalm.flag, Nat.lt_succ_self _⟩

/-! ## Exact reception -/

/-- `peer_receive_block` with its result and the caller's buffer. -/
def receiveInto (index begin : UInt32) (length : Nat) (buffer : Bytes) :
    Prog Stop Net (Int × Bytes) := do
  match ← peerReceiveBlock index begin length with
  | none => return (-1, buffer)
  | some block => return (0, memcpy buffer 0 block)

/-- Message number `n` of the stream behind the position. -/
def Net.message (s : Net) (n : Nat) : Bytes :=
  messageAt s.conn.stream (frameStart s.conn.stream s.conn.pos n)

/-- Where that message ends. -/
def Net.messageEnd (s : Net) (n : Nat) : Nat := frameStart s.conn.stream s.conn.pos (n + 1)

/-- The stream ends at `stop`: nothing is read behind it, and the end is reported there. -/
def StreamEnds (stop : Nat) (s s' : Net) : Prop :=
  s'.conn.pos ≤ stop ∧
  (.closed ∈ s.conn.recvs.take (s.conn.recvs.length - s'.conn.recvs.length) → s'.conn.pos = stop)

theorem Ended.closed {stop : Nat} {s s' : Net} (h : Ended stop s s') :
    .closed ∈ s.conn.recvs.take (s.conn.recvs.length - s'.conn.recvs.length) := by
  obtain ⟨used, _, _, htook⟩ := h
  rw [htook.script, List.length_append, Nat.add_sub_cancel, List.take_left]
  exact List.mem_append_right used (List.mem_singleton.mpr rfl)

theorem lt_of_messageEnd_lt {s : Net} {m n : Nat} (h : s.messageEnd m < s.messageEnd n) : m < n := by
  by_contra hle
  have hmono : s.messageEnd n ≤ s.messageEnd m :=
    frameStart_mono (Nat.succ_le_succ (Nat.not_lt.mp hle))
  exact absurd hmono (Nat.not_le.mpr h)

/-- While `running` stays set and nothing times out, `peer_receive_block` returns 0 exactly if
the block that was asked for comes before the first message that refuses it and before the
end of the stream. Then the buffer has that block, and the stream is read up to the end of
the first such message; else the buffer is as before. It goes on waiting only while no
message that decides has arrived. -/
theorem receive_block_exact (index begin : UInt32) (length : Nat) (buffer : Bytes) (s : Net)
    (hcalm : Calm s) :
    match receiveInto index begin length buffer s with
    | (.ok (code, buffer'), s') =>
      (code = 0 ∨ code = -1) ∧
      (∀ stop, StreamEnds stop s s' → (code = 0 ↔ ∃ n block,
        IsBlock index begin length (s.message n) block ∧ (∀ m < n, ¬Refuses (s.message m)) ∧
          s.messageEnd n ≤ stop)) ∧
      (code = 0 → ∃ n block, IsBlock index begin length (s.message n) block ∧
        (∀ m < n, Skipped index begin length (s.message m)) ∧
          buffer' = block ++ buffer.drop length ∧ s'.conn.pos = s.messageEnd n) ∧
      (code = -1 → buffer' = buffer)
    | (.error _, s') => s'.conn.recvs = [] ∧ ∀ n,
        (Refuses (s.message n) ∨ ∃ block, IsBlock index begin length (s.message n) block) →
          s'.conn.pos < s.messageEnd n := by
  have hreceive := peerReceiveBlock_all hcalm index begin length s rfl
  obtain ⟨result, s', hrun⟩ : ∃ result s', peerReceiveBlock index begin length s = (result, s') :=
    ⟨_, _, rfl⟩
  rw [hrun] at hreceive
  cases result with
  | error e =>
    rw [receiveInto, bind_error hrun]
    obtain ⟨n, hskipped, _, _, hlt, hscript, _⟩ := hreceive
    refine ⟨hscript, fun m hm => ?_⟩
    by_contra hge
    have hearlier : m < n := lt_of_messageEnd_lt (Nat.lt_of_le_of_lt (Nat.not_lt.mp hge) hlt)
    rcases hm with hrefuses | ⟨block, hblock⟩
    · exact (hskipped m hearlier).1 hrefuses
    · exact (hskipped m hearlier).2 block hblock
  | ok r =>
    rw [receiveInto, bind_ok hrun]
    cases r with
    | some block =>
      obtain ⟨n, hskipped, hblock, _, _, _, htook⟩ := hreceive
      refine ⟨.inl rfl, fun stop hstop => ⟨fun _ => ⟨n, block, hblock, fun m hm => (hskipped m hm).1,
        ?_⟩, fun _ => rfl⟩, fun _ => ⟨n, block, hblock, hskipped, ?_, htook.pos⟩,
        fun h => absurd h (by decide)⟩
      · exact Nat.le_trans (Nat.le_of_eq htook.pos.symm) hstop.1
      · rw [memcpy, List.take_zero, List.nil_append, Nat.zero_add, hblock.2]
    | none =>
      obtain ⟨n, hskipped, hend⟩ := hreceive
      refine ⟨.inr rfl, fun stop hstop => ⟨fun h => absurd h (by decide), ?_⟩,
        fun h => absurd h (by decide), fun _ => rfl⟩
      rintro ⟨m, block, hblock, hbefore, hle⟩
      -- The block is not among the skipped messages, and not behind the last one.
      have hnot : ¬m < n := fun hlt => (hskipped m hlt).2 block hblock
      rcases hend with ⟨hrefuses, _⟩ | hended
      · rcases Nat.lt_or_ge n m with hlt | hge
        · exact absurd hrefuses (hbefore n hlt)
        · obtain rfl : m = n := Nat.le_antisymm hge (Nat.not_lt.mp hnot)
          exact absurd hrefuses (not_refuses_of_isBlock hblock)
      · have hstop := hstop.2 hended.closed
        obtain ⟨_, _, hlt, _⟩ := hended
        exact absurd (lt_of_messageEnd_lt (s := s) (m := m) (n := n)
          (Nat.lt_of_le_of_lt (hstop ▸ hle) hlt)) hnot

/-- A connection on which a keep-alive, a message 255 and a block arrive byte by byte. -/
def noisyNet : Net where
  flag := none
  answers := []
  attempts := 1
  conn := ⟨0, fun k => (htonl 0 ++ htonl 1 ++ [255] ++ byteMessage 0 7).getD k 0, 0,
    List.replicate 23 (.data 0), []⟩
  trace := []

/-- The block is received behind the others. -/
theorem receive_block_exact_noise : ∃ n block, IsBlock 0 0 1 (noisyNet.message n) block ∧
    (∀ m < n, Skipped 0 0 1 (noisyNet.message m)) ∧ [7] = block := by
  -- The connection stays a variable, so that nothing runs it while the theorem is applied.
  obtain ⟨s, hs⟩ : ∃ s, s = noisyNet := ⟨_, rfl⟩
  have hcalm : Calm s := hs ▸ ⟨rfl, by decide⟩
  have hrun : (receiveInto 0 0 1 [0] s).1 = .ok (0, [7]) := by
    rw [hs]
    decide +kernel
  have hexact := receive_block_exact 0 0 1 [0] s hcalm
  generalize receiveInto 0 0 1 [0] s = r at hexact hrun
  obtain ⟨result, s'⟩ := r
  obtain rfl : result = .ok (0, [7]) := hrun
  obtain ⟨n, block, hblock, hskipped, hbuffer, _⟩ := hexact.2.2.1 rfl
  rw [← hs]
  exact ⟨n, block, hblock, hskipped, hbuffer.trans (List.append_nil block)⟩

end CourseWork.Torrent
