import CourseWork.Torrent.DownloadRules

/-!
# Sessions with peers

What each function of the `network` and `peer` modules does to the network, and the rule
by which an invariant for each stage of a session is an invariant of a whole run.
-/

namespace CourseWork.Torrent
open CLib Prog

/-! ## The functions -/

/-- On the same connection, `n` more bytes are consumed and some events recorded. -/
structure Moved (n : Nat) (events : List NetEvent) (s s' : Net) : Prop where
  answers : s'.answers = s.answers
  attempts : s'.attempts = s.attempts
  sock : s'.conn.sock = s.conn.sock
  stream : s'.conn.stream = s.conn.stream
  pos : s'.conn.pos = s.conn.pos + n
  trace : s'.trace = events ++ s.trace

theorem Moved.refl (s : Net) : Moved 0 [] s s := ⟨rfl, rfl, rfl, rfl, rfl, rfl⟩

theorem Moved.trans {m n : Nat} {es fs : List NetEvent} {s s' s'' : Net} (h : Moved m es s s')
    (h' : Moved n fs s' s'') : Moved (m + n) (fs ++ es) s s'' := by
  refine ⟨h'.answers.trans h.answers, h'.attempts.trans h.attempts, h'.sock.trans h.sock,
    h'.stream.trans h.stream, ?_, ?_⟩
  · rw [h'.pos, h.pos, Nat.add_assoc]
  · rw [h'.trace, h.trace, List.append_assoc]

theorem Moved.flag {n : Nat} {es : List NetEvent} {s s' : Net} (h : Moved n es s s')
    (flag : Option Nat) : Moved n es s { s' with flag := flag } :=
  ⟨h.answers, h.attempts, h.sock, h.stream, h.pos, h.trace⟩

theorem Moved.record {n : Nat} {es : List NetEvent} {s s' : Net} (h : Moved n es s s')
    (e : NetEvent) : Moved n (e :: es) s { s' with trace := e :: s'.trace } :=
  ⟨h.answers, h.attempts, h.sock, h.stream, h.pos, by rw [List.cons_append, ← h.trace]⟩

theorem running_moved {n : Nat} {es : List NetEvent} {s0 : Net} {E : Net → Prop} :
    Triple (Moved n es s0) running (fun _ => Moved n es s0) E :=
  running_spec fun _ _ flag h => h.flag flag

/-- The outcome of a receive: the next `len` bytes of the stream, or nothing, with some of
them consumed. -/
def Received (len : Nat) (s0 : Net) : Option Bytes → Net → Prop
  | some received, s => received = slice s0.conn.stream s0.conn.pos len ∧ Moved len [] s0 s
  | none, s => ∃ k ≤ len, Moved k [] s0 s

theorem recvLoop_full {s0 : Net} {len : Nat} {received : Bytes}
    (hreceived : received = slice s0.conn.stream s0.conn.pos len) {E : Net → Prop}
    (hE : ∀ s, Moved len [] s0 s → E s) :
    Triple (Moved len [] s0) (do return if ← running then some received else none)
      (Received len s0) E := by
  refine (Triple.bind running_moved fun b => Triple.pure fun s hs => ?_).conseq (fun _ h => h)
    (fun _ _ h => h) hE
  cases b with
  | true => exact ⟨hreceived, hs⟩
  | false => exact ⟨len, Nat.le_refl _, hs⟩

/-- The loop of `recv_full_timeout`, by induction on the script; what was received so far
is the stream up to the position. -/
theorem recvLoop_moved {s0 : Net} {len : Nat} : ∀ (steps : List RecvStep) {n : Nat}, n ≤ len →
    Triple (Moved n [] s0) (recvLoop len steps (slice s0.conn.stream s0.conn.pos n))
      (Received len s0) (fun s => ∃ k ≤ len, Moved k [] s0 s) := by
  intro steps
  induction steps with
  | nil =>
    intro n hn
    rw [recvLoop, length_slice]
    refine Triple.ite (fun hfull => ?_) fun _ => ?_
    · obtain rfl : n = len := Nat.le_antisymm hn hfull
      exact recvLoop_full rfl fun s hs => ⟨n, hn, hs⟩
    · refine Triple.bind running_moved fun b => Triple.ite (fun _ => ?_) fun _ => ?_
      · exact Triple.stop fun s hs => ⟨n, hn, hs⟩
      · exact Triple.pure fun s hs => ⟨n, hn, hs⟩
  | cons step steps ih =>
    intro n hn
    rw [recvLoop.eq_def]
    dsimp only
    rw [length_slice]
    have hfail : Triple (Moved n [] s0) (pure none : Prog Stop Net (Option Bytes))
        (Received len s0) (fun s => ∃ k ≤ len, Moved k [] s0 s) :=
      Triple.pure fun s hs => ⟨n, hn, hs⟩
    refine Triple.ite (fun hfull => ?_) fun hpart => ?_
    · obtain rfl : n = len := Nat.le_antisymm hn hfull
      exact recvLoop_full rfl fun s hs => ⟨n, hn, hs⟩
    · refine Triple.bind running_moved fun b => Triple.ite (fun _ => ?_) fun _ => hfail
      refine Triple.bind (Triple.modify (Q := fun _ => Moved n [] s0) fun s hs =>
        ⟨hs.answers, hs.attempts, hs.sock, hs.stream, hs.pos, hs.trace⟩) fun _ => ?_
      cases step with
      | interrupted => exact ih hn
      | pollError => exact hfail
      | timeout => exact hfail
      | closed => exact hfail
      | error => exact hfail
      | data k =>
        -- The bytes are appended to the slice, and the position moves with them.
        refine Triple.bind (Triple.get (Q := fun s s' => Moved n [] s0 s ∧ Moved n [] s0 s')
          fun s hs => ⟨hs, hs⟩) fun s => Triple.assume fun hs => ?_
        rw [hs.stream, hs.pos, slice_append]
        refine Triple.bind (Triple.modify (Q := fun _ =>
          Moved (n + min (k + 1) (len - n)) [] s0) fun s' hs' => ?_) fun _ => ih (by omega)
        exact ⟨hs'.answers, hs'.attempts, hs'.sock, hs'.stream,
          by rw [hs'.pos, Nat.add_assoc], hs'.trace⟩

/-- `recv_full_timeout`. -/
theorem recvFullTimeout_moved {len : Nat} (s0 : Net) :
    Triple (· = s0) (recvFullTimeout len) (Received len s0)
      (fun s => ∃ k ≤ len, Moved k [] s0 s) :=
  Triple.bind (Triple.get (Q := fun _ => Moved 0 [] s0) fun s hs => hs ▸ Moved.refl s) fun s =>
    recvLoop_moved s.conn.recvs (Nat.zero_le len)

/-- The length of the frame that starts at `pos`, without its prefix. -/
def frameLen (stream : Nat → UInt8) (pos : Nat) : Nat := (ntohl (slice stream pos 4)).toNat

/-- `recv_message`: it returns the frame at the position of the stream, or has consumed a
part of it. -/
theorem recvMessage_moved (s0 : Net) :
    Triple (· = s0) recvMessage
      (fun r s => match r with
        | some msg =>
          msg = slice s0.conn.stream (s0.conn.pos + 4) (frameLen s0.conn.stream s0.conn.pos) ∧
          Moved (4 + frameLen s0.conn.stream s0.conn.pos) [] s0 s
        | none => ∃ k, Moved k [] s0 s)
      (fun s => ∃ k, Moved k [] s0 s) := by
  refine Triple.bind ((recvFullTimeout_moved s0).conseq (fun _ h => h) (fun _ _ h => h)
    fun _ ⟨k, _, h⟩ => ⟨k, h⟩) fun r => ?_
  cases r with
  | none => exact Triple.pure fun _ ⟨k, _, h⟩ => ⟨k, h⟩
  | some lenPrefix =>
    refine Triple.assume fun hinitial => ?_
    dsimp only
    have hlen : frameLen s0.conn.stream s0.conn.pos = (ntohl lenPrefix).toNat := by
      rw [frameLen, hinitial]
    rw [hlen]
    refine Triple.ite (fun hzero => ?_) fun _ => ?_
    · rw [hzero]
      exact Triple.pure fun _ h => ⟨rfl, h⟩
    · refine Triple.of_eq fun s1 h1 => (recvFullTimeout_moved s1).conseq (fun _ h => h)
        (fun r s h => ?_) fun s ⟨k, _, h⟩ => ⟨4 + k, h1.trans h⟩
      cases r with
      | none =>
        obtain ⟨k, _, h⟩ := h
        exact ⟨4 + k, h1.trans h⟩
      | some msg =>
        obtain ⟨hmsg, h⟩ := h
        rw [h1.stream, h1.pos] at hmsg
        exact ⟨hmsg, h1.trans h⟩

/-- `peer_read_message`: it returns the frame at the position of the stream, or fails
somewhere in it. -/
theorem peerReadMessage_moved (s0 : Net) :
    Triple (· = s0) peerReadMessage
      (fun r s => match r with
        | some (id, payload) =>
          Moved (4 + frameLen s0.conn.stream s0.conn.pos)
            [.message s0.conn.sock s0.conn.pos id payload] s0 s
        | none => ∃ k, Moved k [.failed s0.conn.sock s0.conn.pos (s0.conn.pos + k)] s0 s)
      (fun s => ∃ k, Moved k [] s0 s) := by
  refine Triple.bind (Triple.get (Q := fun s s' => s = s0 ∧ s' = s0) fun s hs => ⟨hs, hs⟩)
    fun s => Triple.assume fun hs => ?_
  rw [hs]
  dsimp only
  refine Triple.bind (recvMessage_moved s0) fun r => ?_
  cases r with
  | none =>
    refine Triple.bind (Triple.get (Q := fun s s' => s = s' ∧ ∃ k, Moved k [] s0 s')
      fun s h => ⟨rfl, h⟩) fun s' => ?_
    refine Triple.bind (Triple.modify (Q := fun _ s => ∃ k,
      Moved k [.failed s0.conn.sock s0.conn.pos (s0.conn.pos + k)] s0 s) fun s hs => ?_)
      fun _ => Triple.pure fun _ h => h
    obtain ⟨rfl, k, h⟩ := hs
    refine ⟨k, ?_⟩
    rw [h.sock, h.pos]
    exact h.record _
  | some msg =>
    refine Triple.assume fun _ => ?_
    cases msg with
    | nil =>
      exact Triple.bind (Triple.modify (Q := fun _ => Moved (4 + frameLen s0.conn.stream s0.conn.pos)
        [.message s0.conn.sock s0.conn.pos 255 []] s0) fun s h => h.record _)
        fun _ => Triple.pure fun _ h => h
    | cons id payload =>
      exact Triple.bind (Triple.modify (Q := fun _ => Moved (4 + frameLen s0.conn.stream s0.conn.pos)
        [.message s0.conn.sock s0.conn.pos id payload] s0) fun s h => h.record _)
        fun _ => Triple.pure fun _ h => h

/-- The outcome of a send: a success only with everything sent. -/
def Sent (buf : Bytes) (s0 : Net) : Bool → Net → Prop
  | true, s => Moved 0 [.sent s0.conn.sock buf] s0 s
  | false, s => Moved 0 [] s0 s ∨ Moved 0 [.sent s0.conn.sock buf] s0 s

/-- The end of the loop: even then the shutdown flag makes it a failure. -/
theorem sendDone_moved {s0 : Net} {buf : Bytes} :
    Triple (Moved 0 [] s0) (sendLoop.sendDone buf) (Sent buf s0) (Moved 0 [] s0) := by
  refine Triple.bind (Triple.get (Q := fun s s' => s = s' ∧ Moved 0 [] s0 s')
    fun s hs => ⟨rfl, hs⟩) fun s => ?_
  refine Triple.bind (Triple.modify (Q := fun _ => Moved 0 [.sent s0.conn.sock buf] s0)
    fun s' hs => ?_) fun _ => running_moved.post fun ok s hs => ?_
  · obtain ⟨rfl, h⟩ := hs
    rw [h.sock]
    exact h.record _
  · cases ok with
    | true => exact hs
    | false => exact .inr hs

/-- The loop of `send_full_timeout`, by induction on the script. -/
theorem sendLoop_moved {s0 : Net} {buf : Bytes} : ∀ (steps : List SendStep) {sent : Nat},
    Triple (Moved 0 [] s0) (sendLoop buf steps sent) (Sent buf s0) (Moved 0 [] s0) := by
  have hfail : Triple (Moved 0 [] s0) (pure false : Prog Stop Net Bool) (Sent buf s0)
      (Moved 0 [] s0) := Triple.pure fun s hs => .inl hs
  intro steps
  induction steps with
  | nil =>
    intro sent
    rw [sendLoop]
    refine Triple.ite (fun _ => sendDone_moved) fun _ => Triple.bind running_moved fun b => ?_
    exact Triple.ite (fun _ => Triple.stop fun _ h => h) fun _ => hfail
  | cons step steps ih =>
    intro sent
    rw [sendLoop.eq_def]
    dsimp only
    refine Triple.ite (fun _ => sendDone_moved) fun _ => Triple.bind running_moved fun b => ?_
    refine Triple.ite (fun _ => ?_) fun _ => hfail
    refine Triple.bind (Triple.modify (Q := fun _ => Moved 0 [] s0) fun s hs =>
      ⟨hs.answers, hs.attempts, hs.sock, hs.stream, hs.pos, hs.trace⟩) fun _ => ?_
    cases step with
    | interrupted => exact ih
    | accepted n => exact ih
    | pollError => exact hfail
    | timeout => exact hfail
    | closed => exact hfail
    | error => exact hfail
    | brokenPipe =>
      exact Triple.bind (Triple.modify (Q := fun _ => Moved 0 [] s0) fun s hs =>
        hs.flag (some 0)) fun _ => hfail

/-- `send_full_timeout`. -/
theorem sendFullTimeout_moved {buf : Bytes} (s0 : Net) :
    Triple (· = s0) (sendFullTimeout buf) (Sent buf s0) (Moved 0 [] s0) :=
  Triple.bind (Triple.get (Q := fun _ => Moved 0 [] s0) fun s hs => hs ▸ Moved.refl s) fun s =>
    sendLoop_moved s.conn.sends

/-! ## Stages of a session -/

/-- The stages between the unchoke and the end of a connection. Only pieces of the torrent are
asked for that the peer has. -/
structure Serving (tor : TorrentT) (peer : PeerConnection) (ready asked K : Net → Prop) :
    Prop where
  stop : ∀ s, ready s → K s
  running : Triple ready running (fun _ => ready) K
  request : ∀ i begin len, i < tor.numPieces → peerHasPiece peer i = true →
    Triple ready (peerSendRequest i begin len) (fun ok s => if ok then asked s else ready s) K
  receive : ∀ i begin len, Triple asked (peerReceiveBlock i begin len) (fun _ => ready) K

section Serving

variable {tor : TorrentT} {peer : PeerConnection} {ready asked K : Net → Prop}

theorem Serving.blockLoop (h : Serving tor peer ready asked K) {i pieceLen : UInt32}
    (hi : i < tor.numPieces) (hhas : peerHasPiece peer i = true) {rounds : Nat} :
    ∀ {offset : UInt32} {buf : Bytes},
    Triple (fun w => ready w.net) (blockLoop i pieceLen rounds offset buf)
      (fun _ w => ready w.net) (fun w => K w.net) := by
  induction rounds with
  | zero => exact Triple.stop fun w hw => h.stop w.net hw
  | succ rounds ih =>
    intro offset buf
    rw [CourseWork.Torrent.blockLoop]
    refine Triple.ite (fun _ => ?_) fun _ => Triple.pure fun _ hw => hw
    refine Triple.bind (onNet_net h.running) fun b => ?_
    refine Triple.ite (fun _ => ?_) fun _ => Triple.pure fun _ hw => hw
    refine Triple.bind (onNet_net (h.request i offset _ hi hhas)) fun ok => ?_
    cases ok with
    | false => exact Triple.pure fun _ hw => hw
    | true =>
      refine Triple.bind (onNet_net (h.receive i offset _)) fun r => ?_
      cases r with
      | none => exact Triple.pure fun _ hw => hw
      | some block => exact ih

theorem Serving.downloadPiece (h : Serving tor peer ready asked K) {sha1 : Bytes → Bytes}
    {i : UInt32} (hi : i < tor.numPieces) :
    Triple (fun w => ready w.net) (downloadPiece sha1 tor peer i) (fun _ w => ready w.net)
      (fun w => K w.net) := by
  refine Triple.bind (Triple.get (Q := fun _ w => ready w.net) fun _ hw => hw) fun w => ?_
  refine Triple.ite (fun _ => Triple.pure fun _ hw => hw) fun _ => ?_
  refine Triple.ite (fun _ => Triple.pure fun _ hw => hw) fun hhas => ?_
  have hhas : peerHasPiece peer i = true := by simpa using hhas
  refine Triple.ite (fun _ => Triple.stop fun w hw => h.stop w.net hw) fun _ => ?_
  refine Triple.bind (Q := fun _ w => ready w.net) ?_ fun buf => ?_
  · exact Triple.bind (Triple.get (Q := fun _ w => ready w.net) fun _ hw => hw) fun w =>
      Triple.bind (Triple.modify (Q := fun _ w => ready w.net) fun _ hw => hw) fun _ =>
        Triple.pure fun _ hw => hw
  · refine Triple.bind (h.blockLoop hi hhas) fun r => ?_
    refine Triple.ite (fun _ => ?_) fun _ => Triple.pure fun _ hw => hw
    refine Triple.bind (Q := fun _ w => ready w.net) ?_ fun _ => Triple.modify fun _ hw => hw
    refine Triple.of_eq fun w hw => (handOver_spec i _ _ w).conseq (fun _ h => h) ?_ ?_
    · rintro _ _ ⟨out, _, rfl⟩
      exact hw
    · rintro _ ⟨_, rfl⟩
      exact h.stop _ hw

theorem Serving.pieceLoop (h : Serving tor peer ready asked K) {sha1 : Bytes → Bytes}
    {indices : List UInt32} (hindices : ∀ i ∈ indices, i < tor.numPieces) :
    Triple (fun w => ready w.net) (pieceLoop sha1 tor peer indices) (fun _ w => ready w.net)
      (fun w => K w.net) :=
  pieceLoop_keeps (Triple.modify fun _ hw => hw) (onNet_net h.running)
    fun i hi => h.downloadPiece (hindices i hi)

end Serving

/-- An invariant for each stage: between connections, after the connection, after the
handshake, and for a peer as it is after the unchoke between blocks and after a request. `K`
holds wherever a run stops. -/
structure Stages (tor : TorrentT) (myPeerId : Bytes) (idle connected shaken : Net → Prop)
    (ready asked : PeerConnection → Net → Prop) (K : Net → Prop) : Prop where
  stop : ∀ s, idle s → K s
  close : ∀ peer s, ready peer s → idle s
  runningIdle : Triple idle running (fun _ => idle) K
  runningReady : ∀ peer, Triple (ready peer) running (fun _ => ready peer) K
  connect : Triple idle tcpConnectTimeout (fun r s => if r.isSome then connected s else idle s) K
  handshake : Triple connected (peerHandshake tor myPeerId)
    (fun ok s => if ok then shaken s else idle s) K
  interested : Triple shaken peerSendInterested (fun ok s => if ok then shaken s else idle s) K
  unchoke : Triple shaken (peerWaitForUnchoke ⟨none, true⟩)
    (fun r s => r.elim (idle s) fun peer => ready peer s) K
  request : ∀ peer i begin len, i < tor.numPieces → peerHasPiece peer i = true →
    Triple (ready peer) (peerSendRequest i begin len)
      (fun ok s => if ok then asked peer s else ready peer s) K
  receive : ∀ peer i begin len,
    Triple (asked peer) (peerReceiveBlock i begin len) (fun _ => ready peer) K

section Stages

variable {tor : TorrentT} {myPeerId : Bytes} {idle connected shaken K : Net → Prop}
  {ready asked : PeerConnection → Net → Prop}

theorem Stages.serving (h : Stages tor myPeerId idle connected shaken ready asked K)
    (peer : PeerConnection) : Serving tor peer (ready peer) (asked peer) K :=
  ⟨fun s hs => h.stop s (h.close peer s hs), h.runningReady peer, h.request peer, h.receive peer⟩

theorem Stages.downloadFromPeer (h : Stages tor myPeerId idle connected shaken ready asked K)
    {sha1 : Bytes → Bytes} :
    Triple (fun w => idle w.net) (downloadFromPeer sha1 tor myPeerId) (fun _ w => idle w.net)
      (fun w => K w.net) := by
  refine Triple.bind (onNet_net h.connect) fun r => ?_
  cases r with
  | none => exact Triple.pure fun _ hw => hw
  | some sock =>
    refine Triple.bind (onNet_net h.handshake) fun ok => ?_
    cases ok with
    | false => exact Triple.pure fun _ hw => hw
    | true =>
      refine Triple.bind (onNet_net h.interested) fun ok => ?_
      cases ok with
      | false => exact Triple.pure fun _ hw => hw
      | true =>
        refine Triple.bind (onNet_net h.unchoke) fun r => ?_
        cases r with
        | none => exact Triple.pure fun _ hw => hw
        | some peer =>
          exact ((h.serving peer).pieceLoop fun i hi => mem_pieceIndices.mp hi).post
            fun _ w hw => h.close peer w.net hw

/-- Invariants of the stages hold throughout a run. -/
theorem Stages.run (h : Stages tor myPeerId idle connected shaken ready asked K)
    (sha1 : Bytes → Bytes) (peers : List PeerT) (env : Surroundings) (out : Output)
    (hstart : idle env.net) : K (run sha1 tor peers myPeerId env out).2.net := by
  have hloop : Triple (fun w => idle w.net) (peerLoop sha1 tor myPeerId peers)
      (fun _ w => idle w.net) (fun w => K w.net) :=
    peerLoop_keeps (Triple.modify fun _ hw => hw) (onNet_net h.runningIdle) h.downloadFromPeer
  have hrun := downloadPieces_spec (I := fun w => idle w.net) (fun _ hw => hw) hloop
    (closeOutput_keeps fun _ _ hw => hw)
  have hend := hrun (env.start out) hstart
  unfold CourseWork.Torrent.run
  generalize downloadPieces sha1 tor peers myPeerId (env.start out) = r at hend ⊢
  obtain ⟨result, w⟩ := r
  cases result with
  | ok left => exact h.stop _ hend.2
  | error e => exact hend

end Stages

end CourseWork.Torrent
