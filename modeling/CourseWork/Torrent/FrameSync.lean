import CourseWork.Torrent.Session

/-!
# Frame synchronisation

Where the messages that the client reads start in the stream of the peer. A receive that
fails inside of a frame leaves the connection at a position that is no frame boundary,
and `download_pieces` keeps using it; as long as nothing is read there again, every
message starts at a boundary.
-/

namespace CourseWork.Torrent
open CLib Prog

/-- The positions where frames start: behind the handshake, and behind a frame. -/
inductive FrameBoundary (stream : Nat → UInt8) : Nat → Prop
  | handshake : FrameBoundary stream 68
  | next {pos : Nat} : FrameBoundary stream pos →
      FrameBoundary stream (pos + (4 + frameLen stream pos))

/-- Every message that was returned starts at a frame boundary of its peer's stream. -/
def InSync (answers : List (Option Remote)) (trace : List NetEvent) : Prop :=
  ∀ sock start id payload, .message sock start id payload ∈ trace →
    ∃ remote, answers[sock]? = some (some remote) ∧ FrameBoundary remote.stream start

/-- A message on a socket after a receive failed there with a part of a frame consumed. -/
def AfterFailure : NetEvent → NetEvent → Prop
  | .message sock _ _ _, .failed sock' start stop => sock = sock' ∧ start < stop
  | _, _ => False

instance : DecidableRel AfterFailure
  | .message sock _ _ _, .failed sock' start stop =>
    inferInstanceAs (Decidable (sock = sock' ∧ start < stop))
  | .message .., .connected _ | .message .., .sent .. | .message .., .message ..
  | .connected _, _ | .sent .., _ | .failed .., _ => isFalse id

/-- No message was returned on a connection where a receive had failed inside of a
frame. -/
def LeavesBroken (trace : List NetEvent) : Prop :=
  trace.Pairwise fun later earlier => ¬ AfterFailure later earlier

instance (trace : List NetEvent) : Decidable (LeavesBroken trace) :=
  inferInstanceAs (Decidable (List.Pairwise _ _))

/-! ## The stages -/

/-- The invariant between connections. -/
structure SyncIdle (answers : List (Option Remote)) (s : Net) : Prop where
  answers_eq : s.answers = answers
  sync : LeavesBroken s.trace → InSync answers s.trace

/-- The invariant on a connection. -/
structure SyncOpen (answers : List (Option Remote)) (s : Net) : Prop
    extends SyncIdle answers s where
  remote : ∃ remote, answers[s.conn.sock]? = some (some remote) ∧ remote.stream = s.conn.stream

/-- A connection on which nothing was received. -/
structure SyncConnected (answers : List (Option Remote)) (s : Net) : Prop
    extends SyncOpen answers s where
  pos : s.conn.pos = 0

/-- A connection after the handshake: at a frame boundary, or broken. -/
structure SyncReady (answers : List (Option Remote)) (s : Net) : Prop
    extends SyncOpen answers s where
  aligned : FrameBoundary s.conn.stream s.conn.pos ∨
    ∃ start stop, start < stop ∧ .failed s.conn.sock start stop ∈ s.trace

section Steps

variable {answers : List (Option Remote)} {s s' : Net}

theorem SyncOpen.moved {n : Nat} (h : SyncOpen answers s) (hm : Moved n [] s s') :
    SyncOpen answers s' where
  answers_eq := hm.answers.trans h.answers_eq
  sync := by
    rw [hm.trace]
    exact h.sync
  remote := by
    rw [hm.sock, hm.stream]
    exact h.remote

/-- An event on the connection that is no message out of place. -/
theorem SyncOpen.event {n : Nat} {e : NetEvent} (h : SyncOpen answers s)
    (hm : Moved n [e] s s')
    (hsync : LeavesBroken (e :: s.trace) → ∀ sock start id payload,
      e = .message sock start id payload →
      ∃ remote, answers[sock]? = some (some remote) ∧ FrameBoundary remote.stream start) :
    SyncOpen answers s' where
  answers_eq := hm.answers.trans h.answers_eq
  sync := by
    rw [hm.trace]
    intro hleaves sock start id payload hmem
    rcases List.mem_cons.mp hmem with heq | hmem
    · exact hsync hleaves sock start id payload heq.symm
    · exact h.sync (List.pairwise_cons.mp hleaves).2 sock start id payload hmem
  remote := by
    rw [hm.sock, hm.stream]
    exact h.remote

theorem SyncOpen.sent {msg : Bytes} (h : SyncOpen answers s)
    (hm : Moved 0 [.sent s.conn.sock msg] s s') : SyncOpen answers s' :=
  h.event hm fun _ _ _ _ _ heq => nomatch heq

theorem SyncConnected.sent {msg : Bytes} (h : SyncConnected answers s)
    (hm : Moved 0 [.sent s.conn.sock msg] s s') : SyncConnected answers s' :=
  ⟨h.toSyncOpen.sent hm, by rw [hm.pos, h.pos]⟩

theorem SyncReady.sent {msg : Bytes} (h : SyncReady answers s)
    (hm : Moved 0 [.sent s.conn.sock msg] s s') : SyncReady answers s' := by
  refine ⟨h.toSyncOpen.sent hm, ?_⟩
  rw [hm.stream, hm.pos, hm.sock, hm.trace]
  rcases h.aligned with hb | ⟨start, stop, hlt, hmem⟩
  · exact .inl hb
  · exact .inr ⟨start, stop, hlt, List.mem_cons_of_mem _ hmem⟩

theorem SyncReady.unmoved (h : SyncReady answers s) (hm : Moved 0 [] s s') :
    SyncReady answers s' := by
  refine ⟨h.toSyncOpen.moved hm, ?_⟩
  rw [hm.stream, hm.pos, hm.sock, hm.trace]
  exact h.aligned

/-- Reading a whole frame leads from boundary to boundary. -/
theorem SyncReady.message {id : UInt8} {payload : Bytes} (h : SyncReady answers s)
    (hm : Moved (4 + frameLen s.conn.stream s.conn.pos)
      [.message s.conn.sock s.conn.pos id payload] s s') : SyncReady answers s' := by
  refine ⟨h.toSyncOpen.event hm ?_, ?_⟩
  · intro hleaves sock start id' payload' heq
    cases heq
    rcases h.aligned with hb | ⟨start, stop, hlt, hmem⟩
    · obtain ⟨remote, hremote, hstream⟩ := h.remote
      exact ⟨remote, hremote, by rwa [hstream]⟩
    · exact absurd ⟨rfl, hlt⟩
        ((List.pairwise_cons.mp hleaves).1 _ hmem)
  · rw [hm.stream, hm.pos, hm.sock, hm.trace]
    rcases h.aligned with hb | ⟨start, stop, hlt, hmem⟩
    · exact .inl hb.next
    · exact .inr ⟨start, stop, hlt, List.mem_cons_of_mem _ hmem⟩

/-- A failed read breaks the connection, unless it has consumed nothing. -/
theorem SyncReady.failed {k : Nat} (h : SyncReady answers s)
    (hm : Moved k [.failed s.conn.sock s.conn.pos (s.conn.pos + k)] s s') :
    SyncReady answers s' := by
  refine ⟨h.toSyncOpen.event hm (fun _ _ _ _ _ heq => nomatch heq), ?_⟩
  rw [hm.stream, hm.pos, hm.sock, hm.trace]
  by_cases hk : k = 0
  · rw [hk]
    rcases h.aligned with hb | ⟨start, stop, hlt, hmem⟩
    · exact .inl hb
    · exact .inr ⟨start, stop, hlt, List.mem_cons_of_mem _ hmem⟩
  · exact .inr ⟨s.conn.pos, s.conn.pos + k, by omega, List.mem_cons_self⟩

theorem peerReadMessage_sync :
    Triple (SyncReady answers) peerReadMessage (fun _ => SyncReady answers)
      (SyncIdle answers) := by
  refine Triple.of_eq fun s h => (peerReadMessage_moved s).conseq (fun _ h => h) ?_ ?_
  · intro r s' hs'
    cases r with
    | none =>
      obtain ⟨k, hm⟩ := hs'
      exact h.failed hm
    | some msg => exact h.message hs'
  · rintro s' ⟨k, hm⟩
    exact (h.toSyncOpen.moved hm).toSyncIdle

theorem running_ready : Triple (SyncReady answers) running (fun _ => SyncReady answers)
    (SyncIdle answers) :=
  running_spec fun _ _ _ h =>
    ⟨⟨⟨h.answers_eq, h.sync⟩, h.remote⟩, h.aligned⟩

theorem waitLoop_sync {rounds : Nat} : ∀ {peer : PeerConnection},
    Triple (SyncReady answers) (waitLoop rounds peer) (fun _ => SyncReady answers)
      (SyncIdle answers) := by
  induction rounds with
  | zero => exact Triple.stop fun _ h => h.toSyncIdle
  | succ rounds ih =>
    intro peer
    rw [waitLoop]
    refine Triple.bind running_ready fun b => Triple.ite (fun _ => ?_) fun _ =>
      Triple.pure fun _ h => h
    refine Triple.bind peerReadMessage_sync fun r => ?_
    cases r with
    | none => exact Triple.pure fun _ h => h
    | some msg =>
      exact Triple.ite (fun _ => ih) fun _ => Triple.ite (fun _ => ih) fun _ =>
        Triple.pure fun _ h => h

theorem receiveLoop_sync {i begin : UInt32} {len rounds : Nat} :
    Triple (SyncReady answers) (receiveLoop i begin len rounds) (fun _ => SyncReady answers)
      (SyncIdle answers) := by
  induction rounds with
  | zero => exact Triple.stop fun _ h => h.toSyncIdle
  | succ rounds ih =>
    rw [receiveLoop]
    refine Triple.bind peerReadMessage_sync fun r => ?_
    have hend : ∀ r : Option Bytes, Triple (SyncReady answers)
        (pure r : Prog Stop Net (Option Bytes)) (fun _ => SyncReady answers)
        (SyncIdle answers) := fun _ => Triple.pure fun _ h => h
    cases r with
    | none => exact hend none
    | some msg =>
      refine Triple.ite (fun _ => ih) fun _ => Triple.ite (fun _ => ?_) fun _ =>
        Triple.ite (fun _ => hend none) fun _ => ih
      exact Triple.ite (fun _ => hend none) fun _ => Triple.ite (fun _ => hend _) fun _ => ih

theorem sendFullTimeout_sync {buf : Bytes} :
    Triple (SyncReady answers) (sendFullTimeout buf) (fun _ => SyncReady answers)
      (SyncIdle answers) := by
  refine Triple.of_eq fun s h => (sendFullTimeout_moved s).conseq (fun _ h => h) ?_
    fun s' hm => (h.toSyncOpen.moved hm).toSyncIdle
  intro ok s' hs'
  cases ok with
  | true => exact h.sent hs'
  | false =>
    rcases hs' with hm | hm
    · exact h.unmoved hm
    · exact h.sent hm

theorem tcpConnectTimeout_sync :
    Triple (SyncIdle answers) tcpConnectTimeout
      (fun r s => if r.isSome then SyncConnected answers s else SyncIdle answers s)
      (SyncIdle answers) := by
  refine Triple.bind (Triple.get (Q := fun s s' => s = s' ∧ SyncIdle answers s')
    fun s h => ⟨rfl, h⟩) fun s => ?_
  split
  · exact Triple.stop fun _ h => h.2
  · refine Triple.bind (Triple.modify (Q := fun _ => SyncIdle answers) fun s' h => ?_) fun _ =>
      Triple.pure fun _ h => h
    exact ⟨h.2.answers_eq, h.2.sync⟩
  · next remote heq =>
    refine Triple.bind (Triple.modify (Q := fun _ => SyncConnected answers) fun s' h => ?_)
      fun _ => ?_
    · obtain ⟨rfl, h⟩ := h
      rw [h.answers_eq] at heq
      exact ⟨⟨⟨h.answers_eq, h.sync⟩, ⟨remote, heq, rfl⟩⟩, rfl⟩
    · refine Triple.bind (Triple.modify (Q := fun _ => SyncConnected answers)
        fun s' h => ?_) fun _ => Triple.pure fun _ h => h
      have hopen := h.toSyncOpen.event ((Moved.refl s').record (.connected s.attempts))
        fun _ _ _ _ _ heq => nomatch heq
      exact ⟨hopen, h.pos⟩

theorem peerHandshake_sync {tor : TorrentT} {myPeerId : Bytes} :
    Triple (SyncConnected answers) (peerHandshake tor myPeerId)
      (fun ok s => if ok then SyncReady answers s else SyncIdle answers s)
      (SyncIdle answers) := by
  refine Triple.of_eq fun s h => ?_
  refine Triple.bind (Q := fun _ => SyncConnected answers)
    ((sendFullTimeout_moved s).conseq (fun _ h => h) (fun ok s' hs' => ?_)
      fun s' hm => (h.toSyncOpen.moved hm).toSyncIdle) fun ok => ?_
  · cases ok with
    | true => exact h.sent hs'
    | false =>
      rcases hs' with hm | hm
      · exact ⟨h.toSyncOpen.moved hm, by rw [hm.pos, h.pos]⟩
      · exact h.sent hm
  · refine Triple.ite (fun _ => ?_) fun _ => Triple.pure fun _ h => h.toSyncIdle
    refine Triple.of_eq fun s1 h1 => Triple.bind ((recvFullTimeout_moved s1).conseq
      (fun _ h => h) (fun _ _ h => h) ?_) fun r => ?_
    · rintro s' ⟨k, _, hm⟩
      exact (h1.toSyncOpen.moved hm).toSyncIdle
    · cases r with
      | none =>
        refine Triple.pure fun s' ⟨k, _, hm⟩ => ?_
        exact (h1.toSyncOpen.moved hm).toSyncIdle
      | some hsIn =>
        refine Triple.pure fun s' ⟨_, hm⟩ => ?_
        have hopen := h1.toSyncOpen.moved hm
        split
        · refine ⟨hopen, .inl ?_⟩
          rw [hm.pos, h1.pos]
          exact .handshake
        · exact hopen.toSyncIdle

end Steps

/-- The stages of a session keep the invariant. -/
theorem sync_stages (tor : TorrentT) (myPeerId : Bytes) (answers : List (Option Remote)) :
    Stages tor myPeerId (SyncIdle answers) (SyncConnected answers) (SyncReady answers)
      (fun _ => SyncReady answers) (fun _ => SyncReady answers) (SyncIdle answers) where
  stop _ h := h
  close _ _ h := h.toSyncIdle
  runningIdle := running_spec fun _ _ _ h => ⟨h.answers_eq, h.sync⟩
  runningReady _ := running_ready
  connect := tcpConnectTimeout_sync
  handshake := peerHandshake_sync
  interested := sendFullTimeout_sync.post fun ok _ h => by
    split
    · exact h
    · exact h.toSyncIdle
  unchoke := Triple.bind (Triple.get (Q := fun _ => SyncReady answers) fun _ h => h) fun _ =>
    waitLoop_sync.post fun r _ h => by
      cases r with
      | none => exact h.toSyncIdle
      | some peer => exact h
  request _ _ _ _ _ _ := sendFullTimeout_sync.post fun ok _ h => by
    split
    · exact h
    · exact h
  receive _ _ _ _ := Triple.bind (Triple.get (Q := fun _ => SyncReady answers) fun _ h => h)
    fun _ => receiveLoop_sync

/-- In every run in which no message is returned on a connection where a receive had
failed inside of a frame, every message that is returned starts at a frame boundary. -/
theorem frames_in_sync (sha1 : Bytes → Bytes) (tor : TorrentT) (peers : List PeerT)
    (myPeerId : Bytes) (env : Surroundings) (out : Output)
    (h : LeavesBroken (run sha1 tor peers myPeerId env out).2.net.trace) :
    InSync env.answers (run sha1 tor peers myPeerId env out).2.net.trace :=
  ((sync_stages tor myPeerId env.answers).run sha1 peers env out
    ⟨rfl, fun _ _ _ _ _ h => absurd h List.not_mem_nil⟩).sync h

/-- A peer that stops inside of its first frame. -/
def stallingPeer : Remote :=
  scriptedPeer (byteTorrent [7]) unchokeMessage [.data 99, .data 2, .timeout]

/-- The download goes on with another peer, whose messages are in sync. -/
theorem frames_in_sync_stall :
    InSync [some stallingPeer, some oneBytePeer]
      (byteRun [7] [some stallingPeer, some oneBytePeer]).2.net.trace := by
  have hleaves : LeavesBroken (byteRun [7] [some stallingPeer, some oneBytePeer]).2.net.trace := by
    decide +kernel
  unfold byteRun at hleaves ⊢
  exact frames_in_sync Sha1.sha1 (byteTorrent [7]) _ [] _ _ hleaves

/-- A peer that stalls inside of the answer to the first request and then goes on. -/
def hiccupPeer : Remote :=
  scriptedPeer (byteTorrent [7, 8]) (unchokeMessage ++ byteMessage 0 7)
    [.data 99, .data 99, .data 99, .data 99, .data 2, .timeout, .data 99, .timeout]

theorem hiccup_boundary {pos : Nat} (h : FrameBoundary hiccupPeer.stream pos) :
    pos = 68 ∨ pos = 73 ∨ 87 ≤ pos := by
  induction h with
  | handshake => exact .inl rfl
  | next _ ih =>
    rcases ih with rfl | rfl | hle
    · exact .inr (.inl (by decide +kernel))
    · exact .inr (.inr (by decide +kernel))
    · omega

/-- After the timeout, seven bytes into the frame at 73, the request for the second piece
makes the client read a message at 80. -/
theorem frame_read_at_80 :
    ¬ InSync [some hiccupPeer] (byteRun [7, 8] [some hiccupPeer]).2.net.trace := by
  intro h
  obtain ⟨remote, hremote, hb⟩ := h 0 80 255 [] (by decide +kernel)
  obtain rfl : hiccupPeer = remote := Option.some.inj (Option.some.inj hremote)
  have := hiccup_boundary hb
  omega

end CourseWork.Torrent
