import CourseWork.Torrent.Availability
import CourseWork.Torrent.ChokeDiscipline

/-!
# Requests for announced pieces

The loops of `peer_wait_for_unchoke` and `peer_receive_block` leave the connection as the
messages that were read on it do, one after the other. So in every run a request comes after an
unchoke, and is for a piece that the peer has announced on the same connection.
-/

namespace CourseWork.Torrent
open CLib Prog

/-! ## Messages of a connection -/

/-- The message that an event has read on a socket. -/
def messageOn (sock : Nat) : NetEvent → Option Message
  | .message k _ id payload => if k = sock then some (id, payload) else none
  | _ => none

/-- The messages that were read on a socket. -/
def messagesOn (sock : Nat) (trace : List NetEvent) : List Message :=
  trace.filterMap (messageOn sock)

/-- The piece that a request is for. -/
def requestedPiece (msg : Bytes) : UInt32 := ntohl (msg.drop 5)

/-- After these messages a piece of the torrent may be asked for: one of them is an unchoke, and
if the client has stored a bitfield, a have or a bitfield among them has announced the piece. -/
structure Askable (tor : TorrentT) (history : List Message) (i : UInt32) : Prop where
  inside : i < tor.numPieces
  unchoked : ∃ m ∈ history, m.1 = 1
  announced : (peerAfter history).bitfield.isSome → EverAnnounced history i

/-- Each request is for a piece that may be asked for, by what was read on its socket before. -/
def AsksAnnounced (tor : TorrentT) (trace : List NetEvent) : Prop :=
  ∀ sock msg earlier, .sent sock msg :: earlier <:+ trace → IsRequest msg →
    Askable tor (messagesOn sock earlier) (requestedPiece msg)

section Messages

variable {tor : TorrentT} {trace : List NetEvent} {history : List Message} {i : UInt32}

/-- Only an unchoke lifts the choke. -/
theorem exists_unchoke : ∀ {history : List Message}, (peerAfter history).choked = false →
    ∃ m ∈ history, m.1 = 1
  | [], h => by cases h
  | m :: history, h => by
    by_cases hid : m.1 = 1
    · exact ⟨m, List.mem_cons_self, hid⟩
    · cases hchoked : (peerAfter history).choked with
      | true =>
        rw [peerAfter_handled hchoked, handleMessage_choked hchoked hid] at h
        cases h
      | false =>
        obtain ⟨m', hmem, hid'⟩ := exists_unchoke hchoked
        exact ⟨m', List.mem_cons_of_mem _ hmem, hid'⟩

theorem askable_of_has (hi : i < tor.numPieces) (hopen : (peerAfter history).choked = false)
    (hhas : peerHasPiece (peerAfter history) i = true) : Askable tor history i where
  inside := hi
  unchoked := exists_unchoke hopen
  announced hstored := by
    obtain ⟨bits, hbits⟩ := Option.isSome_iff_exists.mp hstored
    exact everAnnounced_of_stored hbits (peerHasPiece_iff.mp hhas bits hbits)

theorem requestedPiece_requestBytes (index begin length : UInt32) :
    requestedPiece (requestBytes index begin length) = index := by
  have hdrop : (requestBytes index begin length).drop 5 =
      htonl index ++ (htonl begin ++ htonl length) := by
    simp only [requestBytes, List.append_assoc]
    rfl
  rw [requestedPiece, hdrop, ntohl_htonl]

/-- One more event, which is no request or is in order. -/
theorem AsksAnnounced.cons (h : AsksAnnounced tor trace) {e : NetEvent}
    (he : ∀ sock msg, e = .sent sock msg → IsRequest msg →
      Askable tor (messagesOn sock trace) (requestedPiece msg)) :
    AsksAnnounced tor (e :: trace) := by
  intro sock msg earlier hsuffix hreq
  rcases List.suffix_cons_iff.mp hsuffix with heq | hsuffix
  · obtain ⟨hhead, rfl⟩ := List.cons.inj heq
    exact he sock msg hhead.symm hreq
  · exact h sock msg earlier hsuffix hreq

/-- On a new socket nothing was read. -/
theorem messagesOn_new {n : Nat} (h : ∀ e ∈ trace, e.sock < n) : messagesOn n trace = [] := by
  refine List.filterMap_eq_nil_iff.mpr fun e he => ?_
  cases e with
  | message k _ id payload => exact if_neg (Nat.ne_of_lt (h _ he))
  | _ => rfl

end Messages

/-! ## The stages -/

/-- The invariant between connections. -/
structure AskIdle (tor : TorrentT) (s : Net) : Prop where
  fresh : ∀ e ∈ s.trace, e.sock < s.attempts
  asks : AsksAnnounced tor s.trace

/-- A connection that is as the messages that were read on it leave it. -/
structure Heard (tor : TorrentT) (peer : PeerConnection) (s : Net) : Prop extends AskIdle tor s where
  sock_lt : s.conn.sock < s.attempts
  peer_eq : peer = peerAfter (messagesOn s.conn.sock s.trace)

/-- A connection after the unchoke. -/
structure HeardOpen (tor : TorrentT) (peer : PeerConnection) (s : Net) : Prop
    extends Heard tor peer s where
  unchoked : peer.choked = false

section Loops

variable {tor : TorrentT} {peer : PeerConnection} {s s' : Net}

theorem AskIdle.flag (h : AskIdle tor s) (flag : Option Nat) :
    AskIdle tor { s with flag := flag } :=
  ⟨h.fresh, h.asks⟩

theorem Heard.moved {n : Nat} (h : Heard tor peer s) (hm : Moved n [] s s') :
    Heard tor peer s' := by
  refine ⟨⟨?_, ?_⟩, ?_, ?_⟩
  · rw [hm.trace, hm.attempts]
    exact h.fresh
  · rw [hm.trace]
    exact h.asks
  · rw [hm.sock, hm.attempts]
    exact h.sock_lt
  · rw [hm.sock, hm.trace]
    exact h.peer_eq

/-- An event on the socket. -/
theorem Heard.event {n : Nat} {e : NetEvent} {peer' : PeerConnection} (h : Heard tor peer s)
    (hm : Moved n [e] s s') (hsock : e.sock = s.conn.sock)
    (hasks : ∀ msg, e = .sent s.conn.sock msg → IsRequest msg →
      Askable tor (messagesOn s.conn.sock s.trace) (requestedPiece msg))
    (hpeer : peer' = peerAfter (messagesOn s.conn.sock (e :: s.trace))) :
    Heard tor peer' s' := by
  refine ⟨⟨?_, ?_⟩, ?_, ?_⟩
  · rw [hm.trace, hm.attempts]
    exact List.forall_mem_cons.mpr ⟨hsock ▸ h.sock_lt, h.fresh⟩
  · rw [hm.trace]
    refine h.asks.cons fun sock msg heq hreq => ?_
    obtain rfl : sock = s.conn.sock := by rw [← hsock, heq]; rfl
    exact hasks msg heq hreq
  · rw [hm.sock, hm.attempts]
    exact h.sock_lt
  · rw [hm.sock, hm.trace]
    exact hpeer

theorem Heard.message {n start : Nat} {id : UInt8} {payload : Bytes} (h : Heard tor peer s)
    (hm : Moved n [.message s.conn.sock start id payload] s s') :
    Heard tor (afterMessage peer (id, payload)) s' := by
  refine h.event hm rfl (fun _ heq => nomatch heq) ?_
  have hread : messageOn s.conn.sock (.message s.conn.sock start id payload) = some (id, payload) :=
    if_pos rfl
  rw [messagesOn, List.filterMap_cons_some hread, h.peer_eq]
  rfl

theorem Heard.failed {n start stop : Nat} (h : Heard tor peer s)
    (hm : Moved n [.failed s.conn.sock start stop] s s') : Heard tor peer s' :=
  h.event hm rfl (fun _ heq => nomatch heq) h.peer_eq

/-- What is sent is no request, or one that is in order. -/
theorem Heard.sent {n : Nat} {msg : Bytes} (h : Heard tor peer s)
    (hm : Moved n [.sent s.conn.sock msg] s s')
    (hasks : IsRequest msg → Askable tor (messagesOn s.conn.sock s.trace) (requestedPiece msg)) :
    Heard tor peer s' := by
  refine h.event hm rfl (fun msg' heq hreq => ?_) h.peer_eq
  obtain ⟨_, rfl⟩ := NetEvent.sent.inj heq
  exact hasks hreq

theorem running_heard : Triple (Heard tor peer) running (fun _ => Heard tor peer) (AskIdle tor) :=
  running_spec fun s _ flag h => h.moved ((Moved.refl s).flag flag)

theorem peerReadMessage_heard :
    Triple (Heard tor peer) peerReadMessage
      (fun r s => match r with
        | some m => Heard tor (afterMessage peer m) s
        | none => Heard tor peer s)
      (AskIdle tor) := by
  refine Triple.of_eq fun s h => (peerReadMessage_moved s).conseq (fun _ h => h) ?_ ?_
  · intro r s' hs'
    cases r with
    | none =>
      obtain ⟨_, hm⟩ := hs'
      exact h.failed hm
    | some m => exact h.message hs'
  · rintro s' ⟨_, hm⟩
    exact (h.moved hm).toAskIdle

/-- `send_full_timeout` of a message that is no request, or one that is in order. -/
theorem sendFullTimeout_heard {msg : Bytes}
    (hasks : IsRequest msg → ∀ s, Heard tor peer s →
      Askable tor (messagesOn s.conn.sock s.trace) (requestedPiece msg)) :
    Triple (Heard tor peer) (sendFullTimeout msg) (fun _ => Heard tor peer) (AskIdle tor) := by
  refine Triple.of_eq fun s h => (sendFullTimeout_moved s).conseq (fun _ h => h) ?_
    fun s' hm => (h.moved hm).toAskIdle
  intro ok s' hs'
  cases ok with
  | true => exact h.sent hs' fun hreq => hasks hreq s h
  | false => exact hs'.elim h.moved fun hm => h.sent hm fun hreq => hasks hreq s h

/-- The loop of `peer_wait_for_unchoke` handles the messages that it reads. -/
theorem waitLoop_heard {rounds : Nat} : ∀ {peer : PeerConnection},
    Triple (Heard tor peer) (waitLoop rounds peer)
      (fun r s => r.elim (AskIdle tor s) fun peer' => HeardOpen tor peer' s) (AskIdle tor) := by
  induction rounds with
  | zero => exact Triple.stop fun _ h => h.toAskIdle
  | succ rounds ih =>
    intro peer
    rw [waitLoop]
    refine Triple.bind running_heard fun b => ?_
    refine Triple.ite (fun hwait => ?_) fun _ => Triple.pure fun s h => ?_
    · have hchoked := (Bool.and_eq_true_iff.mp hwait).2
      refine Triple.bind peerReadMessage_heard fun r => ?_
      cases r with
      | none => exact Triple.pure fun _ h => h.toAskIdle
      | some m =>
        obtain ⟨msgId, payload⟩ := m
        have hafter : afterMessage peer (msgId, payload) = handleMessage peer msgId payload :=
          if_pos hchoked
        dsimp only
        rw [hafter]
        refine Triple.ite (fun h255 => ih.pre fun s h => ?_) fun _ => ?_
        · rw [h255] at h
          exact h
        · refine Triple.ite (fun _ => ih) fun hopen => Triple.pure fun s h => ?_
          exact ⟨h, Bool.not_eq_true _ ▸ hopen⟩
    · split
      · exact h.toAskIdle
      · next hopen => exact ⟨h, Bool.not_eq_true _ ▸ hopen⟩

/-- The loop of `peer_receive_block` ignores the messages that it reads. -/
theorem receiveLoop_heard {index begin : UInt32} {length rounds : Nat} :
    Triple (HeardOpen tor peer) (receiveLoop index begin length rounds)
      (fun _ => HeardOpen tor peer) (AskIdle tor) := by
  have hread : Triple (HeardOpen tor peer) peerReadMessage (fun _ => HeardOpen tor peer)
      (AskIdle tor) := by
    refine Triple.of_eq fun s h => ?_
    have hafter : ∀ m, afterMessage peer m = peer := fun m => if_neg (by rw [h.unchoked]; decide)
    refine peerReadMessage_heard.conseq (fun _ hs => hs ▸ h.toHeard) (fun r s hs => ?_)
      fun _ hs => hs
    cases r with
    | none => exact ⟨hs, h.unchoked⟩
    | some m => exact ⟨hafter m ▸ hs, h.unchoked⟩
  induction rounds with
  | zero => exact Triple.stop fun _ h => h.toAskIdle
  | succ rounds ih =>
    have hend : ∀ r : Option Bytes, Triple (HeardOpen tor peer)
        (pure r : Prog Stop Net (Option Bytes)) (fun _ => HeardOpen tor peer) (AskIdle tor) :=
      fun _ => Triple.pure fun _ h => h
    rw [receiveLoop]
    refine Triple.bind hread fun r => ?_
    cases r with
    | none => exact hend none
    | some m =>
      obtain ⟨msgId, payload⟩ := m
      dsimp only
      refine Triple.ite (fun _ => ih) fun _ => Triple.ite (fun _ => ?_) fun _ => ?_
      · exact Triple.ite (fun _ => hend none) fun _ => Triple.ite (fun _ => hend _) fun _ => ih
      · exact Triple.ite (fun _ => hend none) fun _ => ih

theorem tcpConnectTimeout_heard :
    Triple (AskIdle tor) tcpConnectTimeout
      (fun r s => if r.isSome then Heard tor ⟨none, true⟩ s else AskIdle tor s) (AskIdle tor) := by
  refine Triple.bind (Triple.get (Q := fun s s' => s = s' ∧ AskIdle tor s') fun s h => ⟨rfl, h⟩)
    fun s => ?_
  split
  · exact Triple.stop fun _ h => h.2
  · refine Triple.bind (Triple.modify (Q := fun _ => AskIdle tor) fun s' h => ?_) fun _ =>
      Triple.pure fun _ h => h
    exact ⟨fun e he => Nat.lt_succ_of_lt (h.2.fresh e he), h.2.asks⟩
  · refine Triple.bind (Triple.modify (Q := fun _ s' => Heard tor ⟨none, true⟩ s' ∧
      s'.conn.sock = s.attempts) fun s' h => ?_) fun _ => ?_
    · obtain ⟨rfl, h⟩ := h
      refine ⟨⟨⟨fun e he => Nat.lt_succ_of_lt (h.fresh e he), h.asks⟩, Nat.lt_succ_self _, ?_⟩, rfl⟩
      exact congrArg peerAfter (messagesOn_new h.fresh).symm
    · refine Triple.bind (Triple.modify (Q := fun _ => Heard tor ⟨none, true⟩) fun s' h => ?_)
        fun _ => Triple.pure fun _ h => h
      exact h.1.event ((Moved.refl s').record (.connected s.attempts)) h.2.symm
        (fun _ heq => nomatch heq) h.1.peer_eq

theorem peerHandshake_heard {myPeerId : Bytes} :
    Triple (Heard tor peer) (peerHandshake tor myPeerId)
      (fun ok s => if ok then Heard tor peer s else AskIdle tor s) (AskIdle tor) := by
  refine Triple.bind (sendFullTimeout_heard fun hreq => absurd hreq
    (not_isRequest_handshakeBytes tor myPeerId)) fun ok => ?_
  refine Triple.ite (fun _ => ?_) fun _ => Triple.pure fun _ h => h.toAskIdle
  refine Triple.of_eq fun s h => Triple.bind ((recvFullTimeout_moved s).conseq (fun _ h => h)
    (fun _ _ h => h) ?_) fun r => ?_
  · rintro s' ⟨k, _, hm⟩
    exact (h.moved hm).toAskIdle
  · cases r with
    | none => exact Triple.pure fun s' ⟨k, _, hm⟩ => (h.moved hm).toAskIdle
    | some hsIn =>
      refine Triple.pure fun s' ⟨_, hm⟩ => ?_
      split
      · exact h.moved hm
      · exact (h.moved hm).toAskIdle

/-- A request for a piece that the peer has. -/
theorem peerSendRequest_heard {i begin length : UInt32} (hi : i < tor.numPieces)
    (hhas : peerHasPiece peer i = true) :
    Triple (HeardOpen tor peer) (peerSendRequest i begin length)
      (fun _ => HeardOpen tor peer) (AskIdle tor) := by
  refine Triple.of_eq fun s h => ?_
  refine (sendFullTimeout_heard fun _ s hs => ?_).conseq (fun _ hs => hs ▸ h.toHeard)
    (fun _ _ hs => ⟨hs, h.unchoked⟩) fun _ hs => hs
  rw [requestedPiece_requestBytes]
  have hopen := h.unchoked
  rw [hs.peer_eq] at hopen hhas
  exact askable_of_has hi hopen hhas

end Loops

/-! ## Runs -/

/-- The stages of a session keep the invariant. -/
theorem heard_stages (tor : TorrentT) (myPeerId : Bytes) :
    Stages tor myPeerId (AskIdle tor) (Heard tor ⟨none, true⟩) (Heard tor ⟨none, true⟩)
      (HeardOpen tor) (HeardOpen tor) (AskIdle tor) where
  stop _ h := h
  close _ _ h := h.toAskIdle
  runningIdle := running_spec fun _ _ flag h => h.flag flag
  runningReady _ := running_spec fun s _ flag h =>
    ⟨h.toHeard.moved ((Moved.refl s).flag flag), h.unchoked⟩
  connect := tcpConnectTimeout_heard
  handshake := peerHandshake_heard
  interested := (sendFullTimeout_heard fun hreq => absurd hreq (by decide)).post fun ok _ h => by
    split
    · exact h
    · exact h.toAskIdle
  unchoke := Triple.bind (Triple.get (Q := fun _ => Heard tor ⟨none, true⟩) fun _ h => h)
    fun _ => waitLoop_heard
  request _ _ _ _ hi hhas := (peerSendRequest_heard hi hhas).post fun ok _ h => by
    split
    · exact h
    · exact h
  receive _ _ _ _ := Triple.bind (Triple.get (Q := fun _ => HeardOpen tor _) fun _ h => h)
    fun _ => receiveLoop_heard

/-- In every run each request is for a piece of the torrent, after an unchoke, and for a piece
that was announced on the same connection if the client has stored a bitfield of the peer. -/
theorem requests_announced (sha1 : Bytes → Bytes) (tor : TorrentT) (peers : List PeerT)
    (myPeerId : Bytes) (env : Surroundings) (out : Output) :
    AsksAnnounced tor (run sha1 tor peers myPeerId env out).2.net.trace :=
  ((heard_stages tor myPeerId).run sha1 peers env out
    ⟨fun _ h => absurd h List.not_mem_nil, fun _ _ _ hsuffix => by
      cases List.suffix_nil.mp hsuffix⟩).asks

end CourseWork.Torrent
