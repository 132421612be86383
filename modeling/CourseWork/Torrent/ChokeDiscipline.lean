import CourseWork.Torrent.Session

/-!
# Choke discipline

When the client sends requests. It waits for an unchoke before the first request on a
connection, and `peer_receive_block` gives up when it reads a choke; but the loop over the
pieces goes on with the next piece. So a request is sent to a peer that has choked the
client exactly when one follows a choke that answered another request.
-/

namespace CourseWork.Torrent
open CLib Prog

/-! ## Chokes and requests -/

/-- The socket of an event. -/
def NetEvent.sock : NetEvent → Nat
  | .connected sock => sock
  | .sent sock _ => sock
  | .message sock _ _ _ => sock
  | .failed sock _ _ => sock

/-- A request message, by its length prefix and its id. -/
def IsRequest (msg : Bytes) : Prop := msg.take 5 = [0, 0, 0, 13, 6]

instance (msg : Bytes) : Decidable (IsRequest msg) := inferInstanceAs (Decidable (_ = _))

/-- Whether the most recent choke or unchoke message that was read on a socket is a
choke. -/
def lastChoke (sock : Nat) : List NetEvent → Option Bool
  | [] => none
  | .message sock' _ id _ :: earlier =>
    if sock' = sock ∧ id = 0 then some true
    else if sock' = sock ∧ id = 1 then some false
    else lastChoke sock earlier
  | _ :: earlier => lastChoke sock earlier

/-- The most recent choke or unchoke message is an unchoke. -/
def Unchoked (sock : Nat) (earlier : List NetEvent) : Prop := lastChoke sock earlier = some false

instance (sock : Nat) (earlier : List NetEvent) : Decidable (Unchoked sock earlier) :=
  inferInstanceAs (Decidable (_ = _))

/-- A request was sent on a socket. -/
def Requested (sock : Nat) (earlier : List NetEvent) : Prop :=
  ∃ msg, .sent sock msg ∈ earlier ∧ IsRequest msg

/-- A choke was read on a socket after a request had been sent there. -/
def ChokedAfterRequest (sock : Nat) : List NetEvent → Prop
  | [] => False
  | .message sock' _ id _ :: earlier =>
    (sock' = sock ∧ id = 0 ∧ Requested sock earlier) ∨ ChokedAfterRequest sock earlier
  | _ :: earlier => ChokedAfterRequest sock earlier

/-- Each request is sent on a socket, after events, as `P` says. -/
def EachRequest (P : Nat → List NetEvent → Prop) : List NetEvent → Prop
  | [] => True
  | .sent sock msg :: earlier => (IsRequest msg → P sock earlier) ∧ EachRequest P earlier
  | _ :: earlier => EachRequest P earlier

/-- Each request is sent when the most recent choke or unchoke message is an unchoke. -/
def ChokeDiscipline (trace : List NetEvent) : Prop := EachRequest Unchoked trace

/-- No request is sent on a connection where an earlier request was answered by a
choke. -/
def StopsAfterChoke (trace : List NetEvent) : Prop :=
  EachRequest (fun sock earlier => ¬ ChokedAfterRequest sock earlier) trace

/-- `EachRequest` is decided by a walk through the events. -/
def decideEachRequest {P : Nat → List NetEvent → Prop}
    (hP : ∀ sock earlier, Decidable (P sock earlier)) :
    (trace : List NetEvent) → Decidable (EachRequest P trace)
  | [] => isTrue trivial
  | .sent sock msg :: earlier =>
    have := hP sock earlier
    have := decideEachRequest hP earlier
    inferInstanceAs (Decidable ((IsRequest msg → P sock earlier) ∧ EachRequest P earlier))
  | .connected _ :: earlier | .message _ _ _ _ :: earlier | .failed _ _ _ :: earlier =>
    decideEachRequest hP earlier

instance (trace : List NetEvent) : Decidable (ChokeDiscipline trace) :=
  decideEachRequest (fun _ _ => inferInstance) trace

theorem ChokedAfterRequest.requested {sock : Nat} {trace : List NetEvent}
    (h : ChokedAfterRequest sock trace) : Requested sock trace := by
  have hcons : ∀ {e : NetEvent} {earlier : List NetEvent},
      Requested sock earlier → Requested sock (e :: earlier) :=
    fun ⟨msg, hmem, hreq⟩ => ⟨msg, List.mem_cons_of_mem _ hmem, hreq⟩
  induction trace with
  | nil => exact h.elim
  | cons e earlier ih =>
    cases e with
    | message sock' start id payload =>
      rcases h with ⟨_, _, h⟩ | h
      · exact hcons h
      · exact hcons (ih h)
    | connected sock' => exact hcons (ih h)
    | sent sock' msg => exact hcons (ih h)
    | failed sock' start stop => exact hcons (ih h)

/-- The requests of the program are request messages. -/
theorem isRequest_requestBytes (index begin length : UInt32) :
    IsRequest (requestBytes index begin length) := rfl

theorem not_isRequest_handshakeBytes (tor : TorrentT) (myPeerId : Bytes) :
    ¬ IsRequest (handshakeBytes tor myPeerId) := by
  intro h
  have hhead : some (19 : UInt8) = some 0 := congrArg List.head? h
  exact absurd hhead (by decide)

/-! ## The stages -/

/-- The invariant between connections. -/
structure ChokeIdle (s : Net) : Prop where
  fresh : ∀ e ∈ s.trace, e.sock < s.attempts
  discipline_iff : ChokeDiscipline s.trace ↔ StopsAfterChoke s.trace

/-- The invariant on a connection. -/
structure ChokeOpen (s : Net) : Prop extends ChokeIdle s where
  sock_lt : s.conn.sock < s.attempts

/-- A connection on which nothing was requested. -/
structure ChokeShaken (s : Net) : Prop extends ChokeOpen s where
  unrequested : ¬ Requested s.conn.sock s.trace

/-- A connection after the unchoke: it is choked again only by the answer to a
request. -/
structure ChokeReady (s : Net) : Prop extends ChokeOpen s where
  unchoked_iff : ChokeDiscipline s.trace →
    (Unchoked s.conn.sock s.trace ↔ ¬ ChokedAfterRequest s.conn.sock s.trace)

/-- A connection after a request that was not answered. -/
structure ChokeAsked (s : Net) : Prop extends ChokeOpen s where
  requested : Requested s.conn.sock s.trace
  unchoked : ChokeDiscipline s.trace →
    Unchoked s.conn.sock s.trace ∧ ¬ ChokedAfterRequest s.conn.sock s.trace

section Steps

variable {s s' : Net}

theorem ChokeAsked.ready (h : ChokeAsked s) : ChokeReady s :=
  ⟨h.toChokeOpen, fun hd => iff_of_true (h.unchoked hd).1 (h.unchoked hd).2⟩

theorem ChokeOpen.moved {n : Nat} (h : ChokeOpen s) (hm : Moved n [] s s') : ChokeOpen s' where
  fresh := by
    rw [hm.trace, hm.attempts]
    exact h.fresh
  discipline_iff := by
    rw [hm.trace]
    exact h.discipline_iff
  sock_lt := by
    rw [hm.sock, hm.attempts]
    exact h.sock_lt

theorem ChokeOpen.event {n : Nat} {e : NetEvent} (h : ChokeOpen s) (hm : Moved n [e] s s')
    (hsock : e.sock = s.conn.sock)
    (hiff : ChokeDiscipline (e :: s.trace) ↔ StopsAfterChoke (e :: s.trace)) : ChokeOpen s' where
  fresh := by
    rw [hm.trace, hm.attempts]
    intro e' he'
    rcases List.mem_cons.mp he' with rfl | he'
    · rw [hsock]
      exact h.sock_lt
    · exact h.fresh e' he'
  discipline_iff := by
    rw [hm.trace]
    exact hiff
  sock_lt := by
    rw [hm.sock, hm.attempts]
    exact h.sock_lt

theorem ChokeOpen.message {n start : Nat} {id : UInt8} {payload : Bytes} (h : ChokeOpen s)
    (hm : Moved n [.message s.conn.sock start id payload] s s') : ChokeOpen s' :=
  h.event hm rfl h.discipline_iff

theorem ChokeOpen.failed {n start stop : Nat} (h : ChokeOpen s)
    (hm : Moved n [.failed s.conn.sock start stop] s s') : ChokeOpen s' :=
  h.event hm rfl h.discipline_iff

theorem ChokeShaken.moved {n : Nat} (h : ChokeShaken s) (hm : Moved n [] s s') :
    ChokeShaken s' := by
  refine ⟨h.toChokeOpen.moved hm, ?_⟩
  rw [hm.sock, hm.trace]
  exact h.unrequested

/-- The handshake and the interest are no requests. -/
theorem ChokeShaken.sent {msg : Bytes} (h : ChokeShaken s)
    (hm : Moved 0 [.sent s.conn.sock msg] s s') (hmsg : ¬ IsRequest msg) : ChokeShaken s' := by
  refine ⟨h.toChokeOpen.event hm rfl ?_, ?_⟩
  · exact and_congr (iff_of_true (fun hreq => absurd hreq hmsg) fun hreq => absurd hreq hmsg)
      h.discipline_iff
  · rw [hm.sock, hm.trace]
    rintro ⟨msg', hmem, hreq⟩
    rcases List.mem_cons.mp hmem with heq | hmem
    · cases heq
      exact hmsg hreq
    · exact h.unrequested ⟨msg', hmem, hreq⟩

theorem ChokeShaken.message {n start : Nat} {id : UInt8} {payload : Bytes} (h : ChokeShaken s)
    (hm : Moved n [.message s.conn.sock start id payload] s s') : ChokeShaken s' := by
  refine ⟨h.toChokeOpen.message hm, ?_⟩
  rw [hm.sock, hm.trace]
  rintro ⟨msg, hmem, hreq⟩
  rcases List.mem_cons.mp hmem with heq | hmem
  · cases heq
  · exact h.unrequested ⟨msg, hmem, hreq⟩

/-- The unchoke ends the wait. -/
theorem ChokeShaken.unchoked {n start : Nat} {payload : Bytes} (h : ChokeShaken s)
    (hm : Moved n [.message s.conn.sock start 1 payload] s s') : ChokeReady s' := by
  have hshaken := h.message hm
  refine ⟨hshaken.toChokeOpen, fun _ => iff_of_true ?_ ?_⟩
  · rw [hm.sock, hm.trace]
    simp [Unchoked, lastChoke]
  · exact fun hchoked => hshaken.unrequested hchoked.requested

theorem ChokeReady.moved {n : Nat} (h : ChokeReady s) (hm : Moved n [] s s') : ChokeReady s' := by
  refine ⟨h.toChokeOpen.moved hm, ?_⟩
  rw [hm.sock, hm.trace]
  exact h.unchoked_iff

/-- A request is in order exactly when no choke has answered another one. -/
theorem ChokeReady.request {msg : Bytes} (h : ChokeReady s)
    (hm : Moved 0 [.sent s.conn.sock msg] s s') (hmsg : IsRequest msg) : ChokeAsked s' := by
  refine ⟨h.toChokeOpen.event hm rfl ?_, ?_, ?_⟩
  · constructor
    · rintro ⟨hunchoked, hd⟩
      exact ⟨fun hreq => (h.unchoked_iff hd).mp (hunchoked hreq), h.discipline_iff.mp hd⟩
    · rintro ⟨hstops, hd⟩
      have hd := h.discipline_iff.mpr hd
      exact ⟨fun hreq => (h.unchoked_iff hd).mpr (hstops hreq), hd⟩
  · rw [hm.sock, hm.trace]
    exact ⟨msg, List.mem_cons_self, hmsg⟩
  · rw [hm.sock, hm.trace]
    rintro ⟨hunchoked, hd⟩
    exact ⟨hunchoked hmsg, (h.unchoked_iff hd).mp (hunchoked hmsg)⟩

theorem ChokeAsked.failed {n start stop : Nat} (h : ChokeAsked s)
    (hm : Moved n [.failed s.conn.sock start stop] s s') : ChokeReady s' := by
  refine ⟨h.toChokeOpen.failed hm, ?_⟩
  rw [hm.sock, hm.trace]
  exact h.ready.unchoked_iff

/-- What is read while a block is awaited keeps the connection unchoked. -/
theorem ChokeAsked.message {n start : Nat} {id : UInt8} {payload : Bytes} (h : ChokeAsked s)
    (hm : Moved n [.message s.conn.sock start id payload] s s') (hid : id ≠ 0) :
    ChokeAsked s' := by
  obtain ⟨msg, hmem, hreq⟩ := h.requested
  refine ⟨h.toChokeOpen.message hm, ?_, ?_⟩
  · rw [hm.sock, hm.trace]
    exact ⟨msg, List.mem_cons_of_mem _ hmem, hreq⟩
  · rw [hm.sock, hm.trace]
    intro hd
    obtain ⟨hunchoked, hchoked⟩ := h.unchoked hd
    constructor
    · unfold Unchoked
      rw [List.singleton_append, lastChoke, if_neg fun h => hid h.2]
      split
      · rfl
      · exact hunchoked
    · rintro (⟨_, hzero, _⟩ | hchoked')
      · exact hid hzero
      · exact hchoked hchoked'

/-- A choke in place of the block. -/
theorem ChokeAsked.choked {n start : Nat} {payload : Bytes} (h : ChokeAsked s)
    (hm : Moved n [.message s.conn.sock start 0 payload] s s') : ChokeReady s' := by
  refine ⟨h.toChokeOpen.message hm, fun _ => iff_of_false ?_ ?_⟩
  · rw [hm.sock, hm.trace]
    simp [Unchoked, lastChoke]
  · rw [hm.sock, hm.trace]
    exact fun hchoked => hchoked (.inl ⟨rfl, rfl, h.requested⟩)

/-! ## The functions -/

theorem ChokeIdle.flag (h : ChokeIdle s) (flag : Option Nat) : ChokeIdle { s with flag := flag } :=
  ⟨h.fresh, h.discipline_iff⟩

theorem running_chokeReady : Triple ChokeReady running (fun _ => ChokeReady) ChokeIdle :=
  running_spec fun s _ flag h => h.moved ((Moved.refl s).flag flag)

/-- What is sent before the unchoke. -/
theorem sendFullTimeout_shaken {buf : Bytes} (hbuf : ¬ IsRequest buf) :
    Triple ChokeShaken (sendFullTimeout buf) (fun _ => ChokeShaken) ChokeIdle := by
  refine Triple.of_eq fun s h => (sendFullTimeout_moved s).conseq (fun _ h => h) ?_
    fun s' hm => (h.moved hm).toChokeIdle
  intro ok s' hs'
  cases ok with
  | true => exact h.sent hs' hbuf
  | false =>
    rcases hs' with hm | hm
    · exact h.moved hm
    · exact h.sent hm hbuf

theorem peerSendRequest_asked {i begin length : UInt32} :
    Triple ChokeReady (peerSendRequest i begin length)
      (fun ok s => if ok then ChokeAsked s else ChokeReady s) ChokeIdle := by
  refine Triple.of_eq fun s h => (sendFullTimeout_moved s).conseq (fun _ h => h) ?_
    fun s' hm => (h.moved hm).toChokeIdle
  intro ok s' hs'
  have hmsg := isRequest_requestBytes i begin length
  cases ok with
  | true => exact h.request hs' hmsg
  | false =>
    rcases hs' with hm | hm
    · exact h.moved hm
    · exact (h.request hm hmsg).ready

/-- Only an unchoke lifts the choke. -/
theorem handleMessage_choked {peer : PeerConnection} {msgId : UInt8} {payload : Bytes}
    (hpeer : peer.choked = true) (hid : msgId ≠ 1) :
    (handleMessage peer msgId payload).choked = true := by
  unfold handleMessage
  rw [if_neg hid]
  split
  · rfl
  · split
    · split
      · dsimp only
        split
        · split
          · exact hpeer
          · exact hpeer
        · exact hpeer
      · exact hpeer
    · split
      · exact hpeer
      · exact hpeer

theorem waitLoop_ready {rounds : Nat} : ∀ {peer : PeerConnection}, peer.choked = true →
    Triple ChokeShaken (waitLoop rounds peer)
      (fun r s => if r.isSome then ChokeReady s else ChokeIdle s) ChokeIdle := by
  induction rounds with
  | zero => exact fun _ => Triple.stop fun _ h => h.toChokeIdle
  | succ rounds ih =>
    intro peer hpeer
    rw [waitLoop]
    refine Triple.bind (running_spec (Q := fun _ => ChokeShaken)
      fun s _ flag h => h.moved ((Moved.refl s).flag flag)) fun b => ?_
    rw [hpeer]
    refine Triple.ite (fun _ => ?_) fun _ => Triple.pure fun _ h => h.toChokeIdle
    refine Triple.of_eq fun s h => Triple.bind ((peerReadMessage_moved s).conseq (fun _ h => h)
      (fun _ _ h => h) ?_) fun r => ?_
    · rintro s' ⟨k, hm⟩
      exact (h.moved hm).toChokeIdle
    · cases r with
      | none =>
        refine Triple.pure fun s' ⟨k, hm⟩ => ?_
        exact (h.toChokeOpen.failed hm).toChokeIdle
      | some msg =>
        obtain ⟨msgId, payload⟩ := msg
        refine Triple.ite (fun _ => (ih hpeer).pre fun _ hm => h.message hm) fun _ => ?_
        refine Triple.ite (fun hchoked => (ih hchoked).pre fun _ hm => h.message hm)
          fun hchoked => Triple.pure fun s' hm => ?_
        -- The loop ends by an unchoke only.
        have hid : msgId = 1 := by
          refine Decidable.byContradiction fun hid => ?_
          exact hchoked (handleMessage_choked hpeer hid)
        rw [hid] at hm
        exact h.unchoked hm

/-- A choke in place of the block ends the round of requests. -/
theorem peerReadMessage_asked :
    Triple ChokeAsked peerReadMessage
      (fun r s => match r with
        | none => ChokeReady s
        | some (id, _) => if id = 0 then ChokeReady s else ChokeAsked s)
      ChokeIdle := by
  refine Triple.of_eq fun s h => (peerReadMessage_moved s).conseq (fun _ h => h) ?_ ?_
  · intro r s' hs'
    cases r with
    | none =>
      obtain ⟨k, hm⟩ := hs'
      exact h.failed hm
    | some msg =>
      obtain ⟨id, payload⟩ := msg
      dsimp only at hs' ⊢
      split
      · next hid =>
        rw [hid] at hs'
        exact h.choked hs'
      · next hid => exact h.message hs' hid
  · rintro s' ⟨k, hm⟩
    exact (h.toChokeOpen.moved hm).toChokeIdle

theorem receiveLoop_ready {i begin : UInt32} {len rounds : Nat} :
    Triple ChokeAsked (receiveLoop i begin len rounds) (fun _ => ChokeReady) ChokeIdle := by
  induction rounds with
  | zero => exact Triple.stop fun _ h => h.toChokeIdle
  | succ rounds ih =>
    have hend : ∀ r : Option Bytes, Triple ChokeAsked (pure r : Prog Stop Net (Option Bytes))
        (fun _ => ChokeReady) ChokeIdle := fun _ => Triple.pure fun _ h => h.ready
    rw [receiveLoop]
    refine Triple.bind peerReadMessage_asked fun r => ?_
    cases r with
    | none => exact Triple.pure fun _ h => h
    | some msg =>
      obtain ⟨msgId, payload⟩ := msg
      dsimp only
      by_cases hid : msgId = 0
      · subst hid
        rw [if_neg (by decide), if_neg (by decide), if_pos rfl]
        exact Triple.pure fun _ h => h
      · refine Triple.pre (P := ChokeAsked) ?_ fun _ h => by rwa [if_neg hid] at h
        rw [if_neg hid]
        refine Triple.ite (fun _ => ih) fun _ => Triple.ite (fun _ => ?_) fun _ => ih
        exact Triple.ite (fun _ => hend none) fun _ => Triple.ite (fun _ => hend _) fun _ => ih

theorem tcpConnectTimeout_shaken :
    Triple ChokeIdle tcpConnectTimeout
      (fun r s => if r.isSome then ChokeShaken s else ChokeIdle s) ChokeIdle := by
  refine Triple.bind (Triple.get (Q := fun s s' => s = s' ∧ ChokeIdle s') fun s h => ⟨rfl, h⟩)
    fun s => ?_
  split
  · exact Triple.stop fun _ h => h.2
  · refine Triple.bind (Triple.modify (Q := fun _ => ChokeIdle) fun s' h => ?_) fun _ =>
      Triple.pure fun _ h => h
    exact ⟨fun e he => Nat.lt_succ_of_lt (h.2.fresh e he), h.2.discipline_iff⟩
  · refine Triple.bind (Triple.modify (Q := fun _ s' => ChokeShaken s' ∧
      s'.conn.sock = s.attempts) fun s' h => ?_) fun _ => ?_
    · obtain ⟨rfl, h⟩ := h
      refine ⟨⟨⟨⟨fun e he => Nat.lt_succ_of_lt (h.fresh e he), h.discipline_iff⟩,
        Nat.lt_succ_self _⟩, ?_⟩, rfl⟩
      -- The number of the socket is new.
      rintro ⟨msg, hmem, _⟩
      exact Nat.lt_irrefl _ (h.fresh _ hmem)
    · refine Triple.bind (Triple.modify (Q := fun _ => ChokeShaken) fun s' h => ?_) fun _ =>
        Triple.pure fun _ h => h
      refine ⟨h.1.toChokeOpen.event ((Moved.refl s').record (.connected s.attempts)) h.2.symm
        h.1.discipline_iff, ?_⟩
      rintro ⟨msg, hmem, hreq⟩
      rcases List.mem_cons.mp hmem with heq | hmem
      · cases heq
      · exact h.1.unrequested ⟨msg, hmem, hreq⟩

theorem peerHandshake_shaken {tor : TorrentT} {myPeerId : Bytes} :
    Triple ChokeShaken (peerHandshake tor myPeerId)
      (fun ok s => if ok then ChokeShaken s else ChokeIdle s) ChokeIdle := by
  refine Triple.bind (sendFullTimeout_shaken (not_isRequest_handshakeBytes tor myPeerId))
    fun ok => ?_
  refine Triple.ite (fun _ => ?_) fun _ => Triple.pure fun _ h => h.toChokeIdle
  refine Triple.of_eq fun s h => Triple.bind ((recvFullTimeout_moved s).conseq (fun _ h => h)
    (fun _ _ h => h) ?_) fun r => ?_
  · rintro s' ⟨k, _, hm⟩
    exact (h.moved hm).toChokeIdle
  · cases r with
    | none => exact Triple.pure fun s' ⟨k, _, hm⟩ => (h.moved hm).toChokeIdle
    | some hsIn =>
      refine Triple.pure fun s' ⟨_, hm⟩ => ?_
      split
      · exact h.moved hm
      · exact (h.moved hm).toChokeIdle

end Steps

/-! ## Runs -/

/-- The stages of a session keep the invariant. -/
theorem choke_stages (tor : TorrentT) (myPeerId : Bytes) :
    Stages tor myPeerId ChokeIdle ChokeShaken ChokeShaken (fun _ => ChokeReady)
      (fun _ => ChokeAsked) ChokeIdle where
  stop _ h := h
  close _ _ h := h.toChokeIdle
  runningIdle := running_spec fun _ _ flag h => h.flag flag
  runningReady _ := running_chokeReady
  connect := tcpConnectTimeout_shaken
  handshake := peerHandshake_shaken
  interested := (sendFullTimeout_shaken (by decide)).post fun ok _ h => by
    split
    · exact h
    · exact h.toChokeIdle
  unchoke := Triple.bind (Triple.get (Q := fun _ => ChokeShaken) fun _ h => h) fun _ =>
    (waitLoop_ready rfl).post fun r _ h => by cases r <;> exact h
  request _ _ _ _ _ _ := peerSendRequest_asked
  receive _ _ _ _ := Triple.bind (Triple.get (Q := fun _ => ChokeAsked) fun _ h => h) fun _ =>
    receiveLoop_ready

/-- In every run, the client sends requests only while it is unchoked exactly if it sends
none on a connection where an earlier request was answered by a choke. -/
theorem choke_discipline_iff (sha1 : Bytes → Bytes) (tor : TorrentT) (peers : List PeerT)
    (myPeerId : Bytes) (env : Surroundings) (out : Output) :
    ChokeDiscipline (run sha1 tor peers myPeerId env out).2.net.trace ↔
      StopsAfterChoke (run sha1 tor peers myPeerId env out).2.net.trace :=
  ((choke_stages tor myPeerId).run sha1 peers env out
    ⟨fun _ h => absurd h List.not_mem_nil, Iff.rfl⟩).discipline_iff

/-- A peer that answers the first request with a choke. -/
def chokingPeer : Remote :=
  scriptedPeer (byteTorrent [7, 8]) (unchokeMessage ++ htonl 1 ++ [0])
    [.data 99, .data 99, .data 99, .data 99, .data 99, .timeout]

/-- The second piece is requested all the same. -/
theorem requests_while_choked :
    ¬ ChokeDiscipline (byteRun [7, 8] [some chokingPeer]).2.net.trace := by decide +kernel

end CourseWork.Torrent
