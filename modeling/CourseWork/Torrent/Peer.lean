import CourseWork.Lib.Bitmap
import CourseWork.Torrent.Metainfo
import CourseWork.Torrent.Network

/-!
# Peer

The `peer` module: the handshake and the messages of the peer protocol, on the
connection in use.
-/

namespace CourseWork.Torrent
open CLib

/-- `peer_t`, in network order. -/
structure PeerT where
  ip : UInt32
  port : UInt16
  deriving DecidableEq

/-- `peer_connection_t`. The socket is the connection in use, a NULL bitfield is `none`. -/
structure PeerConnection where
  bitfield : Option Bytes
  choked : Bool
  deriving DecidableEq

/-! ## Sending -/

/-- `BT_PROTOCOL` with its length before it. -/
def btProtocol : Bytes := 19 :: ascii "BitTorrent protocol"

/-- The handshake that is sent. -/
def handshakeBytes (tor : TorrentT) (myPeerId : Bytes) : Bytes :=
  btProtocol ++ List.replicate 8 0 ++ tor.infoHash.take 20 ++ myPeerId.take 20

/-- `peer_handshake`. The peer id of the other side is not used. -/
def peerHandshake (tor : TorrentT) (myPeerId : Bytes) : Prog Stop Net Bool := do
  if ← sendFullTimeout (handshakeBytes tor myPeerId) then
    match ← recvFullTimeout 68 with
    | none => return false
    | some hsIn =>
      return hsIn.take 20 == btProtocol && (hsIn.drop 28).take 20 == tor.infoHash.take 20
  else return false

/-- `peer_send_interested`. -/
def peerSendInterested : Prog Stop Net Bool := sendFullTimeout [0, 0, 0, 1, 2]

/-- The 17 bytes of a request. -/
def requestBytes (index begin length : UInt32) : Bytes :=
  htonl 13 ++ [6] ++ htonl index ++ htonl begin ++ htonl length

/-- `peer_send_request`. -/
def peerSendRequest (index begin length : UInt32) : Prog Stop Net Bool :=
  sendFullTimeout (requestBytes index begin length)

/-! ## Receiving -/

/-- `peer_read_message`, with a record of the outcome. A keep-alive has the id `0xFF`. -/
def peerReadMessage : Prog Stop Net (Option (UInt8 × Bytes)) := do
  let s ← Prog.get
  let start := s.conn.pos
  match ← recvMessage with
  | none =>
    let s ← Prog.get
    record (.failed s.conn.sock start s.conn.pos)
    return none
  | some [] =>
    record (.message s.conn.sock start 255 [])
    return some (255, [])
  | some (id :: payload) =>
    record (.message s.conn.sock start id payload)
    return some (id, payload)

/-- The `switch` of `peer_wait_for_unchoke`. -/
def handleMessage (peer : PeerConnection) (msgId : UInt8) (payload : Bytes) : PeerConnection :=
  if msgId = 0 then { peer with choked := true }
  else if msgId = 1 then { peer with choked := false }
  else if msgId = 4 then
    if 4 ≤ payload.length then
      let index := (ntohl payload).toNat
      match peer.bitfield with
      | some bits =>
        if index / 8 < bits.length then { peer with bitfield := some (Bitmap.mark bits index) }
        else peer
      | none => peer
    else peer
  else if msgId = 5 then { peer with bitfield := some payload }
  else peer

/-- The loop of `peer_wait_for_unchoke`. Every message takes a step of the script, so that
the script bounds the number of rounds. -/
def waitLoop : Nat → PeerConnection → Prog Stop Net (Option PeerConnection)
  | 0, _ => Prog.stop .pending
  | rounds + 1, peer => do
    if (← running) && peer.choked then
      match ← peerReadMessage with
      | none => return none
      | some (msgId, payload) =>
        if msgId = 255 then waitLoop rounds peer
        else
          let peer := handleMessage peer msgId payload
          if peer.choked then waitLoop rounds peer else return some peer
    else return if peer.choked then none else some peer

/-- `peer_wait_for_unchoke`; the connection as it is left on success. -/
def peerWaitForUnchoke (peer : PeerConnection) : Prog Stop Net (Option PeerConnection) := do
  let s ← Prog.get
  waitLoop (s.conn.recvs.length + 1) peer

/-- `peer_has_piece`. -/
def peerHasPiece (peer : PeerConnection) (index : UInt32) : Bool :=
  match peer.bitfield with
  | none => true
  | some bits =>
    if bits.length ≤ index.toNat / 8 then false
    else (bits.getD (index.toNat / 8) 0 >>> UInt8.ofNat (7 - index.toNat % 8)) &&& 1 != 0

/-- The loop of `peer_receive_block`, with as many rounds as the script allows. -/
def receiveLoop (expectedIndex expectedBegin : UInt32) (length : Nat) :
    Nat → Prog Stop Net (Option Bytes)
  | 0 => Prog.stop .pending
  | rounds + 1 => do
    match ← peerReadMessage with
    | none => return none
    | some (msgId, payload) =>
      if msgId = 255 then receiveLoop expectedIndex expectedBegin length rounds
      else if msgId = 7 then
        if payload.length < 8 then return none
        else
          let index := ntohl payload
          let begin := ntohl (payload.drop 4)
          let blockLen := payload.length - 8
          if index = expectedIndex ∧ begin = expectedBegin ∧ blockLen = length then
            return some (payload.drop 8)
          else receiveLoop expectedIndex expectedBegin length rounds
      else if msgId = 0 then return none
      else receiveLoop expectedIndex expectedBegin length rounds

/-- `peer_receive_block`: the block copied into the buffer. -/
def peerReceiveBlock (expectedIndex expectedBegin : UInt32) (length : Nat) :
    Prog Stop Net (Option Bytes) := do
  let s ← Prog.get
  receiveLoop expectedIndex expectedBegin length (s.conn.recvs.length + 1)

end CourseWork.Torrent
