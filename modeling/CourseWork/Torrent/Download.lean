import CourseWork.Lib.Sha1
import CourseWork.Torrent.Peer
import CourseWork.Torrent.Tar

/-!
# The download loop

`download_pieces` of the main program: peers one after the other, on each connection the
missing pieces in order, each in blocks, every verified piece handed to the output.
-/

namespace CourseWork.Torrent
open CLib

/-- `BLOCK_SIZE`. -/
def blockSize : UInt32 := 16384

/-- `out_ctx`, by `use_tar`. -/
inductive Output where
  | tar (tw : TarWriter)
  | storage (st : Storage)

/-- The loop heads, with `pieces_done` and `pieces_left`, and the pieces handed to the
output. -/
inductive Event where
  | head (piecesDone : Bytes) (piecesLeft : Int)
  | handed (i : UInt32) (buf : Bytes)
  deriving DecidableEq

/-- The state of a run. `heap` are the contents of fresh allocations. The log has the
latest event first. -/
structure World where
  net : Net
  heap : Nat → Nat → UInt8
  allocs : Nat
  piecesDone : Bytes
  piecesLeft : Int
  out : Output
  log : List Event

/-- A step on the network. -/
def onNet {α : Type} (p : Prog Stop Net α) : Prog Stop World α :=
  Prog.zoom World.net (fun net w => { w with net := net }) p

/-- The head of a loop. -/
def loopHead : Prog Stop World Unit :=
  Prog.modify fun w => { w with log := .head w.piecesDone w.piecesLeft :: w.log }

/-- `xmalloc`. -/
def xmalloc (size : Nat) : Prog Stop World Bytes := do
  let w ← Prog.get
  Prog.modify fun w => { w with allocs := w.allocs + 1 }
  return slice (w.heap w.allocs) 0 size

/-- `memcpy` of a block into a buffer. -/
def memcpy (buf : Bytes) (offset : Nat) (block : Bytes) : Bytes :=
  buf.take offset ++ block ++ buf.drop (offset + block.length)

/-- `IS_DONE`. -/
def isDone (piecesDone : Bytes) (i : UInt32) : Bool := Bitmap.test piecesDone i.toNat

/-- `MARK_DONE`. -/
def markDone (piecesDone : Bytes) (i : UInt32) : Bytes := Bitmap.mark piecesDone i.toNat

/-- The loop over the blocks of a piece: `piece_ok` and the buffer. The offset grows in
each round, so that `piece_len` bounds their number. -/
def blockLoop (i pieceLen : UInt32) : Nat → UInt32 → Bytes → Prog Stop World (Bool × Bytes)
  | 0, _, _ => Prog.stop .pending
  | rounds + 1, offset, buf => do
    if offset < pieceLen then
      if ← onNet running then
        let blockLen := if pieceLen - offset > blockSize then blockSize else pieceLen - offset
        if ← onNet (peerSendRequest i offset blockLen) then
          match ← onNet (peerReceiveBlock i offset blockLen.toNat) with
          | none => return (false, buf)
          | some block =>
            blockLoop i pieceLen rounds (offset + blockLen) (memcpy buf offset.toNat block)
        else return (false, buf)
      else return (true, buf)
    else return (true, buf)

/-- A piece goes to the archive or to the storage; `none` is undefined. -/
def Output.write (out : Output) (i : UInt32) (buf : Bytes) (pieceLen : UInt32) : Option Output :=
  match out with
  | .tar tw => (tarWriterWrite tw i buf pieceLen).map .tar
  | .storage st => some (.storage (storageWrite st i buf pieceLen))

/-- The verified piece is handed to the output. -/
def handOver (i : UInt32) (buf : Bytes) (pieceLen : UInt32) : Prog Stop World Unit := do
  Prog.modify fun w => { w with log := .handed i buf :: w.log }
  let w ← Prog.get
  match w.out.write i buf pieceLen with
  | some out => Prog.modify fun w => { w with out := out }
  | none => Prog.stop .undefined

/-- The body of the loop over the pieces. -/
def downloadPiece (sha1 : Bytes → Bytes) (tor : TorrentT) (peer : PeerConnection) (i : UInt32) :
    Prog Stop World Unit := do
  let w ← Prog.get
  if isDone w.piecesDone i then return ()
  else if !peerHasPiece peer i then return ()
  else if !pieceSizeDefined tor i then Prog.stop .undefined
  else
    let pieceLen := pieceSize tor i
    let buf ← xmalloc pieceLen.toNat
    let (pieceOk, buf) ← blockLoop i pieceLen (pieceLen.toNat + 1) 0 buf
    if pieceOk && verifyPiece sha1 tor i buf then
      handOver i buf pieceLen
      Prog.modify fun w => { w with
        piecesDone := markDone w.piecesDone i
        piecesLeft := w.piecesLeft - 1 }
    else return ()

/-- The loop over the pieces of the torrent. -/
def pieceLoop (sha1 : Bytes → Bytes) (tor : TorrentT) (peer : PeerConnection) :
    List UInt32 → Prog Stop World Unit
  | [] => loopHead
  | i :: indices => do
    loopHead
    let w ← Prog.get
    if 0 < w.piecesLeft then
      if ← onNet running then
        downloadPiece sha1 tor peer i
        pieceLoop sha1 tor peer indices
      else return ()
    else return ()

/-- The body of the loop over the peers. -/
def downloadFromPeer (sha1 : Bytes → Bytes) (tor : TorrentT) (myPeerId : Bytes) :
    Prog Stop World Unit := do
  match ← onNet tcpConnectTimeout with
  | none => return ()
  | some _ =>
    if ← onNet (peerHandshake tor myPeerId) then
      if ← onNet peerSendInterested then
        match ← onNet (peerWaitForUnchoke ⟨none, true⟩) with
        | none => return ()
        | some peer => pieceLoop sha1 tor peer (pieceIndices tor)
      else return ()
    else return ()

/-- The loop over the peers. -/
def peerLoop (sha1 : Bytes → Bytes) (tor : TorrentT) (myPeerId : Bytes) :
    List PeerT → Prog Stop World Unit
  | [] => loopHead
  | _ :: peers => do
    loopHead
    let w ← Prog.get
    if 0 < w.piecesLeft then
      if ← onNet running then
        downloadFromPeer sha1 tor myPeerId
        peerLoop sha1 tor myPeerId peers
      else return ()
    else return ()

/-- The output is closed: the archive is finished, the files need nothing. -/
def closeOutput : Prog Stop World Unit :=
  Prog.modify fun w =>
    match w.out with
    | .tar tw => { w with out := .tar (tarWriterClose tw) }
    | .storage _ => w

/-- `download_pieces`. -/
def downloadPieces (sha1 : Bytes → Bytes) (tor : TorrentT) (peers : List PeerT)
    (myPeerId : Bytes) : Prog Stop World Int := do
  Prog.modify fun w => { w with
    piecesDone := List.replicate ((tor.numPieces + 7) / 8).toNat 0
    piecesLeft := tor.numPieces.toInt32.toInt }
  peerLoop sha1 tor myPeerId peers
  closeOutput
  let w ← Prog.get
  return w.piecesLeft

/-! ## Runs -/

/-- What a run depends on apart from the torrent: when the shutdown flag is cleared, how
the connection attempts and the peers behave, and what memory holds. -/
structure Surroundings where
  flag : Option Nat
  answers : List (Option Remote)
  heap : Nat → Nat → UInt8

/-- The network before the first connection. -/
def Surroundings.net (env : Surroundings) : Net where
  flag := env.flag
  answers := env.answers
  attempts := 0
  conn := ⟨0, fun _ => 0, 0, [], []⟩
  trace := []

/-- The state in which `download_pieces` is called. -/
def Surroundings.start (env : Surroundings) (out : Output) : World where
  net := env.net
  heap := env.heap
  allocs := 0
  piecesDone := []
  piecesLeft := 0
  out := out
  log := []

/-- A run of `download_pieces`, up to where it returns or stops. -/
def run (sha1 : Bytes → Bytes) (tor : TorrentT) (peers : List PeerT) (myPeerId : Bytes)
    (env : Surroundings) (out : Output) : Except Stop Int × World :=
  downloadPieces sha1 tor peers myPeerId (env.start out)

/-! ## Small torrents -/

/-- A torrent of one file with the given bytes, each of them a piece. -/
def byteTorrent (bytes : Bytes) : TorrentT where
  announce := none
  comment := none
  creationDate := 0
  createdBy := none
  infoHash := List.replicate 20 1
  name := some (ascii "a")
  pieceLength := 1
  numPieces := UInt32.ofNat bytes.length
  pieces := bytes.flatMap fun b => Sha1.sha1 [b]
  files := [⟨[ascii "a"], UInt64.ofNat bytes.length⟩]
  totalLength := UInt64.ofNat bytes.length

/-- The message that answers the request for byte `i` of it. -/
def byteMessage (i : UInt32) (b : UInt8) : Bytes := htonl 10 ++ [7] ++ htonl i ++ htonl 0 ++ [b]

/-- A peer that answers the handshake, sends the given bytes after it, and takes
everything. -/
def scriptedPeer (tor : TorrentT) (bytes : Bytes) (recvs : List RecvStep) : Remote where
  stream k := (handshakeBytes tor [] ++ List.replicate 20 0 ++ bytes).getD k 0
  recvs := recvs
  sends := List.replicate 10 (.accepted 100)

/-- The message that allows requests. -/
def unchokeMessage : Bytes := htonl 1 ++ [1]

/-- A run for such a torrent with the archive on standard output, one peer for each
outcome of a connection attempt. -/
def byteRun (bytes : Bytes) (answers : List (Option Remote)) : Except Stop Int × World :=
  run Sha1.sha1 (byteTorrent bytes) (answers.map fun _ => ⟨0, 0⟩) [] ⟨none, answers, fun _ _ => 0⟩
    (.tar (tarWriterOpen ⟨[], []⟩ [] (byteTorrent bytes)))

/-- A peer that serves a torrent of one byte. -/
def oneBytePeer : Remote :=
  scriptedPeer (byteTorrent [7]) (unchokeMessage ++ byteMessage 0 7) (List.replicate 5 (.data 99))

example : (byteRun [7] [none, some oneBytePeer]).1 = .ok 0 := by decide +kernel

end CourseWork.Torrent
