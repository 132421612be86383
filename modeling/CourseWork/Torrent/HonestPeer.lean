import CourseWork.Torrent.Coverage
import CourseWork.Torrent.Flow

/-!
# One honest peer is enough

Whatever the peers before it did, as long as no signal has cleared `running` (a send to a broken
pipe raises one), a peer that answers the handshake, opens the connection and sends every block
it is asked for completes the download: `download_pieces` returns 0. How the network cuts what
it sends, and what it sends in between, does not matter.
-/

namespace CourseWork.Torrent
open CLib Prog

/-! ## What an honest peer sends -/

/-- The answers to the requests for the blocks of piece `i` from an offset on, each behind
messages that the client skips, and how many requests there are. -/
inductive Serves (i pieceLen : UInt32) (piece : Bytes) : UInt32 → Bytes → Nat → Prop
  | done {offset : UInt32} : ¬offset < pieceLen → Serves i pieceLen piece offset [] 0
  | block {offset : UInt32} {noise : List Bytes} {rest : Bytes} {requests : Nat} :
      offset < pieceLen →
      (∀ msg ∈ noise, msg.length < 2 ^ 32 ∧
        Skipped i offset (blockLen pieceLen offset).toNat msg) →
      Serves i pieceLen piece (offset + blockLen pieceLen offset) rest requests →
      Serves i pieceLen piece offset
        (frames noise ++ frame (pieceMessage i offset
          ((piece.drop offset.toNat).take (blockLen pieceLen offset).toNat)) ++ rest)
        (requests + 1)

/-- The answers for the pieces in this order, each with bytes of the right hash. -/
inductive ServesAll (sha1 : Bytes → Bytes) (tor : TorrentT) : List UInt32 → Bytes → Nat → Prop
  | nil : ServesAll sha1 tor [] [] 0
  | cons {i : UInt32} {indices : List UInt32} {piece bytes rest : Bytes} {k l : Nat} :
      piece.length = (pieceSize tor i).toNat → verifyPiece sha1 tor i piece = true →
      Serves i (pieceSize tor i) piece 0 bytes k → ServesAll sha1 tor indices rest l →
      ServesAll sha1 tor (i :: indices) (bytes ++ rest) (k + l)

/-- The pieces that are not marked, in the order in which they are asked for. -/
def missing (tor : TorrentT) (piecesDone : Bytes) : List UInt32 :=
  (pieceIndices tor).filter fun i => !isDone piecesDone i

/-- A peer that sends a handshake for the torrent, messages that leave the connection
choked, an unchoke, and then the answers for the pieces in `wanted`, all of which it has by
what it said before. It takes everything that it is sent. -/
structure Honest (sha1 : Bytes → Bytes) (tor : TorrentT) (myPeerId : Bytes)
    (wanted : List UInt32) (remote : Remote) (handshake : Bytes) (greeting : List Bytes)
    (blocks : Bytes) (requests : Nat) : Prop where
  length_handshake : handshake.length = 68
  protocol : handshake.take 20 = btProtocol
  infoHash : (handshake.drop 28).take 20 = tor.infoHash.take 20
  messages : ∀ msg ∈ greeting, msg.length < 2 ^ 32 ∧ (readAs msg).1 ≠ 1
  has : ∀ i ∈ wanted, peerHasPiece (greeting.foldl hear ⟨none, true⟩) i = true
  serves : ServesAll sha1 tor wanted blocks requests
  shows : Shows remote.stream 0 (handshake ++ (frames greeting ++ frame [1] ++ blocks))
  recvs : Delivers (handshake ++ (frames greeting ++ frame [1] ++ blocks)).length remote.recvs
  sends : Takes ((handshakeBytes tor myPeerId).length + (5 + 17 * requests)) remote.sends

/-- Every write of a piece to this output is defined. -/
def Output.Writable (tor : TorrentT) : Output → Prop
  | .storage _ => True
  | .tar tw => tw.tor = tor ∧ ∀ f ∈ tor.files, (joinPath f.path).length < pathLen

/-! ## Writing -/

section Writing

variable {tor : TorrentT}

theorem writeFilePart_isSome {pieceStart pieceEnd fileStart : UInt64} {data : Bytes} {i : Nat}
    {f : FileT} (hpath : (joinPath f.path).length < pathLen) (tw : TarWriter) :
    ∃ tw', writeFilePart pieceStart pieceEnd data i f fileStart tw = some tw' := by
  rw [writeFilePart_overlap]
  split
  · have henter : ∃ tw1, enterFile tw i f = some tw1 := by
      unfold enterFile
      split
      · exact ⟨_, rfl⟩
      · exact ⟨_, rfl⟩
    obtain ⟨tw1, henter⟩ := henter
    rw [henter]
    exact ⟨_, rfl⟩
  · exact ⟨_, rfl⟩

theorem writeFileParts_isSome {pieceStart pieceEnd : UInt64} {data : Bytes} :
    ∀ {files : List FileT} {i : Nat} {fileStart : UInt64} (tw : TarWriter),
      (∀ f ∈ files, (joinPath f.path).length < pathLen) →
      ∃ tw', writeFileParts pieceStart pieceEnd data i fileStart files tw = some tw'
  | [], _, _, tw, _ => ⟨tw, rfl⟩
  | f :: files, i, fileStart, tw, h => by
    obtain ⟨hf, hfiles⟩ := List.forall_mem_cons.mp h
    obtain ⟨tw1, hfirst⟩ : ∃ tw1, writeFilePart pieceStart pieceEnd data i f fileStart tw =
        some tw1 := writeFilePart_isSome hf tw
    obtain ⟨tw', hrest⟩ : ∃ tw', writeFileParts pieceStart pieceEnd data (i + 1)
        (fileStart + f.length) files tw1 = some tw' := writeFileParts_isSome tw1 hfiles
    refine ⟨tw', ?_⟩
    rw [writeFileParts, hfirst]
    exact hrest

theorem Output.Writable.write {out : Output} (h : out.Writable tor) (i : UInt32) (buf : Bytes)
    (pieceLen : UInt32) : ∃ out', out.write i buf pieceLen = some out' ∧ out'.Writable tor := by
  cases out with
  | storage st => exact ⟨_, rfl, trivial⟩
  | tar tw =>
    obtain ⟨htor, hpaths⟩ := h
    obtain ⟨tw', hwrite⟩ : ∃ tw', writeFileParts (i.toUInt64 * tw.tor.pieceLength.toUInt64)
        (i.toUInt64 * tw.tor.pieceLength.toUInt64 + pieceLen.toUInt64) buf 0 0 tw.tor.files tw =
          some tw' := writeFileParts_isSome tw (htor.symm ▸ hpaths)
    exact ⟨.tar tw', by rw [Output.write, tarWriterWrite, hwrite]; rfl,
      (writeFileParts_tor hwrite).trans htor, hpaths⟩

end Writing

/-! ## One piece -/

section Piece

variable {stream : Nat → UInt8} {m n : Nat}

/-- What a total triple says of a step on the network. -/
theorem onNet_total {α : Type} {p : Prog Stop Net α} {P : Net → Prop} {Q : α → Net → Prop}
    (h : Triple P p Q (fun _ => False)) {w : World} (hw : P w.net) :
    ∃ a net, onNet p w = (.ok a, { w with net := net }) ∧ Q a net := by
  have hrun := h w.net hw
  unfold onNet Prog.zoom
  generalize p w.net = r at hrun ⊢
  obtain ⟨result, net⟩ := r
  cases result with
  | ok a => exact ⟨a, net, rfl, hrun⟩
  | error e => exact hrun.elim

/-- Every block of a piece that is served succeeds, and the blocks are the piece. -/
theorem Serves.allSucceed {i pieceLen offset : UInt32} {piece bytes : Bytes} {requests : Nat}
    (h : Serves i pieceLen piece offset bytes requests) (hlength : piece.length = pieceLen.toNat) :
    ∀ {pos : Nat} {w : World}, Shows stream pos bytes →
      Flowing stream pos (bytes.length + m) (17 * requests + n) w.net →
      ∃ blocks net, AllSucceed i pieceLen offset w blocks { w with net := net } ∧
        blockBytes blocks = piece.drop offset.toNat ∧
        Flowing stream (pos + bytes.length) m n net := by
  induction h with
  | @done offset hend =>
    intro pos w _ hflow
    refine ⟨[], w.net, .done hend, ?_, by simpa using hflow⟩
    have hle := UInt32.le_iff_toNat_le.mp (UInt32.not_lt.mp hend)
    exact (List.drop_of_length_le (by omega)).symm
  | @block offset noise rest requests hlt hnoise _ ih =>
    intro pos w hshows hflow
    obtain ⟨hpos, hsize, hstop⟩ := blockLen_bounds hlt
    have hnext := toNat_next hlt
    have hblock : ((piece.drop offset.toNat).take (blockLen pieceLen offset).toNat).length =
        (blockLen pieceLen offset).toNat := by
      rw [List.length_take, List.length_drop]
      omega
    generalize hbytes : (piece.drop offset.toNat).take (blockLen pieceLen offset).toNat = block
      at hblock hshows hflow ⊢
    generalize hanswer : frames noise ++ frame (pieceMessage i offset block) = answer
      at hshows hflow ⊢
    -- The flag is read, the request goes out, and the block comes in.
    obtain ⟨b, net1, hrunning, rfl, hflow1⟩ := onNet_total running_flowing hflow
    have hrequest : (requestBytes i offset (blockLen pieceLen offset)).length = 17 := rfl
    obtain ⟨ok, net2, hsend, rfl, hflow2⟩ := onNet_total
      (w := { w with net := net1 }) (p := peerSendRequest i offset (blockLen pieceLen offset))
      (sendFullTimeout_flowing (m := answer.length + (rest.length + m))
        (n := 17 * requests + n)) (by
          rw [List.length_append] at hflow1
          rw [hrequest]
          convert hflow1 using 1 <;> omega)
    have hnoise' : ∀ msg ∈ noise, msg.length < 2 ^ 32 ∧ Skipped i offset block.length msg :=
      hblock.symm ▸ hnoise
    have hreceived := peerReceiveBlock_flowing (m := rest.length + m) (n := 17 * requests + n)
      (by omega) hnoise' (hanswer ▸ hshows.front)
    rw [hanswer, hblock] at hreceived
    obtain ⟨r, net3, hreceive, rfl, hflow3⟩ :=
      onNet_total (w := { w with net := net2 }) hreceived hflow2
    obtain ⟨blocks, net', hall, hrest, hflow'⟩ := ih (w := { w with net := net3 }) hshows.rest hflow3
    refine ⟨_, net', .block hlt hrunning hsend hreceive hall, ?_, ?_⟩
    · rw [blockBytes, List.flatMap_cons, ← blockBytes, hrest, ← hbytes, hnext, ← List.drop_drop,
        List.take_append_drop]
    · rw [List.length_append, ← Nat.add_assoc]
      exact hflow'

/-- A missing piece that is served is handed over and marked. -/
theorem downloadPiece_served {sha1 : Bytes → Bytes} {tor : TorrentT} {peer : PeerConnection}
    {i : UInt32} {piece bytes : Bytes} {requests pos : Nat} {w : World}
    (htor : Downloadable tor) (hserves : Serves i (pieceSize tor i) piece 0 bytes requests)
    (hlength : piece.length = (pieceSize tor i).toNat)
    (hverify : verifyPiece sha1 tor i piece = true) (hnew : isDone w.piecesDone i = false)
    (hpeer : peerHasPiece peer i = true) (hout : w.out.Writable tor)
    (hshows : Shows stream pos bytes)
    (hflow : Flowing stream pos (bytes.length + m) (17 * requests + n) w.net) :
    ∃ net out, downloadPiece sha1 tor peer i w = (.ok (), { w with
        net := net
        allocs := w.allocs + 1
        log := .handed i piece :: w.log
        out := out
        piecesDone := markDone w.piecesDone i
        piecesLeft := w.piecesLeft - 1 }) ∧
      out.Writable tor ∧ Flowing stream (pos + bytes.length) m n net := by
  obtain ⟨blocks, net, hall, hbytes, hflow'⟩ := hserves.allSucceed hlength
    (w := { w with allocs := w.allocs + 1 }) hshows hflow
  have hpiece : blockBytes blocks = piece := hbytes
  obtain ⟨out, hwrite, hout'⟩ := hout.write i piece (pieceSize tor i)
  refine ⟨net, out, ?_, hout', hflow'⟩
  rw [hall.downloadPiece hnew hpeer (pieceSizeDefined_of_pos htor.pieceLength_pos i), hpiece,
    checkPiece, Bool.true_and, if_pos hverify]
  have hhand : handOver i piece (pieceSize tor i) { w with net := net, allocs := w.allocs + 1 } =
      (.ok (), { w with
        net := net
        allocs := w.allocs + 1
        log := .handed i piece :: w.log
        out := out }) := by
    have hlog : (Prog.modify fun w : World => { w with log := .handed i piece :: w.log } :
        Prog Stop World Unit) { w with net := net, allocs := w.allocs + 1 } = (.ok (), { w with
          net := net
          allocs := w.allocs + 1
          log := .handed i piece :: w.log }) := rfl
    have hget : ∀ w : World, (Prog.get : Prog Stop World World) w = (.ok w, w) := fun _ => rfl
    rw [handOver, bind_ok hlog, bind_ok (hget _)]
    dsimp only
    rw [hwrite]
    rfl
  rw [bind_ok hhand]
  rfl

end Piece

/-! ## The loop over the pieces -/

/-- The loop over the pieces has `indices` to go: everything else is marked, the peer has
what is missing of them, and the connection shows the answers for it. -/
structure Served (sha1 : Bytes → Bytes) (tor : TorrentT) (peer : PeerConnection)
    (stream : Nat → UInt8) (indices : List UInt32) (pos : Nat) (bytes : Bytes) (requests : Nat)
    (w : World) : Prop where
  counted : Counted sha1 tor w
  out : w.out.Writable tor
  marked : ∀ i, i < tor.numPieces → i ∉ indices → isDone w.piecesDone i = true
  has : ∀ i ∈ indices, isDone w.piecesDone i = false → peerHasPiece peer i = true
  serves : ServesAll sha1 tor (indices.filter fun i => !isDone w.piecesDone i) bytes requests
  shows : Shows stream pos bytes
  flow : Flowing stream pos bytes.length (17 * requests) w.net

section Loop

variable {sha1 : Bytes → Bytes} {tor : TorrentT} {peer : PeerConnection}
  {stream : Nat → UInt8} {pos requests : Nat} {bytes : Bytes} {w : World}

/-- With every piece marked the counter is 0. -/
theorem Counted.left_eq_zero (h : Counted sha1 tor w)
    (hall : ∀ i, i < tor.numPieces → isDone w.piecesDone i = true) : w.piecesLeft = 0 := by
  refine h.left_eq_zero_iff.mpr fun i hi => ?_
  rw [h.log.nodup.count, if_pos ((h.done i hi).mp (hall i hi))]

theorem Counted.left_nonneg (h : Counted sha1 tor w) : 0 ≤ w.piecesLeft := by
  have hle := Bitmap.length_marked_le w.piecesDone tor.numPieces.toNat
  rw [h.left, unmarked]
  omega

/-- A loop head is passed. -/
theorem Served.head {indices : List UInt32}
    (h : Served sha1 tor peer stream indices pos bytes requests w) :
    Served sha1 tor peer stream indices pos bytes requests
      { w with log := .head w.piecesDone w.piecesLeft :: w.log } :=
  ⟨loopHead_counted w h.counted, h.out, h.marked, h.has, h.serves, h.shows, h.flow⟩

/-- One round of the loop. -/
theorem Served.round (htor : Downloadable tor) {i : UInt32} {indices : List UInt32}
    (h : Served sha1 tor peer stream (i :: indices) pos bytes requests w) (hi : i ∉ indices) :
    ∃ pos bytes requests w', downloadPiece sha1 tor peer i w = (.ok (), w') ∧
      Served sha1 tor peer stream indices pos bytes requests w' := by
  have hserves := h.serves
  by_cases hdone : isDone w.piecesDone i = true
  · -- The piece is marked already.
    refine ⟨pos, bytes, requests, w, ?_, h.counted, h.out, fun j hj hmem => ?_,
      fun j hj => h.has j (List.mem_cons_of_mem i hj), ?_, h.shows, h.flow⟩
    · show (if isDone w.piecesDone i = true then pure () else _ : Prog Stop World Unit) w = _
      rw [if_pos hdone]
      rfl
    · by_cases hji : j = i
      · rw [hji, hdone]
      · exact h.marked j hj (List.not_mem_cons_of_ne_of_not_mem hji hmem)
    · rwa [List.filter_cons_of_neg (by rw [hdone]; decide)] at hserves
  · have hnew : isDone w.piecesDone i = false := Bool.not_eq_true _ ▸ hdone
    rw [List.filter_cons_of_pos (by rw [hnew]; rfl)] at hserves
    generalize hwanted : i :: indices.filter _ = wanted at hserves
    cases hserves with
    | nil => cases hwanted
    | @cons i' wanted piece bytes rest k l hlength hverify hpiece hrest =>
      obtain ⟨rfl, rfl⟩ := List.cons.inj hwanted
      have hflow := h.flow
      rw [List.length_append, Nat.mul_add] at hflow
      obtain ⟨net, out, hrun, hout, hflow'⟩ := downloadPiece_served htor hpiece hlength hverify hnew
        (h.has i List.mem_cons_self hnew) h.out h.shows.front hflow
      have hround : Triple (Counted sha1 tor) (downloadPiece sha1 tor peer i)
          (fun _ => Counted sha1 tor) (fun w => LogOk sha1 tor w.log) := downloadPiece_counted htor
      have hcounted := hround w h.counted
      rw [hrun] at hcounted
      have hi' := lt_numPieces_of_verifyPiece hverify
      have hself : isDone (markDone w.piecesDone i) i = true := by
        have hlt := UInt32.lt_iff_toNat_lt.mp hi'
        exact Bitmap.test_mark_self (by rw [h.counted.length]; omega)
      have hother : ∀ {j}, j ≠ i → isDone (markDone w.piecesDone i) j = isDone w.piecesDone j :=
        fun hji => Bitmap.test_mark_ne fun heq => hji (UInt32.toNat_inj.mp heq.symm)
      have hne : ∀ {j}, j ∈ indices → j ≠ i := fun hj heq => hi (heq ▸ hj)
      refine ⟨_, rest, l, _, hrun, hcounted, hout, fun j hj hmem => ?_, fun j hj hj' => ?_, ?_,
        h.shows.rest, hflow'⟩
      · by_cases hji : j = i
        · rw [hji]
          exact hself
        · show isDone (markDone w.piecesDone i) j = true
          rw [hother hji]
          exact h.marked j hj (List.not_mem_cons_of_ne_of_not_mem hji hmem)
      · refine h.has j (List.mem_cons_of_mem i hj) ?_
        rw [← hother (hne hj)]
        exact hj'
      · have hfilter : indices.filter (fun j => !isDone (markDone w.piecesDone i) j) =
            indices.filter fun j => !isDone w.piecesDone j :=
          List.filter_congr fun j hj => by rw [hother (hne hj)]
        show ServesAll sha1 tor (indices.filter fun j => !isDone (markDone w.piecesDone i) j) _ _
        rw [hfilter]
        exact hrest

/-- The loop over the pieces ends with nothing left. -/
theorem Served.pieceLoop (htor : Downloadable tor) : ∀ {indices : List UInt32} {pos requests : Nat}
    {bytes : Bytes} {w : World}, indices.Nodup →
    Served sha1 tor peer stream indices pos bytes requests w →
    ∃ w', pieceLoop sha1 tor peer indices w = (.ok (), w') ∧ w'.piecesLeft = 0
  | [], _, _, _, w, _, h => ⟨_, rfl, h.counted.left_eq_zero fun i hi =>
      h.marked i hi List.not_mem_nil⟩
  | i :: indices, _, _, _, w, hnodup, h => by
    obtain ⟨hi, hnodup⟩ := List.nodup_cons.mp hnodup
    have hhead : loopHead w =
      (.ok (), { w with log := .head w.piecesDone w.piecesLeft :: w.log }) := rfl
    rw [Torrent.pieceLoop, bind_ok hhead]
    have h' := h.head
    generalize { w with log := .head w.piecesDone w.piecesLeft :: w.log } = w1 at h'
    have hget : (Prog.get : Prog Stop World World) w1 = (.ok w1, w1) := rfl
    rw [bind_ok hget]
    by_cases hleft : 0 < w1.piecesLeft
    · rw [if_pos hleft]
      obtain ⟨b, net, hrunning, rfl, hflow⟩ := onNet_total running_flowing h'.flow
      rw [bind_ok hrunning, if_pos rfl]
      have h2 : Served sha1 tor peer stream (i :: indices) _ _ _ { w1 with net := net } :=
        ⟨counted_net w1 net h'.counted, h'.out, h'.marked, h'.has, h'.serves, h'.shows, hflow⟩
      obtain ⟨_, _, _, w2, hround, hnext⟩ := h2.round htor hi
      rw [bind_ok hround]
      exact hnext.pieceLoop htor hnodup
    · rw [if_neg hleft]
      exact ⟨w1, rfl, Int.le_antisymm (Int.not_lt.mp hleft) h'.counted.left_nonneg⟩

end Loop

/-! ## The connection -/

section Connection

variable {sha1 : Bytes → Bytes} {tor : TorrentT} {myPeerId : Bytes} {remote : Remote}
  {handshake blocks : Bytes} {greeting : List Bytes} {requests : Nat} {w : World}

theorem peerHandshake_flowing {stream : Nat → UInt8} {pos m n : Nat}
    (hlength : handshake.length = 68) (hprotocol : handshake.take 20 = btProtocol)
    (hhash : (handshake.drop 28).take 20 = tor.infoHash.take 20)
    (hshows : Shows stream pos handshake) :
    Triple (Flowing stream pos (handshake.length + m) ((handshakeBytes tor myPeerId).length + n))
      (peerHandshake tor myPeerId)
      (fun ok s => ok = true ∧ Flowing stream (pos + handshake.length) m n s)
      (fun _ => False) := by
  refine Triple.bind sendFullTimeout_flowing fun ok => Triple.assume fun hok => ?_
  subst hok
  refine Triple.ite (fun _ => ?_) fun h => absurd rfl h
  rw [Shows, hlength] at hshows
  rw [hlength]
  refine Triple.bind recvFullTimeout_flowing fun r => Triple.assume fun hr => ?_
  subst hr
  refine Triple.pure fun s hs => ⟨?_, hs⟩
  rw [hshows, hprotocol, hhash, beq_self_eq_true, beq_self_eq_true]
  rfl

/-- The network after a connection is made. -/
def Net.connect (s : Net) (remote : Remote) : Net :=
  { s with
    attempts := s.attempts + 1
    conn := ⟨s.attempts, remote.stream, 0, remote.recvs, remote.sends⟩
    trace := .connected s.attempts :: s.trace }

theorem tcpConnectTimeout_answered {s : Net} (h : s.answers[s.attempts]? = some (some remote)) :
    tcpConnectTimeout s = (.ok (some s.attempts), s.connect remote) := by
  have hget : (Prog.get : Prog Stop Net Net) s = (.ok s, s) := rfl
  rw [tcpConnectTimeout, bind_ok hget, h]
  rfl

theorem pieceIndices_nodup (tor : TorrentT) : (pieceIndices tor).Nodup := by
  refine List.Nodup.map_on (fun a ha b hb heq => ?_) List.nodup_range
  rw [← (pieceIndex_lt (List.mem_range.mp ha)).1, heq, (pieceIndex_lt (List.mem_range.mp hb)).1]

/-- An honest peer that is reached brings everything that is missing. -/
theorem Honest.downloadFromPeer (htor : Downloadable tor)
    (h : Honest sha1 tor myPeerId (missing tor w.piecesDone) remote handshake greeting blocks
      requests) (hcounted : Counted sha1 tor w) (hout : w.out.Writable tor)
    (hflag : w.net.flag = none)
    (hanswer : w.net.answers[w.net.attempts]? = some (some remote)) :
    ∃ w', Torrent.downloadFromPeer sha1 tor myPeerId w = (.ok (), w') ∧ w'.piecesLeft = 0 := by
  have hconnect : onNet tcpConnectTimeout w =
      (.ok (some w.net.attempts), { w with net := w.net.connect remote }) := by
    unfold onNet Prog.zoom
    rw [tcpConnectTimeout_answered hanswer]
  have hflow0 : Flowing remote.stream 0
      (handshake ++ (frames greeting ++ frame [1] ++ blocks)).length
      ((handshakeBytes tor myPeerId).length + (5 + 17 * requests)) (w.net.connect remote) :=
    ⟨hflag, rfl, rfl, h.recvs, h.sends⟩
  rw [Torrent.downloadFromPeer, bind_ok hconnect]
  -- The handshake, the interested message and the wait for the unchoke succeed.
  rw [List.length_append] at hflow0
  have hshows := h.shows
  obtain ⟨ok, net1, hshake, rfl, hflow1⟩ := onNet_total (w := { w with net := w.net.connect remote })
    (p := peerHandshake tor myPeerId) (peerHandshake_flowing h.length_handshake h.protocol
      h.infoHash hshows.front) hflow0
  dsimp only
  rw [bind_ok hshake, if_pos rfl]
  obtain ⟨ok, net2, hinterested, rfl, hflow2⟩ := onNet_total (w := { w with net := net1 })
    (p := peerSendInterested) (sendFullTimeout_flowing (n := 17 * requests)) hflow1
  rw [bind_ok hinterested, if_pos rfl]
  rw [List.length_append] at hflow2
  obtain ⟨r, net3, hunchoke, rfl, hflow3⟩ := onNet_total (w := { w with net := net2 })
    (peerWaitForUnchoke_flowing h.messages hshows.rest.front) hflow2
  rw [bind_ok hunchoke]
  have hserved : Served sha1 tor { greeting.foldl hear ⟨none, true⟩ with choked := false }
      remote.stream (pieceIndices tor)
      (0 + handshake.length + (frames greeting ++ frame [1]).length) blocks requests
      { w with net := net3 } := by
    refine ⟨counted_net w net3 hcounted, hout, fun i hi hmem => ?_, fun i hi hnew => ?_, h.serves,
      hshows.rest.rest, hflow3⟩
    · exact absurd (mem_pieceIndices.mpr hi) hmem
    · exact h.has i (List.mem_filter.mpr ⟨hi, by
        rw [show isDone w.piecesDone i = false from hnew]; rfl⟩)
  exact hserved.pieceLoop htor (pieceIndices_nodup tor)

end Connection

/-! ## The run -/

section Run

variable {sha1 : Bytes → Bytes} {tor : TorrentT} {myPeerId : Bytes}

theorem peerLoop_writable (peers : List PeerT) :
    Triple (fun w => w.out.Writable tor) (peerLoop sha1 tor myPeerId peers)
      (fun _ w => w.out.Writable tor) (fun _ => True) := by
  refine allPeers_keep (fun _ _ h => h) (fun _ _ => trivial) (Triple.modify fun _ h => h)
    fun peer i => ?_
  refine downloadPiece_keeps (fun _ _ h => h) (fun _ h => h) (fun _ _ => trivial)
    fun w buf h _ _ _ => ⟨fun _ => trivial, fun out hwrite => ?_⟩
  obtain ⟨out', hwrite', hout⟩ := h.write i buf (pieceSize tor i)
  exact Option.some.inj (hwrite.symm.trans hwrite') ▸ hout

/-- A read of `running` on the way: it is only unset when it was cleared. -/
theorem onNet_running (w : World) : ∃ b net, onNet running w = (.ok b, { w with net := net }) ∧
    (b = false → net.flag = some 0) := by
  unfold onNet Prog.zoom running
  cases hflag : w.net.flag with
  | none => exact ⟨true, w.net, rfl, nofun⟩
  | some k =>
    cases k with
    | zero => exact ⟨false, w.net, rfl, fun _ => hflag⟩
    | succ k => exact ⟨true, { w.net with flag := some k }, rfl, nofun⟩

/-- The loop over more peers goes on where the one over the first of them ended, unless there
was nothing left. -/
theorem peerLoop_append (rest : List PeerT) : ∀ {first : List PeerT} {w w' : World},
    peerLoop sha1 tor myPeerId first w = (.ok (), w') → w'.net.flag = none →
    (w'.piecesLeft ≤ 0 ∧ peerLoop sha1 tor myPeerId (first ++ rest) w = (.ok (), w')) ∨
    ∃ w1, 0 < w1.piecesLeft ∧
      w' = { w1 with log := .head w1.piecesDone w1.piecesLeft :: w1.log } ∧
      peerLoop sha1 tor myPeerId (first ++ rest) w = peerLoop sha1 tor myPeerId rest w1
  | [], w, w', h, _ => by
    obtain ⟨-, rfl⟩ := Prod.mk.inj h
    by_cases hleft : 0 < w.piecesLeft
    · exact .inr ⟨w, hleft, rfl, rfl⟩
    · exact .inl ⟨Int.not_lt.mp hleft, peerLoop_idle sha1 tor myPeerId rest (Int.not_lt.mp hleft)⟩
  | p :: first, w, w', h, hflag => by
    have hhead : loopHead w =
      (.ok (), { w with log := .head w.piecesDone w.piecesLeft :: w.log }) := rfl
    rw [peerLoop, bind_ok hhead] at h
    rw [List.cons_append, peerLoop, bind_ok hhead]
    generalize { w with log := .head w.piecesDone w.piecesLeft :: w.log } = w1 at h ⊢
    have hget : (Prog.get : Prog Stop World World) w1 = (.ok w1, w1) := rfl
    rw [bind_ok hget] at h ⊢
    by_cases hleft : 0 < w1.piecesLeft
    · rw [if_pos hleft] at h ⊢
      obtain ⟨b, net, hrunning, hcleared⟩ := onNet_running w1
      rw [bind_ok hrunning] at h ⊢
      cases b with
      | false =>
        obtain ⟨-, rfl⟩ := Prod.mk.inj h
        have hboth := (hcleared rfl).symm.trans hflag
        cases hboth
      | true =>
        rw [if_pos rfl] at h ⊢
        generalize hbody : downloadFromPeer sha1 tor myPeerId { w1 with net := net } = r at h
        obtain ⟨result, w2⟩ := r
        cases result with
        | error e =>
          rw [bind_error hbody] at h
          cases h
        | ok _ =>
          rw [bind_ok hbody] at h ⊢
          exact peerLoop_append rest h hflag
    · rw [if_neg hleft] at h ⊢
      obtain ⟨-, rfl⟩ := Prod.mk.inj h
      exact .inl ⟨Int.not_lt.mp hleft, rfl⟩

theorem closeOutput_eq (w : World) : ∃ out, closeOutput w = (.ok (), { w with out := out }) := by
  obtain ⟨net, heap, allocs, piecesDone, piecesLeft, out, log⟩ := w
  cases out with
  | tar tw => exact ⟨.tar (tarWriterClose tw), rfl⟩
  | storage st => exact ⟨.storage st, rfl⟩

/-- A run by its loop over the peers. -/
theorem run_peerLoop {peers : List PeerT} {env : Surroundings} {out : Output} {w : World}
    (h : peerLoop sha1 tor myPeerId peers (loopStart tor (env.start out)) = (.ok (), w)) :
    ∃ out', run sha1 tor peers myPeerId env out = (.ok w.piecesLeft, { w with out := out' }) := by
  obtain ⟨out', hclose⟩ := closeOutput_eq w
  refine ⟨out', ?_⟩
  have hstart : (Prog.modify fun w => { w with
      piecesDone := List.replicate ((tor.numPieces + 7) / 8).toNat 0
      piecesLeft := tor.numPieces.toInt32.toInt } : Prog Stop World Unit) (env.start out) =
        (.ok (), loopStart tor (env.start out)) := rfl
  rw [run, downloadPieces, bind_ok hstart, bind_ok h, bind_ok hclose]
  rfl

theorem peerLoop_run {peers : List PeerT} {env : Surroundings} {out : Output} {left : Int}
    {w : World} (h : run sha1 tor peers myPeerId env out = (.ok left, w)) :
    ∃ w1 out', peerLoop sha1 tor myPeerId peers (loopStart tor (env.start out)) = (.ok (), w1) ∧
      w = { w1 with out := out' } := by
  generalize hloop : peerLoop sha1 tor myPeerId peers (loopStart tor (env.start out)) = r
  obtain ⟨result, w1⟩ := r
  cases result with
  | ok _ =>
    obtain ⟨out', hrun⟩ := run_peerLoop hloop
    exact ⟨w1, out', rfl, (Prod.mk.inj (h.symm.trans hrun)).2⟩
  | error e =>
    have hstart : (Prog.modify fun w => { w with
        piecesDone := List.replicate ((tor.numPieces + 7) / 8).toNat 0
        piecesLeft := tor.numPieces.toInt32.toInt } : Prog Stop World Unit) (env.start out) =
          (.ok (), loopStart tor (env.start out)) := rfl
    rw [run, downloadPieces, bind_ok hstart, bind_error hloop] at h
    cases h

/-- After the peers before it, whatever they did, the honest peer leaves no piece to go. -/
theorem run_honest (htor : Downloadable tor) (first later : List PeerT) (p : PeerT)
    (env : Surroundings) (out : Output) (hout : out.Writable tor) (left : Int) (w : World)
    (hfirst : run sha1 tor first myPeerId env out = (.ok left, w)) (hflag : w.net.flag = none)
    (remote : Remote) (hanswer : w.net.answers[w.net.attempts]? = some (some remote))
    (handshake : Bytes) (greeting : List Bytes) (blocks : Bytes) (requests : Nat)
    (hhonest : Honest sha1 tor myPeerId (missing tor w.piecesDone) remote handshake greeting
      blocks requests) :
    (run sha1 tor (first ++ p :: later) myPeerId env out).1 = .ok 0 := by
  obtain ⟨w1, out1, hloop, rfl⟩ := peerLoop_run hfirst
  -- The loop over the first peers has left everything as it has to be.
  have hcounted : Counted sha1 tor w1 := by
    have h := downloadPieces_counted sha1 htor first myPeerId (env.start out) rfl
    rw [show downloadPieces sha1 tor first myPeerId (env.start out) = _ from hfirst] at h
    exact ⟨h.2.log, h.2.length, h.2.left, h.2.done⟩
  have hwritable : w1.out.Writable tor := by
    have hwrites : Triple (fun w => w.out.Writable tor) (peerLoop sha1 tor myPeerId first)
      (fun _ w => w.out.Writable tor) (fun _ => True) := peerLoop_writable first
    have h := hwrites (loopStart tor (env.start out)) hout
    rwa [hloop] at h
  rcases peerLoop_append (p :: later) hloop hflag with
    ⟨hleft, hrun⟩ | ⟨w2, hleft, hw1, hrun⟩
  · obtain ⟨out', hrun⟩ := run_peerLoop hrun
    rw [hrun, Int.le_antisymm hleft hcounted.left_nonneg]
  · have hhead : loopHead w2 = (.ok (), w1) := by rw [hw1]; rfl
    have hget : (Prog.get : Prog Stop World World) w1 = (.ok w1, w1) := rfl
    have hrunning : onNet running w1 = (.ok true, w1) := by
      unfold onNet Prog.zoom running
      rw [hflag]
    obtain ⟨w3, hbody, hzero⟩ :=
      hhonest.downloadFromPeer (w := w1) htor hcounted hwritable hflag hanswer
    rw [peerLoop, bind_ok hhead, bind_ok hget, if_pos (by rw [hw1]; exact hleft), bind_ok hrunning,
      if_pos rfl, bind_ok hbody, peerLoop_idle sha1 tor myPeerId later (Int.le_of_eq hzero)] at hrun
    obtain ⟨out', hrun⟩ := run_peerLoop hrun
    rw [hrun]
    exact congrArg Except.ok hzero

/-- Whatever the first peers did, and whatever comes after it, an honest peer completes the
download: if the run over the first peers alone returns, the next connection attempt reaches
a peer that serves what is missing then, and no signal has come or is to come, `download_pieces`
returns 0 for all of the peers, and has handed over every piece once. -/
theorem honest_peer_completes (htor : Downloadable tor) (first later : List PeerT) (p : PeerT)
    (env : Surroundings) (out : Output) (hout : out.Writable tor) (left : Int) (w : World)
    (hfirst : run sha1 tor first myPeerId env out = (.ok left, w)) (hflag : w.net.flag = none)
    (remote : Remote) (hanswer : w.net.answers[w.net.attempts]? = some (some remote))
    (handshake : Bytes) (greeting : List Bytes) (blocks : Bytes) (requests : Nat)
    (hhonest : Honest sha1 tor myPeerId (missing tor w.piecesDone) remote handshake greeting
      blocks requests) :
    (run sha1 tor (first ++ p :: later) myPeerId env out).1 = .ok 0 ∧
      ∀ i, i < tor.numPieces →
        (handedIndices (run sha1 tor (first ++ p :: later) myPeerId env out).2.log).count i = 1 := by
  have hzero := run_honest htor first later p env out hout left w hfirst hflag remote hanswer
    handshake greeting blocks requests hhonest
  exact ⟨hzero, fun _ hi => run_handed_all htor hzero hi⟩

end Run

/-- What a peer of a torrent of one byte sends behind its handshake: a bitfield, an unchoke, and
the byte behind a keep-alive. -/
def bytePeerSends : Bytes :=
  frames [[5, 128]] ++ frame [1] ++ (frames [[]] ++ frame (pieceMessage 0 0 [7]) ++ [] ++ [])

/-- The handshake of the peer. -/
def bytePeerHandshake (tor : TorrentT) : Bytes := handshakeBytes tor [] ++ List.replicate 20 0

/-- The peer, on a network that delivers and takes single bytes. -/
def bytePeer (tor : TorrentT) : Remote where
  stream k := (bytePeerHandshake tor ++ bytePeerSends).getD k 0
  recvs := .interrupted :: List.replicate 200 (.data 0)
  sends := List.replicate 200 (.accepted 0)

theorem shows_getD (bytes : Bytes) : Shows (fun k => bytes.getD k 0) 0 bytes := by
  refine List.ext_getElem (length_slice _ _ _) fun k hk hk' => ?_
  simp only [slice, List.getElem_map, List.getElem_range, Nat.zero_add]
  exact List.getD_eq_getElem bytes 0 hk'

theorem honest_bytePeer {tor : TorrentT} {myPeerId : Bytes} (hhash : tor.infoHash.length = 20)
    (hsize : pieceSize tor 0 = 1) (hverify : verifyPiece Sha1.sha1 tor 0 [7] = true) :
    Honest Sha1.sha1 tor myPeerId [0] (bytePeer tor) (bytePeerHandshake tor) [[5, 128]]
      (frames [[]] ++ frame (pieceMessage 0 0 [7]) ++ [] ++ []) 1 := by
  have hprotocol : btProtocol.length = 20 := by decide
  have htake : tor.infoHash.take 20 = tor.infoHash := List.take_of_length_le (Nat.le_of_eq hhash)
  have hhandshake : bytePeerHandshake tor = btProtocol ++ (List.replicate 8 0 ++
      (tor.infoHash ++ List.replicate 20 0)) := by
    rw [bytePeerHandshake, handshakeBytes, htake, List.append_assoc, List.append_assoc,
      List.append_assoc]
    rfl
  have hlength : (bytePeerHandshake tor).length = 68 := by
    rw [hhandshake, List.length_append, List.length_append, List.length_append, hprotocol, hhash]
    rfl
  have hsent : (handshakeBytes tor myPeerId).length ≤ 68 := by
    simp only [handshakeBytes, List.length_append, List.length_take, List.length_replicate,
      hprotocol]
    omega
  have hrecvs : ∀ step ∈ (bytePeer tor).recvs, step = .interrupted ∨ step.delivers = true := by
    show ∀ step ∈ RecvStep.interrupted :: List.replicate 200 (RecvStep.data 0), _
    decide +kernel
  have hsends : ∀ step ∈ (bytePeer tor).sends, step = .interrupted ∨ step.takes = true := by
    show ∀ step ∈ List.replicate 200 (SendStep.accepted 0), _
    decide +kernel
  have hmessage : ([5, 128] : Bytes).length < 2 ^ 32 ∧ (readAs [5, 128]).1 ≠ 1 := by decide
  have hpeer : peerHasPiece ([[5, 128]].foldl hear ⟨none, true⟩) 0 = true := by decide
  refine ⟨hlength, ?_, ?_, List.forall_mem_singleton.mpr hmessage,
    List.forall_mem_singleton.mpr hpeer, ?_, shows_getD _, ⟨hrecvs, ?_⟩, ⟨hsends, ?_⟩⟩
  · rw [hhandshake]
    exact List.take_left' hprotocol
  · rw [hhandshake, ← List.append_assoc, List.drop_left' (by rw [List.length_append, hprotocol]; rfl),
      List.take_left' hhash, htake]
  · have hpiece : Serves 0 (pieceSize tor 0) [7] 0 _ _ :=
      .block (hsize ▸ by decide) (fun msg (hmsg : msg ∈ [[]]) => by
        obtain rfl := List.mem_singleton.mp hmsg
        exact ⟨by decide, skipped_keepAlive⟩) (.done (by rw [hsize]; decide))
    have hblock : (([7] : Bytes).drop (0 : UInt32).toNat).take
        (blockLen (pieceSize tor 0) 0).toNat = [7] := by
      rw [hsize]
      decide +kernel
    rw [hblock] at hpiece
    exact .cons (by rw [hsize]; decide) hverify hpiece .nil
  · rw [List.length_append, hlength]
    show _ ≤ (RecvStep.interrupted :: List.replicate 200 (RecvStep.data 0)).countP RecvStep.delivers
    decide +kernel
  · refine Nat.le_trans (Nat.add_le_add_right hsent _) ?_
    show _ ≤ (List.replicate 200 (SendStep.accepted 0)).countP SendStep.takes
    decide +kernel

/-- The first connection attempt fails, the second one reaches this peer. -/
theorem honest_peer_completes_second :
    (run Sha1.sha1 (byteTorrent [7]) ([⟨0, 0⟩] ++ ⟨0, 0⟩ :: []) []
      ⟨none, [none, some (bytePeer (byteTorrent [7]))], fun _ _ => 0⟩
      (.tar (tarWriterOpen ⟨[], []⟩ [] (byteTorrent [7])))).1 = .ok 0 ∧
    ∀ i, i < (byteTorrent [7]).numPieces → (handedIndices (run Sha1.sha1 (byteTorrent [7])
      ([⟨0, 0⟩] ++ ⟨0, 0⟩ :: []) [] ⟨none, [none, some (bytePeer (byteTorrent [7]))], fun _ _ => 0⟩
      (.tar (tarWriterOpen ⟨[], []⟩ [] (byteTorrent [7])))).2.log).count i = 1 := by
  have hmissing : missing (byteTorrent [7]) (run Sha1.sha1 (byteTorrent [7]) [⟨0, 0⟩] []
      ⟨none, [none, some (bytePeer (byteTorrent [7]))], fun _ _ => 0⟩
      (.tar (tarWriterOpen ⟨[], []⟩ [] (byteTorrent [7])))).2.piecesDone = [0] := by
    decide +kernel
  exact honest_peer_completes ⟨by decide, by decide⟩ [⟨0, 0⟩] [] ⟨0, 0⟩ _ _ ⟨rfl, by decide⟩ 1 _
    (Prod.ext (by decide +kernel) rfl) (by decide +kernel) (bytePeer _) rfl _ _ _ _
    (hmissing ▸ honest_bytePeer rfl (by decide +kernel) (by decide +kernel))

end CourseWork.Torrent
