import CourseWork.Torrent.Download

/-!
# Rules for the download loop

Triples for the parts of `download_pieces`: what a step on the network cannot change, and
invariants of the loops from invariants of their bodies.
-/

namespace CourseWork.Torrent
open CLib Prog

variable {α : Type} {P E : World → Prop} {sha1 : Bytes → Bytes} {tor : TorrentT}

/-! ## Steps on the network -/

/-- A step on the network keeps what does not depend on it. -/
theorem onNet_keeps {p : Prog Stop Net α} {R : α → Prop}
    (hp : Triple (fun _ => True) p (fun a _ => R a) (fun _ => True))
    (hP : ∀ w net, P w → P { w with net := net }) (hE : ∀ w, P w → E w) :
    Triple P (onNet p) (fun a w => R a ∧ P w) E :=
  Triple.zoom fun w hw => (hp.pre fun _ _ => trivial).conseq (fun _ h => h)
    (fun _ net hR => ⟨hR, hP w net hw⟩) (fun net _ => hE _ (hP w net hw))

theorem onNet_keeps' {p : Prog Stop Net α} (hP : ∀ w net, P w → P { w with net := net })
    (hE : ∀ w, P w → E w) : Triple P (onNet p) (fun _ => P) E :=
  (onNet_keeps (Triple.of_true (fun _ _ => trivial) (fun _ => trivial)) hP hE).post
    fun (_ : α) _ (h : True ∧ _) => h.2

/-- What a step on the network does to the network. -/
theorem onNet_net {p : Prog Stop Net α} {I K : Net → Prop} {J : α → Net → Prop}
    (hp : Triple I p J K) :
    Triple (fun w => I w.net) (onNet p) (fun a w => J a w.net) (fun w => K w.net) :=
  Triple.zoom fun w hw => hp.pre fun net hnet => by rwa [hnet]

/-! ## Blocks -/

theorem receiveLoop_length {expectedIndex expectedBegin : UInt32} {length rounds : Nat} :
    Triple (fun _ => True) (receiveLoop expectedIndex expectedBegin length rounds)
      (fun r _ => ∀ block, r = some block → block.length = length) (fun _ => True) := by
  have hnone : Triple (fun _ : Net => True) (pure none : Prog Stop Net (Option Bytes))
      (fun r _ => ∀ block, r = some block → block.length = length) (fun _ => True) :=
    Triple.pure fun _ _ _ h => nomatch h
  induction rounds with
  | zero => exact Triple.stop fun _ _ => trivial
  | succ rounds ih =>
    rw [receiveLoop]
    refine Triple.bind (Triple.of_true (fun _ _ => trivial) (fun _ => trivial)) fun r => ?_
    cases r with
    | none => exact hnone
    | some msg =>
      obtain ⟨msgId, payload⟩ := msg
      refine Triple.ite (fun _ => ih) fun _ => Triple.ite (fun _ => ?_) fun _ => ?_
      · refine Triple.ite (fun _ => hnone) fun _ => Triple.ite (fun h => ?_) fun _ => ih
        refine Triple.pure fun _ _ block hblock => ?_
        rw [← Option.some.inj hblock, List.length_drop, h.2.2]
      · exact Triple.ite (fun _ => hnone) fun _ => ih

/-- The block that `peer_receive_block` returns has the length asked for. -/
theorem peerReceiveBlock_length {expectedIndex expectedBegin : UInt32} {length : Nat} :
    Triple (fun _ => True) (peerReceiveBlock expectedIndex expectedBegin length)
      (fun r _ => ∀ block, r = some block → block.length = length) (fun _ => True) :=
  Triple.bind (Triple.get fun _ h => h) fun _ => receiveLoop_length

theorem length_memcpy {buf block : Bytes} {offset : Nat}
    (h : offset + block.length ≤ buf.length) : (memcpy buf offset block).length = buf.length := by
  simp only [memcpy, List.length_append, List.length_take, List.length_drop]
  omega

/-- The loop over the blocks only acts on the network, and keeps the size of the buffer. -/
theorem blockLoop_keeps {i pieceLen : UInt32} (hP : ∀ w net, P w → P { w with net := net })
    (hE : ∀ w, P w → E w) {rounds : Nat} : ∀ {offset : UInt32} {buf : Bytes},
    buf.length = pieceLen.toNat →
    Triple P (blockLoop i pieceLen rounds offset buf)
      (fun r w => r.2.length = pieceLen.toNat ∧ P w) E := by
  induction rounds with
  | zero => exact fun _ => Triple.stop hE
  | succ rounds ih =>
    intro offset buf hbuf
    rw [blockLoop]
    refine Triple.ite (fun hlt => ?_) fun _ => Triple.pure fun w hw => ⟨hbuf, hw⟩
    refine Triple.bind (onNet_keeps' hP hE) fun b => ?_
    refine Triple.ite (fun _ => ?_) fun _ => Triple.pure fun w hw => ⟨hbuf, hw⟩
    dsimp only
    have hle : offset.toNat +
        (if pieceLen - offset > blockSize then blockSize else pieceLen - offset).toNat ≤
          pieceLen.toNat := by
      have hlt' := UInt32.lt_iff_toNat_lt.mp hlt
      have hsub : (pieceLen - offset).toNat = pieceLen.toNat - offset.toNat :=
        UInt32.toNat_sub_of_le _ _ (UInt32.le_iff_toNat_le.mpr (by omega))
      split
      · next h =>
        have := UInt32.lt_iff_toNat_lt.mp h
        omega
      · omega
    generalize (if pieceLen - offset > blockSize then blockSize
      else pieceLen - offset) = blockLen at hle ⊢
    refine Triple.bind (onNet_keeps' hP hE) fun sent => ?_
    refine Triple.ite (fun _ => ?_) fun _ => Triple.pure fun w hw => ⟨hbuf, hw⟩
    refine Triple.bind (onNet_keeps peerReceiveBlock_length hP hE) fun r => ?_
    refine Triple.assume fun hr => ?_
    cases r with
    | none => exact Triple.pure fun w hw => ⟨hbuf, hw⟩
    | some block =>
      have hblock := hr block rfl
      exact ih ((length_memcpy (by omega)).trans hbuf)

/-! ## Handing over -/

/-- Handing over a piece changes the log and the output. -/
theorem handOver_spec (i : UInt32) (buf : Bytes) (pieceLen : UInt32) (w : World) :
    Triple (· = w) (handOver i buf pieceLen)
      (fun _ w' => ∃ out, w.out.write i buf pieceLen = some out ∧
        w' = { w with log := .handed i buf :: w.log, out := out })
      (fun w' => w.out.write i buf pieceLen = none ∧
        w' = { w with log := .handed i buf :: w.log }) := by
  refine Triple.bind (Triple.modify (Q := fun _ w' =>
    w' = { w with log := .handed i buf :: w.log }) fun s hs => by rw [hs]) fun _ => ?_
  refine Triple.bind (Triple.get (Q := fun w1 w' => w1.out = w.out ∧
    w' = { w with log := .handed i buf :: w.log }) fun s hs => ⟨by rw [hs], hs⟩) fun w1 => ?_
  refine Triple.assume fun hout => ?_
  rw [hout]
  split
  · next out hwrite => exact Triple.modify fun s hs => ⟨out, hwrite, by rw [hs]⟩
  · next hwrite => exact Triple.stop fun _ hs => ⟨hwrite, hs⟩

theorem lt_numPieces_of_verifyPiece {i : UInt32} {buf : Bytes}
    (h : verifyPiece sha1 tor i buf = true) : i < tor.numPieces := by
  unfold verifyPiece at h
  split at h
  · exact nomatch h
  · next hlt => rwa [UInt32.not_le] at hlt

/-- An invariant that the network cannot change, of the body of the loop over the pieces:
the verified piece is handed over, and then it is marked. -/
theorem downloadPiece_keeps {peer : PeerConnection} {i : UInt32}
    (hP : ∀ w net, P w → P { w with net := net })
    (halloc : ∀ w, P w → P { w with allocs := w.allocs + 1 }) (hE : ∀ w, P w → E w)
    (hhand : ∀ w buf, P w → isDone w.piecesDone i = false →
      buf.length = (pieceSize tor i).toNat → verifyPiece sha1 tor i buf = true →
      (w.out.write i buf (pieceSize tor i) = none →
        E { w with log := .handed i buf :: w.log }) ∧
      ∀ out, w.out.write i buf (pieceSize tor i) = some out →
        P { w with
          log := .handed i buf :: w.log
          out := out
          piecesDone := markDone w.piecesDone i
          piecesLeft := w.piecesLeft - 1 }) :
    Triple P (downloadPiece sha1 tor peer i) (fun _ => P) E := by
  rw [downloadPiece]
  refine Triple.bind (Triple.get (Q := fun w s => w = s ∧ P s) fun _ h => ⟨rfl, h⟩) fun w => ?_
  refine Triple.ite (fun _ => Triple.pure fun _ h => h.2) fun hnew => ?_
  refine Triple.ite (fun _ => Triple.pure fun _ h => h.2) fun _ => ?_
  refine Triple.ite (fun _ => Triple.stop fun _ h => hE _ h.2) fun _ => ?_
  -- The piece is new until it is handed over.
  have hpre : ∀ s, (w = s ∧ P s) → P s ∧ isDone s.piecesDone i = false := by
    rintro s ⟨rfl, h⟩
    exact ⟨h, Bool.not_eq_true _ ▸ hnew⟩
  refine Triple.pre ?_ hpre
  refine Triple.bind (Q := fun buf s => buf.length = (pieceSize tor i).toNat ∧
    P s ∧ isDone s.piecesDone i = false) ?_ fun buf => Triple.assume fun hbuf => ?_
  · refine Triple.bind (Triple.get (Q := fun _ s => P s ∧ isDone s.piecesDone i = false)
      fun _ h => h) fun _ => ?_
    refine Triple.bind (Triple.modify (Q := fun _ s => P s ∧ isDone s.piecesDone i = false)
      fun s h => ⟨halloc s h.1, h.2⟩) fun _ => ?_
    exact Triple.pure fun s h => ⟨length_slice _ _ _, h⟩
  · refine Triple.bind (blockLoop_keeps (fun s net h => ⟨hP s net h.1, h.2⟩)
      (fun _ h => hE _ h.1) hbuf) fun r => ?_
    obtain ⟨pieceOk, buf'⟩ := r
    refine Triple.assume fun hlength => ?_
    refine Triple.ite (fun hok => ?_) fun _ => Triple.pure fun _ h => h.1
    refine Triple.of_eq fun w1 hw1 => ?_
    obtain ⟨hstop, hnext⟩ := hhand w1 buf' hw1.1 hw1.2 hlength (Bool.and_eq_true_iff.mp hok).2
    refine Triple.bind ((handOver_spec i buf' (pieceSize tor i) w1).conseq (fun _ h => h)
      (fun _ _ h => h) fun _ hw' => hw'.2 ▸ hstop hw'.1) fun _ => ?_
    refine Triple.modify fun w' hw' => ?_
    obtain ⟨out, hwrite, rfl⟩ := hw'
    exact hnext out hwrite

/-! ## Loops -/

/-- An invariant of the body of the loop over the pieces. -/
theorem pieceLoop_keeps {peer : PeerConnection} {indices : List UInt32}
    (hhead : Triple P loopHead (fun _ => P) E) (hrun : Triple P (onNet running) (fun _ => P) E)
    (hbody : ∀ i ∈ indices, Triple P (downloadPiece sha1 tor peer i) (fun _ => P) E) :
    Triple P (pieceLoop sha1 tor peer indices) (fun _ => P) E := by
  induction indices with
  | nil => exact hhead
  | cons i indices ih =>
    rw [pieceLoop]
    refine Triple.bind hhead fun _ => Triple.bind (Triple.get fun _ h => h) fun w => ?_
    refine Triple.ite (fun _ => ?_) fun _ => Triple.pure fun _ h => h
    refine Triple.bind hrun fun b => Triple.ite (fun _ => ?_) fun _ => Triple.pure fun _ h => h
    refine Triple.bind (hbody i List.mem_cons_self) fun _ => ?_
    exact ih fun j hj => hbody j (List.mem_cons_of_mem _ hj)

/-- An invariant of the body of the loop over the peers. -/
theorem peerLoop_keeps {myPeerId : Bytes} {peers : List PeerT}
    (hhead : Triple P loopHead (fun _ => P) E) (hrun : Triple P (onNet running) (fun _ => P) E)
    (hbody : Triple P (downloadFromPeer sha1 tor myPeerId) (fun _ => P) E) :
    Triple P (peerLoop sha1 tor myPeerId peers) (fun _ => P) E := by
  induction peers with
  | nil => exact hhead
  | cons p peers ih =>
    rw [peerLoop]
    refine Triple.bind hhead fun _ => Triple.bind (Triple.get fun _ h => h) fun w => ?_
    refine Triple.ite (fun _ => ?_) fun _ => Triple.pure fun _ h => h
    refine Triple.bind hrun fun b => Triple.ite (fun _ => ?_) fun _ => Triple.pure fun _ h => h
    exact Triple.bind hbody fun _ => ih

/-- An invariant that the network cannot change, of a connection from one of its pieces. -/
theorem downloadFromPeer_keeps {myPeerId : Bytes} (hP : ∀ w net, P w → P { w with net := net })
    (hE : ∀ w, P w → E w)
    (hpieces : ∀ peer, Triple P (pieceLoop sha1 tor peer (pieceIndices tor)) (fun _ => P) E) :
    Triple P (downloadFromPeer sha1 tor myPeerId) (fun _ => P) E := by
  rw [downloadFromPeer]
  refine Triple.bind (onNet_keeps' hP hE) fun sock => ?_
  cases sock with
  | none => exact Triple.pure fun _ h => h
  | some sock =>
    refine Triple.bind (onNet_keeps' hP hE) fun b => ?_
    refine Triple.ite (fun _ => ?_) fun _ => Triple.pure fun _ h => h
    refine Triple.bind (onNet_keeps' hP hE) fun b => ?_
    refine Triple.ite (fun _ => ?_) fun _ => Triple.pure fun _ h => h
    refine Triple.bind (onNet_keeps' hP hE) fun peer => ?_
    cases peer with
    | none => exact Triple.pure fun _ h => h
    | some peer => exact hpieces peer

/-- An invariant that the network cannot change, of the loop over the peers, from the body
of the loop over the pieces. -/
theorem allPeers_keep {myPeerId : Bytes} {peers : List PeerT}
    (hP : ∀ w net, P w → P { w with net := net }) (hE : ∀ w, P w → E w)
    (hhead : Triple P loopHead (fun _ => P) E)
    (hbody : ∀ peer i, Triple P (downloadPiece sha1 tor peer i) (fun _ => P) E) :
    Triple P (peerLoop sha1 tor myPeerId peers) (fun _ => P) E :=
  peerLoop_keeps hhead (onNet_keeps' hP hE) (downloadFromPeer_keeps hP hE fun peer =>
    pieceLoop_keeps hhead (onNet_keeps' hP hE) fun i _ => hbody peer i)

/-! ## The whole function -/

theorem closeOutput_keeps (hP : ∀ w out, P w → P { w with out := out }) :
    Triple P closeOutput (fun _ => P) E := by
  refine Triple.modify fun w h => ?_
  split
  · exact hP _ _ h
  · exact h

/-- `download_pieces` from its loop over the peers. -/
theorem downloadPieces_spec {myPeerId : Bytes} {peers : List PeerT} {I Q R : World → Prop}
    (hstart : ∀ w, I w → P { w with
      piecesDone := List.replicate ((tor.numPieces + 7) / 8).toNat 0
      piecesLeft := tor.numPieces.toInt32.toInt })
    (hloop : Triple P (peerLoop sha1 tor myPeerId peers) (fun _ => Q) E)
    (hclose : Triple Q closeOutput (fun _ => R) E) :
    Triple I (downloadPieces sha1 tor peers myPeerId)
      (fun left w => left = w.piecesLeft ∧ R w) E := by
  rw [downloadPieces]
  refine Triple.bind (Triple.modify (Q := fun _ => P) hstart) fun _ => ?_
  refine Triple.bind hloop fun _ => Triple.bind hclose fun _ => ?_
  exact Triple.bind (Triple.get (Q := fun w s => w = s ∧ R s) fun _ h => ⟨rfl, h⟩) fun w =>
    Triple.pure fun s h => ⟨by rw [h.1], h.2⟩

end CourseWork.Torrent
