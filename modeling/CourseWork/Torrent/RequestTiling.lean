import CourseWork.Torrent.HonestPeer

/-!
# The requests tile the piece

What the loop over the blocks of a piece asks for when every block succeeds, and what
`verify_piece` gets.
-/

namespace CourseWork.Torrent
open CLib Prog

/-- When every block succeeds, the requested blocks start at 0, follow one another without
a wrap, are of 1 to 16384 bytes, have nothing in common and cover the piece. The loop ends,
and `verify_piece` gets the received blocks, one after the other and each at its offset. The
bytes of a request spell its index, offset and length. -/
theorem requests_tile_piece (i pieceLen : UInt32) (w w' : World) (blocks : List Block)
    (h : AllSucceed i pieceLen 0 w blocks w') :
    (∀ b ∈ blocks.head?, b.offset = 0) ∧
    (blocks.IsChain fun a b => b.offset.toNat = a.stop) ∧
    (blocks.Pairwise fun a b => a.stop ≤ b.offset.toNat) ∧
    (∀ b ∈ blocks, 1 ≤ b.length.toNat ∧ b.length.toNat ≤ 16384 ∧
      (b.offset + b.length).toNat = b.offset.toNat + b.length.toNat) ∧
    (∀ x, x < pieceLen.toNat ↔ ∃ b ∈ blocks, b.offset.toNat ≤ x ∧ x < b.stop) ∧
    (blocks.map fun b => b.length.toNat).sum = pieceLen.toNat ∧
    (∀ buf : Bytes, buf.length = pieceLen.toNat →
      blockLoop i pieceLen (pieceLen.toNat + 1) 0 buf w =
        (.ok (true, blockBytes blocks), w')) ∧
    (∀ b ∈ blocks,
      ((blockBytes blocks).drop b.offset.toNat).take b.length.toNat = b.bytes) ∧
    (∀ (rounds : Nat) (buf : Bytes), pieceLen.toNat < rounds →
      blockLoop i pieceLen rounds 0 buf = blockLoop i pieceLen (pieceLen.toNat + 1) 0 buf) ∧
    (∀ (sha1 : Bytes → Bytes) (tor : TorrentT) (peer : PeerConnection) (before : World),
      pieceSizeDefined tor i = true → pieceSize tor i = pieceLen →
      isDone before.piecesDone i = false → peerHasPiece peer i = true →
      w = { before with allocs := before.allocs + 1 } →
      downloadPiece sha1 tor peer i before =
        checkPiece sha1 tor i pieceLen true (blockBytes blocks) w') ∧
    ∀ index begin length : UInt32, (requestBytes index begin length).length = 17 ∧
      ntohl (requestBytes index begin length) = 13 ∧
      (requestBytes index begin length).getD 4 0 = 6 ∧
      ntohl ((requestBytes index begin length).drop 5) = index ∧
      ntohl ((requestBytes index begin length).drop 9) = begin ∧
      ntohl ((requestBytes index begin length).drop 13) = length := by
  have htile := h.consecutive UInt32.zero_le
  refine ⟨htile.head, htile.chain, htile.pairwise, fun b hb => ?_, fun x => ⟨fun hx => ?_, ?_⟩, ?_,
    fun buf hbuf => ?_, htile.slice, fun rounds buf hrounds => ?_, ?_,
    fun index begin length => ?_⟩
  · obtain ⟨⟨hpos, hsize, _⟩, _, hstop⟩ := htile.bounds b hb
    have hlt := pieceLen.toNat_lt
    rw [Block.stop] at hstop
    refine ⟨hpos, hsize, ?_⟩
    rw [UInt32.toNat_add]
    exact Nat.mod_eq_of_lt (by omega)
  · exact htile.cover (Nat.zero_le x) hx
  · rintro ⟨b, hb, _, hx⟩
    exact Nat.lt_of_lt_of_le hx (htile.bounds b hb).2.2
  · have hsum := htile.sum
    rwa [UInt32.toNat_zero, Nat.zero_add] at hsum
  · rw [← hbuf] at htile
    rw [h.blockLoop buf (by omega), htile.place]
    rfl
  · obtain ⟨more, rfl⟩ := Nat.exists_eq_add_of_le (Nat.succ_le_of_lt hrounds)
    exact blockLoop_rounds (by omega) more
  · rintro sha1 tor peer before hdefined rfl hdone hpeer rfl
    exact h.downloadPiece hdone hpeer hdefined
  · exact ⟨rfl, ntohl_htonl 13 _, rfl, ntohl_htonl index _, ntohl_htonl begin _,
      ntohl_htonl length []⟩

/-- A piece that does not fit into one block. -/
def longPiece : Bytes := List.replicate 20000 7

/-- A connection on which these bytes arrive. -/
def servedWorld (bytes : Bytes) : World where
  net := {
    flag := none
    answers := []
    attempts := 1
    conn := ⟨0, fun k => bytes.getD k 0, 0, List.replicate bytes.length (.data 0),
      List.replicate 34 (.accepted 0)⟩
    trace := [] }
  heap := fun _ _ => 0
  allocs := 0
  piecesDone := []
  piecesLeft := 1
  out := .storage ⟨[], 0, 0, none⟩
  log := []

theorem flowing_servedWorld (bytes : Bytes) :
    Flowing (fun k => bytes.getD k 0) 0 (bytes.length + 0) (17 * 2 + 0) (servedWorld bytes).net where
  flag := rfl
  stream := rfl
  pos := rfl
  recvs := by
    refine ⟨fun step hstep => .inr ?_, ?_⟩
    · rw [List.eq_of_mem_replicate hstep]
      rfl
    · show bytes.length ≤ (List.replicate bytes.length (RecvStep.data 0)).countP RecvStep.delivers
      rw [List.countP_replicate]
      exact Nat.le_refl _
  sends := by
    refine ⟨fun step hstep => .inr ?_, ?_⟩
    · rw [List.eq_of_mem_replicate hstep]
      rfl
    · show 34 ≤ (List.replicate 34 (SendStep.accepted 0)).countP SendStep.takes
      rw [List.countP_replicate]
      exact Nat.le_refl _

/-- Two blocks, and a keep-alive in front of the second one. -/
theorem serves_longPiece : ∃ bytes, Serves 0 20000 longPiece 0 bytes 2 :=
  ⟨_, .block (by decide) (List.forall_mem_nil _)
    (.block (by decide) (show ∀ p ∈ [[]], _ from
      List.forall_mem_singleton.mpr ⟨by decide, skipped_keepAlive⟩) (.done (by decide)))⟩

/-- There is more than one request, and the two blocks are the piece. -/
theorem requests_tile_piece_long : ∃ w blocks w', AllSucceed 0 20000 0 w blocks w' ∧
    2 ≤ blocks.length ∧
    blockLoop 0 20000 20001 0 (List.replicate 20000 0) w = (.ok (true, longPiece), w') := by
  obtain ⟨bytes, hserves⟩ := serves_longPiece
  have hlength : longPiece.length = (20000 : UInt32).toNat := List.length_replicate
  obtain ⟨blocks, net, hall, hbytes, _⟩ := hserves.allSucceed hlength (m := 0) (n := 0)
    (shows_getD bytes) (flowing_servedWorld bytes)
  obtain ⟨_, _, _, hsize, _, hsum, hloop, _⟩ :=
    requests_tile_piece 0 20000 (servedWorld bytes) _ blocks hall
  refine ⟨_, blocks, _, hall, ?_, ?_⟩
  · match blocks, hsize, hsum with
    | [], _, hsum => exact absurd hsum (by decide)
    | [b], hsize, hsum =>
      have hle := (hsize b (List.mem_singleton_self b)).2.1
      rw [List.map_singleton, List.sum_singleton] at hsum
      exact absurd (hsum ▸ hle) (by decide)
    | _ :: _ :: _, _, _ => exact Nat.le_add_left 2 _
  · rw [show longPiece = blockBytes blocks from hbytes.symm]
    exact hloop (List.replicate 20000 0) List.length_replicate

end CourseWork.Torrent
