import CourseWork.Torrent.DownloadRules

/-!
# The requests for the blocks of a piece

The loop over the blocks of a piece when every block succeeds. The requested blocks follow
one another from 0 to the length of the piece, which stays below `2 ^ 32` throughout, so
that the blocks written at their offsets are the whole buffer, one after the other.
-/

namespace CourseWork.Torrent
open CLib Prog

/-- A requested block and the bytes received for it. -/
structure Block where
  offset : UInt32
  length : UInt32
  bytes : Bytes

/-- The end of a block. -/
def Block.stop (b : Block) : Nat := b.offset.toNat + b.length.toNat

/-- `block_len` at an offset. -/
def blockLen (pieceLen offset : UInt32) : UInt32 :=
  if pieceLen - offset > blockSize then blockSize else pieceLen - offset

/-- The rounds of the loop from an offset on, when `running` stays set, each request is
sent, and the block is received. -/
inductive AllSucceed (i pieceLen : UInt32) : UInt32 → World → List Block → World → Prop
  | done {offset : UInt32} {w : World} :
      ¬offset < pieceLen → AllSucceed i pieceLen offset w [] w
  | block {offset : UInt32} {w w1 w2 w3 w' : World} {bytes : Bytes} {blocks : List Block} :
      offset < pieceLen → onNet running w = (.ok true, w1) →
      onNet (peerSendRequest i offset (blockLen pieceLen offset)) w1 = (.ok true, w2) →
      onNet (peerReceiveBlock i offset (blockLen pieceLen offset).toNat) w2 =
        (.ok (some bytes), w3) →
      AllSucceed i pieceLen (offset + blockLen pieceLen offset) w3 blocks w' →
      AllSucceed i pieceLen offset w (⟨offset, blockLen pieceLen offset, bytes⟩ :: blocks) w'

/-! ## Lengths -/

/-- A block is not empty, not longer than `BLOCK_SIZE`, and ends within the piece. -/
theorem blockLen_bounds {pieceLen offset : UInt32} (h : offset < pieceLen) :
    1 ≤ (blockLen pieceLen offset).toNat ∧ (blockLen pieceLen offset).toNat ≤ 16384 ∧
      offset.toNat + (blockLen pieceLen offset).toNat ≤ pieceLen.toNat := by
  have hlt := UInt32.lt_iff_toNat_lt.mp h
  have hsub : (pieceLen - offset).toNat = pieceLen.toNat - offset.toNat :=
    UInt32.toNat_sub_of_le _ _ (UInt32.le_iff_toNat_le.mpr (by omega))
  have hsize : blockSize.toNat = 16384 := rfl
  rw [blockLen]
  split
  · next hlarge =>
    have := UInt32.lt_iff_toNat_lt.mp hlarge
    omega
  · next hsmall =>
    have := mt UInt32.lt_iff_toNat_lt.mpr hsmall
    omega

/-- The offset of the next block does not wrap. -/
theorem toNat_next {pieceLen offset : UInt32} (h : offset < pieceLen) :
    (offset + blockLen pieceLen offset).toNat =
      offset.toNat + (blockLen pieceLen offset).toNat := by
  have hbounds := (blockLen_bounds h).2.2
  have hlt := pieceLen.toNat_lt
  rw [UInt32.toNat_add]
  exact Nat.mod_eq_of_lt (by omega)

theorem onNet_receive_length {i begin : UInt32} {length : Nat} {w w' : World} {bytes : Bytes}
    (h : onNet (peerReceiveBlock i begin length) w = (.ok (some bytes), w')) :
    bytes.length = length := by
  have hlength := onNet_keeps (P := fun _ => True) (E := fun _ => True)
    (show Triple _ (peerReceiveBlock i begin length) _ _ from peerReceiveBlock_length)
    (fun _ _ _ => trivial) (fun _ _ => trivial) w trivial
  rw [h] at hlength
  exact hlength.1 bytes rfl

/-! ## The blocks of a piece -/

/-- Blocks of the right lengths follow one another from `start` to `stop`. -/
def BlocksTile : Nat → List Block → Nat → Prop
  | start, [], stop => start = stop
  | start, b :: blocks, stop => b.offset.toNat = start ∧
      (1 ≤ b.length.toNat ∧ b.length.toNat ≤ 16384 ∧ b.bytes.length = b.length.toNat) ∧
      BlocksTile b.stop blocks stop

section BlocksTile

variable {start stop : Nat} {blocks : List Block}

theorem BlocksTile.le (h : BlocksTile start blocks stop) : start ≤ stop := by
  induction blocks generalizing start with
  | nil => exact Nat.le_of_eq h
  | cons b blocks ih =>
    obtain ⟨hoffset, _, hrest⟩ := h
    have hle := ih hrest
    rw [Block.stop] at hle
    omega

theorem BlocksTile.bounds (h : BlocksTile start blocks stop) : ∀ b ∈ blocks,
    (1 ≤ b.length.toNat ∧ b.length.toNat ≤ 16384 ∧ b.bytes.length = b.length.toNat) ∧
      start ≤ b.offset.toNat ∧ b.stop ≤ stop := by
  induction blocks generalizing start with
  | nil => exact fun b hb => absurd hb List.not_mem_nil
  | cons b blocks ih =>
    obtain ⟨hoffset, hlength, hrest⟩ := h
    refine List.forall_mem_cons.mpr ⟨⟨hlength, Nat.le_of_eq hoffset.symm, hrest.le⟩, fun c hc => ?_⟩
    obtain ⟨hc, hstart, hstop⟩ := ih hrest c hc
    rw [Block.stop] at hstart
    exact ⟨hc, by omega, hstop⟩

/-- They have no position in common. -/
theorem BlocksTile.pairwise (h : BlocksTile start blocks stop) :
    blocks.Pairwise fun a b => a.stop ≤ b.offset.toNat := by
  induction blocks generalizing start with
  | nil => exact .nil
  | cons b blocks ih =>
    obtain ⟨_, _, hrest⟩ := h
    exact .cons (fun c hc => (hrest.bounds c hc).2.1) (ih hrest)

/-- Each position lies in one of them. -/
theorem BlocksTile.cover (h : BlocksTile start blocks stop) {x : Nat} (h1 : start ≤ x)
    (h2 : x < stop) : ∃ b ∈ blocks, b.offset.toNat ≤ x ∧ x < b.stop := by
  induction blocks generalizing start with
  | nil =>
    have heq : start = stop := h
    omega
  | cons b blocks ih =>
    obtain ⟨hoffset, _, hrest⟩ := h
    by_cases hx : x < b.stop
    · exact ⟨b, List.mem_cons_self, by omega, hx⟩
    · obtain ⟨c, hc, hcover⟩ := ih hrest (Nat.not_lt.mp hx)
      exact ⟨c, List.mem_cons_of_mem b hc, hcover⟩

theorem BlocksTile.head (h : BlocksTile 0 blocks stop) : ∀ b ∈ blocks.head?, b.offset = 0 := by
  cases blocks with
  | nil => exact fun b hb => absurd hb (by simp)
  | cons b blocks =>
    intro c hc
    obtain rfl : b = c := Option.some.inj hc
    exact UInt32.toNat_inj.mp h.1

theorem BlocksTile.chain (h : BlocksTile start blocks stop) :
    blocks.IsChain fun a b => b.offset.toNat = a.stop := by
  induction blocks generalizing start with
  | nil => exact .nil
  | cons b blocks ih =>
    obtain ⟨_, _, hrest⟩ := h
    cases blocks with
    | nil => exact .singleton b
    | cons c blocks => exact (ih hrest).cons_cons hrest.1

theorem BlocksTile.sum (h : BlocksTile start blocks stop) :
    start + (blocks.map fun b => b.length.toNat).sum = stop := by
  induction blocks generalizing start with
  | nil => exact h
  | cons b blocks ih =>
    obtain ⟨hoffset, _, hrest⟩ := h
    rw [List.map_cons, List.sum_cons, ← Nat.add_assoc, ← hoffset]
    exact ih hrest

/-- The bytes of all blocks. -/
def blockBytes (blocks : List Block) : Bytes := blocks.flatMap (·.bytes)

/-- What the copies of the blocks make of a buffer. -/
def placeBlocks (blocks : List Block) (buf : Bytes) : Bytes :=
  blocks.foldl (fun buf b => memcpy buf b.offset.toNat b.bytes) buf

/-- Behind what is written already, the buffer becomes the bytes of the blocks. -/
theorem BlocksTile.place {buf : Bytes} (h : BlocksTile start blocks buf.length) :
    placeBlocks blocks buf = buf.take start ++ blockBytes blocks := by
  induction blocks generalizing start buf with
  | nil =>
    have heq : start = buf.length := h
    rw [heq, List.take_length, blockBytes, List.flatMap_nil, List.append_nil]
    rfl
  | cons b blocks ih =>
    obtain ⟨hoffset, ⟨_, _, hlength⟩, hrest⟩ := h
    have hle := hrest.le
    rw [Block.stop] at hle
    have hbuf : (memcpy buf b.offset.toNat b.bytes).length = buf.length :=
      length_memcpy (by omega)
    have htake : (memcpy buf b.offset.toNat b.bytes).take b.stop = buf.take start ++ b.bytes := by
      have hfront : (buf.take b.offset.toNat ++ b.bytes).length = b.stop := by
        rw [List.length_append, List.length_take, Nat.min_eq_left (by omega), hlength, Block.stop]
      rw [memcpy, ← hfront, List.take_left, hoffset]
    rw [← hbuf] at hrest
    have hplace := ih hrest
    rw [htake, List.append_assoc] at hplace
    exact hplace

/-- Each block is found at its offset. -/
theorem BlocksTile.slice (h : BlocksTile start blocks stop) : ∀ b ∈ blocks,
    ((blockBytes blocks).drop (b.offset.toNat - start)).take b.length.toNat = b.bytes := by
  induction blocks generalizing start with
  | nil => exact fun b hb => absurd hb List.not_mem_nil
  | cons b blocks ih =>
    obtain ⟨hoffset, ⟨_, _, hlength⟩, hrest⟩ := h
    refine List.forall_mem_cons.mpr ⟨?_, fun c hc => ?_⟩
    · rw [hoffset, Nat.sub_self, List.drop_zero, blockBytes, List.flatMap_cons, ← hlength,
        List.take_left]
    · have hstart := (hrest.bounds c hc).2.1
      have hc := ih hrest c hc
      rw [Block.stop] at hstart hc
      have hoffsets : c.offset.toNat - start =
          b.bytes.length + (c.offset.toNat - (b.offset.toNat + b.length.toNat)) := by omega
      rw [blockBytes, List.flatMap_cons, hoffsets, ← List.drop_drop, List.drop_left]
      exact hc

end BlocksTile

/-- The rounds go through consecutive blocks. -/
theorem AllSucceed.consecutive {i pieceLen offset : UInt32} {w w' : World} {blocks : List Block}
    (h : AllSucceed i pieceLen offset w blocks w') (hle : offset ≤ pieceLen) :
    BlocksTile offset.toNat blocks pieceLen.toNat := by
  induction h with
  | @done offset w hend =>
    exact congrArg UInt32.toNat (UInt32.le_antisymm hle (UInt32.not_lt.mp hend))
  | @block offset w w1 w2 w3 w' bytes blocks hlt _ _ hreceive _ ih =>
    obtain ⟨hpos, hsize, hstop⟩ := blockLen_bounds hlt
    have hnext := toNat_next hlt
    refine ⟨rfl, ⟨hpos, hsize, onNet_receive_length hreceive⟩, ?_⟩
    rw [Block.stop, ← hnext]
    exact ih (UInt32.le_iff_toNat_le.mpr (by rw [hnext]; exact hstop))

/-! ## The loop -/

theorem blockLoop_succ (i pieceLen : UInt32) (rounds : Nat) (offset : UInt32) (buf : Bytes) :
    blockLoop i pieceLen (rounds + 1) offset buf =
      if offset < pieceLen then do
        if ← onNet running then
          if ← onNet (peerSendRequest i offset (blockLen pieceLen offset)) then
            match ← onNet (peerReceiveBlock i offset (blockLen pieceLen offset).toNat) with
            | none => return (false, buf)
            | some block =>
              blockLoop i pieceLen rounds (offset + blockLen pieceLen offset)
                (memcpy buf offset.toNat block)
          else return (false, buf)
        else return (true, buf)
      else return (true, buf) := rfl

/-- The loop makes the rounds, if it may make as many as there are bytes left. -/
theorem AllSucceed.blockLoop {i pieceLen offset : UInt32} {w w' : World} {blocks : List Block}
    (h : AllSucceed i pieceLen offset w blocks w') : ∀ {rounds : Nat} (buf : Bytes),
    pieceLen.toNat - offset.toNat < rounds →
    blockLoop i pieceLen rounds offset buf w = (.ok (true, placeBlocks blocks buf), w') := by
  induction h with
  | done hend =>
    intro rounds buf hrounds
    cases rounds with
    | zero => exact absurd hrounds (Nat.not_lt_zero _)
    | succ rounds =>
      rw [blockLoop_succ, if_neg hend]
      rfl
  | @block offset w w1 w2 w3 w' bytes blocks hlt hrunning hsend hreceive _ ih =>
    intro rounds buf hrounds
    obtain ⟨hpos, _, hstop⟩ := blockLen_bounds hlt
    have hnext := toNat_next hlt
    cases rounds with
    | zero => exact absurd hrounds (Nat.not_lt_zero _)
    | succ rounds =>
      rw [blockLoop_succ, if_pos hlt, bind_ok hrunning, if_pos rfl, bind_ok hsend, if_pos rfl,
        bind_ok hreceive]
      exact ih (memcpy buf offset.toNat bytes) (by omega)

/-- More rounds than there are bytes change nothing: the loop ends by itself. -/
theorem blockLoop_rounds {i pieceLen : UInt32} : ∀ {rounds : Nat} {offset : UInt32} {buf : Bytes},
    pieceLen.toNat - offset.toNat < rounds → ∀ more,
    blockLoop i pieceLen (rounds + more) offset buf = blockLoop i pieceLen rounds offset buf
  | 0, _, _, h, _ => absurd h (Nat.not_lt_zero _)
  | rounds + 1, offset, buf, h, more => by
    rw [Nat.add_right_comm, blockLoop_succ, blockLoop_succ]
    by_cases hlt : offset < pieceLen
    · obtain ⟨hpos, _, hstop⟩ := blockLen_bounds hlt
      have hnext := toNat_next hlt
      have hrest : ∀ buf,
          blockLoop i pieceLen (rounds + more) (offset + blockLen pieceLen offset) buf =
          blockLoop i pieceLen rounds (offset + blockLen pieceLen offset) buf := fun buf =>
        blockLoop_rounds (by omega) more
      rw [if_pos hlt, if_pos hlt]
      simp only [hrest]
    · rw [if_neg hlt, if_neg hlt]

/-- What follows the loop over the blocks of a piece. -/
def checkPiece (sha1 : Bytes → Bytes) (tor : TorrentT) (i pieceLen : UInt32) (pieceOk : Bool)
    (buf : Bytes) : Prog Stop World Unit :=
  if pieceOk && verifyPiece sha1 tor i buf then do
    handOver i buf pieceLen
    Prog.modify fun w => { w with
      piecesDone := markDone w.piecesDone i
      piecesLeft := w.piecesLeft - 1 }
  else return ()

/-- A piece that is downloaded: the bytes of the blocks are checked. -/
theorem AllSucceed.downloadPiece {sha1 : Bytes → Bytes} {tor : TorrentT} {peer : PeerConnection}
    {i : UInt32} {w w' : World} {blocks : List Block} (hdone : isDone w.piecesDone i = false)
    (hpeer : peerHasPiece peer i = true) (hdefined : pieceSizeDefined tor i = true)
    (h : AllSucceed i (pieceSize tor i) 0 { w with allocs := w.allocs + 1 } blocks w') :
    downloadPiece sha1 tor peer i w =
      checkPiece sha1 tor i (pieceSize tor i) true (blockBytes blocks) w' := by
  have hlength : (slice (w.heap w.allocs) 0 (pieceSize tor i).toNat).length =
      (pieceSize tor i).toNat := length_slice _ _ _
  have htile := h.consecutive UInt32.zero_le
  have hplace : placeBlocks blocks (slice (w.heap w.allocs) 0 (pieceSize tor i).toNat) =
      blockBytes blocks := by
    rw [← hlength] at htile
    rw [htile.place]
    rfl
  have hloop := h.blockLoop (slice (w.heap w.allocs) 0 (pieceSize tor i).toNat)
    (Nat.lt_succ_of_le (Nat.sub_le _ _))
  have hmalloc : xmalloc (pieceSize tor i).toNat w =
      (.ok (slice (w.heap w.allocs) 0 (pieceSize tor i).toNat),
        { w with allocs := w.allocs + 1 }) := rfl
  have hget : (Prog.get : Prog Stop World World) w = (.ok w, w) := rfl
  rw [hplace] at hloop
  rw [Torrent.downloadPiece, bind_ok hget, if_neg (by rw [hdone]; decide),
    if_neg (by rw [hpeer]; decide), if_neg (by rw [hdefined]; decide)]
  dsimp only
  rw [bind_ok hmalloc, bind_ok hloop]
  rfl

end CourseWork.Torrent
