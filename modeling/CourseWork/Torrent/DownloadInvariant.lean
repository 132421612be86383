import CourseWork.Torrent.DownloadRules

/-!
# The invariant of the download loop

The bitmap, the counter and the history of the output agree at every loop head, whatever
the peers do, so that `download_pieces` returns 0 exactly when it handed every piece to
the output once.
-/

namespace CourseWork.Torrent
open CLib Prog Bitmap

/-! ## The history -/

/-- The pieces handed to the output, the latest first. -/
def handedIndices (log : List Event) : List UInt32 :=
  log.filterMap fun e =>
    match e with
    | .handed i _ => some i
    | .head _ _ => none

theorem handedIndices_handed {i : UInt32} {buf : Bytes} {log : List Event} :
    handedIndices (.handed i buf :: log) = i :: handedIndices log := rfl

/-- The buffer begins with the piece `i`, by the hash of the torrent. -/
def Verified (sha1 : Bytes → Bytes) (tor : TorrentT) (i : UInt32) (buf : Bytes) : Prop :=
  sha1 (buf.take (pieceSize tor i).toNat) = (tor.pieces.drop (20 * i.toNat)).take 20

/-- The number of unmarked pieces. -/
def unmarked (tor : TorrentT) (piecesDone : Bytes) : Int :=
  tor.numPieces.toNat - (marked piecesDone tor.numPieces.toNat).length

/-- What holds of the history at any time: the counter is right at every loop head,
everything handed over is verified, and nothing was handed over twice. -/
structure LogOk (sha1 : Bytes → Bytes) (tor : TorrentT) (log : List Event) : Prop where
  heads : ∀ piecesDone piecesLeft, .head piecesDone piecesLeft ∈ log →
    piecesLeft = unmarked tor piecesDone
  verified : ∀ i buf, .handed i buf ∈ log → Verified sha1 tor i buf
  nodup : (handedIndices log).Nodup

/-- The loop invariant: the bitmap marks exactly what was handed over, and the counter
counts the rest. -/
structure Counted (sha1 : Bytes → Bytes) (tor : TorrentT) (w : World) : Prop where
  log : LogOk sha1 tor w.log
  length : w.piecesDone.length = (tor.numPieces.toNat + 7) / 8
  left : w.piecesLeft = unmarked tor w.piecesDone
  done : ∀ i : UInt32, i < tor.numPieces →
    (isDone w.piecesDone i = true ↔ i ∈ handedIndices w.log)

/-- The torrents that the client is meant for: a piece length, and hash offsets that fit
32 bits. -/
structure Downloadable (tor : TorrentT) : Prop where
  pieceLength_pos : 0 < tor.pieceLength
  hashes_lt : 20 * tor.numPieces.toNat < 2 ^ 32

/-! ## The steps -/

section Steps

variable {sha1 : Bytes → Bytes} {tor : TorrentT}

theorem counted_net (w : World) (net : Net) (h : Counted sha1 tor w) :
    Counted sha1 tor { w with net := net } :=
  ⟨h.log, h.length, h.left, h.done⟩

theorem loopHead_counted :
    Triple (Counted sha1 tor) loopHead (fun _ => Counted sha1 tor)
      (fun w => LogOk sha1 tor w.log) := by
  refine Triple.modify fun w h => ⟨⟨?_, ?_, ?_⟩, h.length, h.left, h.done⟩
  · intro piecesDone piecesLeft hmem
    rcases List.mem_cons.mp hmem with heq | hmem
    · cases heq
      exact h.left
    · exact h.log.heads _ _ hmem
  · intro i buf hmem
    exact h.log.verified i buf ((List.mem_cons.mp hmem).resolve_left nofun)
  · exact h.log.nodup

theorem verified_of_verifyPiece (htor : Downloadable tor) {i : UInt32} {buf : Bytes}
    (h : verifyPiece sha1 tor i buf = true) : Verified sha1 tor i buf := by
  have hi := UInt32.lt_iff_toNat_lt.mp (lt_numPieces_of_verifyPiece h)
  unfold verifyPiece at h
  split at h
  · exact nomatch h
  · have hn := htor.hashes_lt
    have hoffset : (i * 20).toNat = 20 * i.toNat := by
      rw [UInt32.toNat_mul, Nat.mul_comm]
      exact Nat.mod_eq_of_lt (show 20 * i.toNat < 2 ^ 32 by omega)
    rw [Verified, eq_of_beq h, pieceHash, hoffset]

/-- Handing over a new verified piece and marking it. -/
theorem counted_handed {w w' : World} {i : UInt32} {buf : Bytes} (h : Counted sha1 tor w)
    (hi : i < tor.numPieces) (hnew : isDone w.piecesDone i = false)
    (hver : Verified sha1 tor i buf) (hlog : w'.log = .handed i buf :: w.log) :
    LogOk sha1 tor w'.log ∧
      (w'.piecesDone = markDone w.piecesDone i → w'.piecesLeft = w.piecesLeft - 1 →
        Counted sha1 tor w') := by
  have hi' := UInt32.lt_iff_toNat_lt.mp hi
  have hok : LogOk sha1 tor w'.log := by
    rw [hlog]
    refine ⟨fun piecesDone piecesLeft hmem => ?_, fun j data hmem => ?_, ?_⟩
    · exact h.log.heads _ _ ((List.mem_cons.mp hmem).resolve_left nofun)
    · rcases List.mem_cons.mp hmem with heq | hmem
      · cases heq
        exact hver
      · exact h.log.verified j data hmem
    · rw [handedIndices_handed, List.nodup_cons]
      refine ⟨fun hmem => ?_, h.log.nodup⟩
      rw [(h.done i hi).mpr hmem] at hnew
      exact nomatch hnew
  refine ⟨hok, fun hdone hleft => ⟨hok, ?_, ?_, fun j hj => ?_⟩⟩
  · rw [hdone, markDone, length_mark, h.length]
  · have hcount := length_marked_mark hi' (by rw [h.length]; omega) hnew
    have hprev := h.left
    rw [hleft, hdone, unmarked, markDone, hcount, hprev, unmarked]
    omega
  · rw [hdone, hlog, handedIndices_handed, List.mem_cons]
    by_cases hji : j = i
    · rw [hji, isDone, markDone, test_mark_self (by rw [h.length]; omega)]
      exact ⟨fun _ => .inl rfl, fun _ => rfl⟩
    · rw [isDone, markDone, test_mark_ne fun heq => hji (UInt32.toNat_inj.mp heq.symm)]
      exact ⟨fun hdone => .inr ((h.done j hj).mp hdone),
        fun hmem => (h.done j hj).mpr (hmem.resolve_left hji)⟩

theorem downloadPiece_counted (htor : Downloadable tor) {peer : PeerConnection} {i : UInt32} :
    Triple (Counted sha1 tor) (downloadPiece sha1 tor peer i) (fun _ => Counted sha1 tor)
      (fun w => LogOk sha1 tor w.log) := by
  refine downloadPiece_keeps counted_net (fun _ h => ⟨h.log, h.length, h.left, h.done⟩)
    (fun _ h => h.log) fun w buf h hnew _ hver => ?_
  have hi := lt_numPieces_of_verifyPiece hver
  have hstep := fun w' : World =>
    @counted_handed _ _ w w' i buf h hi hnew (verified_of_verifyPiece htor hver)
  exact ⟨fun _ => (hstep _ rfl).1, fun out _ => (hstep _ rfl).2 rfl rfl⟩

end Steps

/-! ## The run -/

/-- The counter starts at the number of pieces, or below zero if that is no `int`. -/
theorem toInt_numPieces_cases (tor : TorrentT) :
    tor.numPieces.toNat < 2 ^ 31 ∧ tor.numPieces.toInt32.toInt = tor.numPieces.toNat ∨
      2 ^ 31 ≤ tor.numPieces.toNat ∧ tor.numPieces.toInt32.toInt < 0 := by
  have hlt := tor.numPieces.toNat_lt
  have hint : tor.numPieces.toInt32.toInt = tor.numPieces.toBitVec.toInt := rfl
  have hnat : tor.numPieces.toNat = tor.numPieces.toBitVec.toNat := rfl
  rw [hint, BitVec.toInt_eq_toNat_cond, ← hnat]
  split
  · exact .inl ⟨by omega, rfl⟩
  · exact .inr ⟨by omega, by omega⟩

/-- The bitmap has a bit for each piece. -/
theorem length_bitmap {tor : TorrentT} (h : tor.numPieces.toNat < 2 ^ 31) :
    (List.replicate ((tor.numPieces + 7) / 8).toNat (0 : UInt8)).length =
      (tor.numPieces.toNat + 7) / 8 := by
  have hadd : (tor.numPieces + 7).toNat = tor.numPieces.toNat + 7 := by
    rw [UInt32.toNat_add]
    exact Nat.mod_eq_of_lt (show tor.numPieces.toNat + 7 < 2 ^ 32 by omega)
  rw [List.length_replicate, UInt32.toNat_div, hadd]
  rfl

/-- The loop invariant holds from the start to the end of a run. -/
theorem downloadPieces_counted (sha1 : Bytes → Bytes) {tor : TorrentT} (htor : Downloadable tor)
    (peers : List PeerT) (myPeerId : Bytes) :
    Triple (fun w => w.log = []) (downloadPieces sha1 tor peers myPeerId)
      (fun left w => left = w.piecesLeft ∧ Counted sha1 tor w) (fun w => LogOk sha1 tor w.log) := by
  have hn := htor.hashes_lt
  refine downloadPieces_spec (fun w hw => ?_) (allPeers_keep counted_net (fun _ h => h.log)
      loopHead_counted fun _ _ => downloadPiece_counted htor)
    (closeOutput_keeps fun _ _ h => ⟨h.log, h.length, h.left, h.done⟩)
  obtain ⟨hsmall, hint⟩ := (toInt_numPieces_cases tor).resolve_right (by omega)
  refine ⟨?_, length_bitmap hsmall, ?_, fun i _ => ?_⟩
  · show LogOk sha1 tor w.log
    rw [hw]
    exact ⟨fun _ _ h => absurd h List.not_mem_nil, fun _ _ h => absurd h List.not_mem_nil,
      List.nodup_nil⟩
  · show tor.numPieces.toInt32.toInt = unmarked tor (List.replicate _ 0)
    rw [hint, unmarked, marked_replicate_zero]
    simp
  · show isDone (List.replicate _ 0) i = true ↔ i ∈ handedIndices w.log
    rw [isDone, test_replicate_zero, hw]
    exact ⟨nofun, fun h => absurd h List.not_mem_nil⟩

/-- No unmarked piece is left exactly when every piece was handed over once. -/
theorem Counted.left_eq_zero_iff {sha1 : Bytes → Bytes} {tor : TorrentT} {w : World}
    (h : Counted sha1 tor w) :
    w.piecesLeft = 0 ↔ ∀ i : UInt32, i < tor.numPieces → (handedIndices w.log).count i = 1 := by
  have hle := length_marked_le w.piecesDone tor.numPieces.toNat
  have hcount : ∀ i : UInt32, i < tor.numPieces →
      ((handedIndices w.log).count i = 1 ↔ isDone w.piecesDone i = true) := by
    intro i hi
    rw [h.done i hi, h.log.nodup.count]
    split
    · next hmem => exact ⟨fun _ => hmem, fun _ => rfl⟩
    · next hmem => exact ⟨nofun, fun hmem' => absurd hmem' hmem⟩
  have hlen : w.piecesLeft = 0 ↔
      (marked w.piecesDone tor.numPieces.toNat).length = tor.numPieces.toNat := by
    rw [h.left, unmarked]
    omega
  rw [hlen]
  constructor
  · exact fun heq i hi => (hcount i hi).mpr
      (test_of_length_marked heq (UInt32.lt_iff_toNat_lt.mp hi))
  · intro hall
    have hself : marked w.piecesDone tor.numPieces.toNat = List.range tor.numPieces.toNat := by
      rw [marked, List.filter_eq_self]
      intro k hk
      obtain ⟨hk', hi⟩ := pieceIndex_lt (List.mem_range.mp hk)
      have hdone := (hcount _ hi).mp (hall _ hi)
      rwa [isDone, hk'] at hdone
    rw [hself, List.length_range]

section Run

variable {sha1 : Bytes → Bytes} {tor : TorrentT} {peers : List PeerT} {myPeerId : Bytes}
  {env : Surroundings} {out : Output}

/-- However a run ends, its history is in order, and the counters are after a return. -/
theorem run_counted (sha1 : Bytes → Bytes) (htor : Downloadable tor) (peers : List PeerT)
    (myPeerId : Bytes) (env : Surroundings) (out : Output) :
    LogOk sha1 tor (run sha1 tor peers myPeerId env out).2.log ∧
      ∀ left, (run sha1 tor peers myPeerId env out).1 = .ok left →
        left = (run sha1 tor peers myPeerId env out).2.piecesLeft ∧
          Counted sha1 tor (run sha1 tor peers myPeerId env out).2 := by
  have hrun := downloadPieces_counted sha1 htor peers myPeerId (env.start out) rfl
  unfold run
  generalize downloadPieces sha1 tor peers myPeerId (env.start out) = r at hrun ⊢
  obtain ⟨result, w⟩ := r
  cases result with
  | ok left =>
    refine ⟨hrun.2.log, fun left' hleft => ?_⟩
    obtain rfl : left = left' := Except.ok.inj hleft
    exact hrun
  | error e => exact ⟨hrun, nofun⟩

/-- After a success every piece was handed over once. -/
theorem run_handed_all (htor : Downloadable tor)
    (hzero : (run sha1 tor peers myPeerId env out).1 = .ok 0) {i : UInt32}
    (hi : i < tor.numPieces) :
    (handedIndices (run sha1 tor peers myPeerId env out).2.log).count i = 1 := by
  obtain ⟨hleft, hcount⟩ := (run_counted sha1 htor peers myPeerId env out).2 0 hzero
  exact hcount.left_eq_zero_iff.mp hleft.symm i hi

end Run

/-- What the history of a run says, and what its result says about the history. -/
structure DownloadOk (sha1 : Bytes → Bytes) (tor : TorrentT) (r : Except Stop Int × World) :
    Prop where
  /-- At every loop head the counter is the number of unmarked pieces. -/
  left : ∀ (piecesDone : Bytes) (piecesLeft : Int), .head piecesDone piecesLeft ∈ r.2.log →
    piecesLeft = tor.numPieces.toNat - (marked piecesDone tor.numPieces.toNat).length
  /-- Marking a piece does not change the mark of another. -/
  marks : ∀ (piecesDone : Bytes) (i j : UInt32), i ≠ j →
    isDone (markDone piecesDone i) j = isDone piecesDone j
  /-- What goes to the output has the hash of its piece. -/
  verified : ∀ (i : UInt32) (buf : Bytes), .handed i buf ∈ r.2.log →
    sha1 (buf.take (pieceSize tor i).toNat) = (tor.pieces.drop (20 * i.toNat)).take 20
  /-- No piece goes there twice. -/
  nodup : (handedIndices r.2.log).Nodup
  /-- The result is 0 exactly when every piece went there once. -/
  result : ∀ piecesLeft, r.1 = .ok piecesLeft →
    (piecesLeft = 0 ↔ ∀ i : UInt32, i < tor.numPieces → (handedIndices r.2.log).count i = 1)

/-- The invariant of `download_pieces`, in every run, whatever the peers and the network
do and whenever the shutdown flag is cleared. -/
theorem download_ok (sha1 : Bytes → Bytes) (tor : TorrentT) (htor : Downloadable tor)
    (peers : List PeerT) (myPeerId : Bytes) (env : Surroundings) (out : Output) :
    DownloadOk sha1 tor (run sha1 tor peers myPeerId env out) := by
  have hmark : ∀ (piecesDone : Bytes) (i j : UInt32), i ≠ j →
      isDone (markDone piecesDone i) j = isDone piecesDone j :=
    fun _ i j hij => test_mark_ne fun heq => hij (UInt32.toNat_inj.mp heq)
  obtain ⟨hlog, hcounted⟩ := run_counted sha1 htor peers myPeerId env out
  refine ⟨hlog.heads, hmark, hlog.verified, hlog.nodup, fun left hleft => ?_⟩
  obtain ⟨rfl, hcount⟩ := hcounted left hleft
  exact hcount.left_eq_zero_iff

/-- A torrent downloaded from the second peer, after the first one refused. -/
theorem download_ok_byte :
    DownloadOk Sha1.sha1 (byteTorrent [7]) (byteRun [7] [none, some oneBytePeer]) :=
  download_ok _ _ ⟨by decide, by decide⟩ _ _ _ _

end CourseWork.Torrent
