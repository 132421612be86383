import CourseWork.Torrent.DownloadInvariant
import CourseWork.Torrent.TarArchive

/-!
# Downloads to an archive

What `download_pieces` leaves on standard output in tar mode. The loop hands over the
pieces in the order in which they get verified, which depends on the peers; the writer
depends on an order that does not leave a file before it is complete.
-/

namespace CourseWork.Torrent
open CLib Prog Tiling

/-! ## The pieces handed over -/

/-- The pieces handed to the output with their data, the latest first. -/
def handedPieces (log : List Event) : List (UInt32 × Bytes) :=
  log.filterMap fun e =>
    match e with
    | .handed i buf => some (i, buf)
    | .head _ _ => none

theorem map_fst_handedPieces (log : List Event) :
    (handedPieces log).map Prod.fst = handedIndices log := by
  rw [handedPieces, handedIndices, List.map_filterMap]
  congr 1
  funext e
  cases e <;> rfl

theorem mem_handedPieces {log : List Event} {i : UInt32} {buf : Bytes}
    (h : (i, buf) ∈ handedPieces log) : .handed i buf ∈ log := by
  obtain ⟨e, he, heq⟩ := List.mem_filterMap.mp h
  cases e with
  | handed j data =>
    cases heq
    exact he
  | head _ _ => exact nomatch heq

/-- The writer has written what was handed over, pieces of the right lengths. -/
structure Writes (tor : TorrentT) (tw : TarWriter) (w : World) : Prop where
  out : ∃ tw', w.out = .tar tw' ∧ writeHanded tor tw (handedPieces w.log) = some tw'
  length : ∀ x ∈ handedPieces w.log, x.1 < tor.numPieces ∧ x.2.length = (pieceSize tor x.1).toNat

section Steps

variable {sha1 : Bytes → Bytes} {tor : TorrentT} {tw : TarWriter}

theorem writes_net (w : World) (net : Net) (h : Writes tor tw w) :
    Writes tor tw { w with net := net } :=
  ⟨h.out, h.length⟩

theorem loopHead_writes :
    Triple (Writes tor tw) loopHead (fun _ => Writes tor tw) (fun _ => True) :=
  Triple.modify fun _ h => ⟨h.out, h.length⟩

theorem downloadPiece_writes {peer : PeerConnection} {i : UInt32} :
    Triple (Writes tor tw) (downloadPiece sha1 tor peer i) (fun _ => Writes tor tw)
      (fun _ => True) := by
  refine downloadPiece_keeps writes_net (fun _ h => ⟨h.out, h.length⟩) (fun _ _ => trivial)
    fun w buf h _ hlength hver => ⟨fun _ => trivial, fun out hwrite => ?_⟩
  obtain ⟨tw1, hout, hearlier⟩ := h.out
  rw [hout] at hwrite
  obtain ⟨tw2, hpiece, rfl⟩ := Option.map_eq_some_iff.mp hwrite
  refine ⟨⟨tw2, rfl, Option.bind_eq_some_iff.mpr ⟨tw1, hearlier, hpiece⟩⟩, fun x hx => ?_⟩
  rcases List.mem_cons.mp hx with rfl | hx
  · exact ⟨lt_numPieces_of_verifyPiece hver, hlength⟩
  · exact h.length x hx

end Steps

/-- At the end of a run the writer has written what was handed over, and was closed. -/
theorem downloadPieces_writes (sha1 : Bytes → Bytes) (tor : TorrentT)
    (peers : List PeerT) (myPeerId : Bytes) (tw : TarWriter) :
    Triple (fun w => w.log = [] ∧ w.out = .tar tw) (downloadPieces sha1 tor peers myPeerId)
      (fun _ w => ∃ tw', w.out = .tar (tarWriterClose tw') ∧
        writeHanded tor tw (handedPieces w.log) = some tw' ∧
        ∀ x ∈ handedPieces w.log, x.1 < tor.numPieces ∧ x.2.length = (pieceSize tor x.1).toNat)
      (fun _ => True) := by
  refine (downloadPieces_spec (P := Writes tor tw) (fun w hw => ?_) (allPeers_keep writes_net
    (fun _ _ => trivial) loopHead_writes fun _ _ => downloadPiece_writes)
      (Triple.modify fun w h => ?_)).post fun _ _ h => h.2
  · obtain ⟨hlog, hout⟩ := hw
    refine ⟨⟨tw, hout, ?_⟩, ?_⟩
    · show writeHanded tor tw (handedPieces w.log) = some tw
      rw [hlog]
      rfl
    · show ∀ x ∈ handedPieces w.log, _
      rw [hlog]
      exact fun x hx => absurd hx List.not_mem_nil
  · obtain ⟨⟨tw', hout, hwrite⟩, hlength⟩ := h
    rw [hout]
    exact ⟨tw', rfl, hwrite, hlength⟩

/-! ## The payload -/

/-- Consistent geometry: the lengths of the files sum to the total length, and there are
as many pieces as that takes. -/
structure Tiled (tor : TorrentT) : Prop where
  sum_lengths : (tor.files.map fun f => f.length.toNat).sum = tor.totalLength.toNat
  numPieces_eq : tor.numPieces.toNat =
    (tor.totalLength.toNat + tor.pieceLength.toNat - 1) / tor.pieceLength.toNat

theorem exists_data {handed : List (UInt32 × Bytes)} (h : (handed.map Prod.fst).Nodup) :
    ∃ data : UInt32 → Bytes, ∀ x ∈ handed, x.2 = data x.1 := by
  induction handed with
  | nil => exact ⟨fun _ => [], fun _ h => absurd h List.not_mem_nil⟩
  | cons x handed ih =>
    obtain ⟨hnew, hnodup⟩ := List.nodup_cons.mp h
    obtain ⟨data, hdata⟩ := ih hnodup
    refine ⟨fun i => if i = x.1 then x.2 else data i, fun y hy => ?_⟩
    rcases List.mem_cons.mp hy with rfl | hy
    · exact (if_pos rfl).symm
    · refine (hdata y hy).trans (if_neg fun heq => ?_).symm
      exact hnew (heq ▸ List.mem_map_of_mem hy)

/-- The total length is in the range of file offsets. -/
theorem totalLength_lt {tor : TorrentT} (htiled : Tiled tor) (htor : Downloadable tor) :
    tor.totalLength.toNat < 2 ^ 63 := by
  have hpl : 0 < tor.pieceLength.toNat := UInt32.lt_iff_toNat_lt.mp htor.pieceLength_pos
  have hn := htor.hashes_lt
  calc tor.totalLength.toNat
      ≤ tor.numPieces.toNat * tor.pieceLength.toNat := ((eq_ceil_iff hpl).mp htiled.numPieces_eq).1
    _ ≤ 2 ^ 30 * 2 ^ 32 := Nat.mul_le_mul (by omega) (Nat.le_of_lt tor.pieceLength.toNat_lt)
    _ < 2 ^ 63 := by decide

/-- Once all pieces were handed over they are the pieces of a payload. -/
theorem exists_payload {tor : TorrentT} (htiled : Tiled tor) (htor : Downloadable tor)
    {handed : List (UInt32 × Bytes)} (hnodup : (handed.map Prod.fst).Nodup)
    (hmem : ∀ i, i ∈ handed.map Prod.fst ↔ i < tor.numPieces)
    (hlength : ∀ x ∈ handed, x.2.length = (pieceSize tor x.1).toNat) :
    ∃ payload, Geometric tor payload ∧ ∀ x ∈ handed, x.2 = pieceOf tor payload x.1 := by
  have hpl : 0 < tor.pieceLength.toNat := UInt32.lt_iff_toNat_lt.mp htor.pieceLength_pos
  have htiles := (tiles_blocks_iff hpl).mpr htiled.numPieces_eq
  obtain ⟨data, hdata⟩ := exists_data hnodup
  have hpiece : ∀ k, k < tor.numPieces.toNat →
      (data (UInt32.ofNat k)).length = tor.sizeOf k := by
    intro k hk
    obtain ⟨hk', hlt⟩ := pieceIndex_lt hk
    obtain ⟨x, hx, heq⟩ := List.mem_map.mp ((hmem _).mpr hlt)
    rw [← heq, ← hdata x hx, hlength x hx, heq, toNat_pieceSize hpl hlt, hk']
  obtain ⟨htotal, hslices⟩ := htiles.slice_flatMap (f := fun k => data (UInt32.ofNat k)) hpiece
  refine ⟨_, ⟨hpl, htotal, totalLength_lt htiled htor, htiled.sum_lengths, htiled.numPieces_eq⟩,
    fun x hx => ?_⟩
  have hlt := (hmem x.1).mp (List.mem_map_of_mem hx)
  have hslice := hslices x.1.toNat (UInt32.lt_iff_toNat_lt.mp hlt)
  rw [UInt32.ofNat_toNat] at hslice
  rw [hdata x hx, ← hslice, pieceOf, toNat_pieceSize hpl hlt]
  rfl

/-! ## Runs -/

/-- What went to standard output. -/
def Output.stdout : Output → Bytes
  | .tar tw => tw.out.bytes
  | .storage _ => []

/-- A ustar archive with exactly one entry for each file that is not empty, whose data are
the part of the file in a payload that has the hashes of the torrent. -/
def ArchiveOk (sha1 : Bytes → Bytes) (tor : TorrentT) (archive : Bytes) : Prop :=
  ∃ payload es, Geometric tor payload ∧
    (∀ i, i < tor.numPieces →
      sha1 (pieceOf tor payload i) = (tor.pieces.drop (20 * i.toNat)).take 20) ∧
    Ustar.read archive = some es ∧ es.Perm (fileEntries tor payload)

/-- A run in tar mode that returns 0 leaves a correct archive on a standard output that
takes everything, if it hands over the pieces in an order that breaks no file. -/
theorem tar_download_ok (sha1 : Bytes → Bytes) (tor : TorrentT) (peers : List PeerT)
    (myPeerId : Bytes) (env : Surroundings) (clock : List UInt64) (htiled : Tiled tor)
    (htor : Downloadable tor) (hfiles : Archivable tor)
    (hrun : (run sha1 tor peers myPeerId env (.tar (tarWriterOpen ⟨[], []⟩ clock tor))).1 = .ok 0)
    (horder : Unbroken tor (handedIndices
      (run sha1 tor peers myPeerId env (.tar (tarWriterOpen ⟨[], []⟩ clock tor))).2.log)) :
    ArchiveOk sha1 tor
      (run sha1 tor peers myPeerId env
        (.tar (tarWriterOpen ⟨[], []⟩ clock tor))).2.out.stdout := by
  have hlog := (run_counted sha1 htor peers myPeerId env
    (.tar (tarWriterOpen ⟨[], []⟩ clock tor))).1
  have hall := fun i (hi : i < tor.numPieces) => run_handed_all htor hrun hi
  have hwrites := downloadPieces_writes sha1 tor peers myPeerId
    (tarWriterOpen ⟨[], []⟩ clock tor)
    (env.start (.tar (tarWriterOpen ⟨[], []⟩ clock tor))) ⟨rfl, rfl⟩
  unfold run at hrun horder hlog hall ⊢
  generalize downloadPieces sha1 tor peers myPeerId
    (env.start (.tar (tarWriterOpen ⟨[], []⟩ clock tor))) = r at *
  obtain ⟨result, w⟩ := r
  obtain rfl : result = .ok 0 := hrun
  obtain ⟨tw, hout, hwrite, hlength⟩ := hwrites
  -- Every piece was handed over once.
  have hnodup := hlog.nodup
  rw [← map_fst_handedPieces] at hnodup hall horder
  have hmem : ∀ i, i ∈ (handedPieces w.log).map Prod.fst ↔ i < tor.numPieces := by
    intro i
    constructor
    · intro hi
      obtain ⟨x, hx, rfl⟩ := List.mem_map.mp hi
      exact (hlength x hx).1
    · intro hi
      rw [← List.count_pos_iff, hall i hi]
      exact Nat.one_pos
  obtain ⟨payload, hgeo, hpieces⟩ := exists_payload htiled htor hnodup hmem
    fun x hx => (hlength x hx).2
  obtain ⟨es, hread, hperm⟩ := read_writeHanded hfiles hgeo.layout hpieces hnodup hmem horder hwrite
  refine ⟨payload, es, hgeo, fun i hi => ?_, ?_, hperm⟩
  · obtain ⟨⟨j, buf⟩, hx, rfl⟩ := List.mem_map.mp ((hmem i).mpr hi)
    have hver := hlog.verified j buf (mem_handedPieces hx)
    rw [Verified, ← (hlength _ hx).2, List.take_length, hpieces _ hx] at hver
    exact hver
  · show Ustar.read w.out.stdout = some es
    rw [hout]
    exact hread

/-- A peer that has only the second byte of a torrent of two. -/
def secondBytePeer : Remote :=
  scriptedPeer (byteTorrent [7, 8]) (htonl 2 ++ [5, 64] ++ unchokeMessage ++ byteMessage 1 8)
    (List.replicate 7 (.data 99))

/-- A peer that has only the first byte. -/
def firstBytePeer : Remote :=
  scriptedPeer (byteTorrent [7, 8]) (htonl 2 ++ [5, 128] ++ unchokeMessage ++ byteMessage 0 7)
    (List.replicate 7 (.data 99))

/-- A file of two pieces, each from another peer. -/
theorem tar_download_ok_bytes :
    ArchiveOk Sha1.sha1 (byteTorrent [7, 8])
      (byteRun [7, 8] [none, some firstBytePeer, some secondBytePeer]).2.out.stdout := by
  have hrun : (byteRun [7, 8] [none, some firstBytePeer, some secondBytePeer]).1 = .ok 0 := by
    decide +kernel
  have horder : Unbroken (byteTorrent [7, 8])
      (handedIndices (byteRun [7, 8] [none, some firstBytePeer, some secondBytePeer]).2.log) := by
    decide +kernel
  unfold byteRun at hrun horder ⊢
  exact tar_download_ok Sha1.sha1 (byteTorrent [7, 8]) _ [] _ _ ⟨by decide, by decide⟩
    ⟨by decide, by decide⟩ ⟨by decide, by decide⟩ hrun horder

/-- The second half of a file before the first: the run returns 0, and what it wrote is no
archive. -/
theorem tar_download_second_first :
    (byteRun [7, 8] [some secondBytePeer, some firstBytePeer]).1 = .ok 0 ∧
      ¬ ArchiveOk Sha1.sha1 (byteTorrent [7, 8])
        (byteRun [7, 8] [some secondBytePeer, some firstBytePeer]).2.out.stdout := by
  refine ⟨by decide +kernel, ?_⟩
  rintro ⟨payload, es, _, _, hread, _⟩
  have hnone : Ustar.read
      (byteRun [7, 8] [some secondBytePeer, some firstBytePeer]).2.out.stdout = none := by
    decide +kernel
  rw [hnone] at hread
  exact nomatch hread

end CourseWork.Torrent
