import CourseWork.Torrent.Acceptance
import CourseWork.Torrent.TarDownload

/-!
# Files that hold every piece

For a torrent with consistent geometry the files have room for every byte of every piece, so
that a run accepts its data exactly if no call fails or is short.
-/

namespace CourseWork.Torrent
open CLib Tiling

/-- The output was opened for the torrent: its files lie where those of the torrent do. -/
def Output.Fits (tor : TorrentT) : Output → Prop
  | .tar tw => tw.tor = tor
  | .storage st => st.pieceLength = tor.pieceLength ∧
      st.files.map (fun fi => (fi.offset.toNat, fi.length.toNat)) =
        tor.placed.map fun p => (p.start, p.size)

/-- The output as it is when it has been opened for the torrent. -/
inductive Output.Opened (tor : TorrentT) : Output → Prop
  | tar (out : OutStream) (clock : List UInt64) : Opened tor (.tar (tarWriterOpen out clock tor))
  | storage {fs : Fs} {cfg : Config} {st : Storage} {calls : List FsCall}
    (hopen : storageOpen fs cfg tor = (.opened st, calls)) : Opened tor (.storage st)

section Fits

variable {tor : TorrentT}

theorem Output.Opened.fits {out : Output} (h : out.Opened tor) (htiled : Tiled tor) :
    out.Fits tor := by
  cases h with
  | tar out clock => exact rfl
  | @storage fs cfg st calls hopen =>
    have hsum : (tor.files.map fun f => f.length.toNat).sum < 2 ^ 64 := by
      rw [htiled.sum_lengths]
      exact tor.totalLength.toNat_lt
    have hplaced := congrArg (List.map Prod.snd) (storageOpen_placed hopen hsum)
    rw [List.map_map, List.map_map] at hplaced
    exact ⟨(storageOpen_layout hopen hsum).1, hplaced⟩

/-! ## Writes keep the files in place -/

theorem writeFilePart_tor {pieceStart pieceEnd fileStart : UInt64} {data : Bytes} {i : Nat}
    {f : FileT} {tw tw' : TarWriter}
    (h : writeFilePart pieceStart pieceEnd data i f fileStart tw = some tw') :
    tw'.tor = tw.tor := by
  rw [writeFilePart_overlap] at h
  split at h
  · obtain ⟨tw1, henter, rfl⟩ := Option.map_eq_some_iff.mp h
    have htor : tw1.tor = tw.tor := by
      unfold enterFile at henter
      split at henter
      · split at henter
        · cases henter
          rfl
        · exact nomatch henter
      · cases henter
        rfl
    dsimp only
    split
    · unfold writePadding
      dsimp only
      split
      · exact htor
      · exact htor
    · exact htor
  · cases h
    rfl

theorem writeFileParts_tor {pieceStart pieceEnd : UInt64} {data : Bytes} :
    ∀ {files : List FileT} {i : Nat} {fileStart : UInt64} {tw tw' : TarWriter},
      writeFileParts pieceStart pieceEnd data i fileStart files tw = some tw' → tw'.tor = tw.tor
  | [], _, _, _, _, h => by
    cases h
    rfl
  | f :: files, i, fileStart, tw, tw', h => by
    obtain ⟨tw1, hfirst, hrest⟩ := Option.bind_eq_some_iff.mp h
    exact (writeFileParts_tor hrest).trans (writeFilePart_tor hfirst)

theorem Output.Fits.write {out out' : Output} {i pieceLen : UInt32} {buf : Bytes}
    (h : out.Fits tor) (hwrite : out.write i buf pieceLen = some out') : out'.Fits tor := by
  cases out with
  | tar tw =>
    obtain ⟨tw', hpiece, rfl⟩ := Option.map_eq_some_iff.mp hwrite
    exact (writeFileParts_tor hpiece).trans h
  | storage st =>
    cases hwrite
    refine ⟨h.1, ?_⟩
    show (st.files.map _).map _ = _
    rw [List.map_map, ← h.2]
    refine List.map_congr_left fun fi _ => ?_
    have hsame := fun pieceStart pieceEnd => writeOverlap_unchanged pieceStart pieceEnd buf fi
    dsimp only [Function.comp_apply]
    rw [(hsame _ _).offset, (hsame _ _).length]

/-! ## Every byte has a call -/

/-- A position that the piece and the file have in common lies in their overlap. -/
theorem exists_overlap (pieceStart pieceEnd fileStart length : UInt64) {k : Nat}
    (hpiece : pieceStart.toNat + k < pieceEnd.toNat)
    (hlt : fileStart.toNat + length.toNat < 2 ^ 64)
    (hstart : fileStart.toNat ≤ pieceStart.toNat + k)
    (hstop : pieceStart.toNat + k < fileStart.toNat + length.toNat) :
    ∃ o, overlap pieceStart pieceEnd fileStart length = some o ∧
      o.inPiece.toNat ≤ k ∧ k < o.inPiece.toNat + o.bytes.toNat := by
  have hend := toNat_add_of_lt hlt
  cases ho : overlap pieceStart pieceEnd fileStart length with
  | none =>
    have hnone := overlap_none ho
    rw [hend] at hnone
    omega
  | some o =>
    obtain ⟨_, _, hin, hbytes⟩ := overlap_some ho
    rw [hend] at hbytes
    exact ⟨o, rfl, by omega, by omega⟩

theorem filePartCalls_cover {pieceStart pieceEnd : UInt64} {data : Bytes} {k : Nat}
    (hpiece : pieceStart.toNat + k < pieceEnd.toNat) :
    ∀ {files : List FileT} {i : Nat} {fileStart : UInt64} {tw tw' : TarWriter},
      writeFileParts pieceStart pieceEnd data i fileStart files tw = some tw' →
      fileStart.toNat + (files.map fun f => f.length.toNat).sum < 2 ^ 64 →
      fileStart.toNat ≤ pieceStart.toNat + k →
      pieceStart.toNat + k < fileStart.toNat + (files.map fun f => f.length.toNat).sum →
      ∃ c ∈ filePartCalls pieceStart pieceEnd data i fileStart files tw, c.Asks k
  | [], _, _, _, _, _, _, h1, h2 => by
    rw [List.map_nil, List.sum_nil] at h2
    omega
  | f :: files, i, fileStart, tw, tw', hwrite, hsum, h1, h2 => by
    rw [List.map_cons, List.sum_cons] at hsum h2
    obtain ⟨tw1, hfirst, hrest⟩ := Option.bind_eq_some_iff.mp hwrite
    have hstop := toNat_add_of_lt (show fileStart.toNat + f.length.toNat < 2 ^ 64 by omega)
    rw [filePartCalls, hfirst]
    rcases Nat.lt_or_ge (pieceStart.toNat + k) (fileStart.toNat + f.length.toNat) with hlt | hge
    · obtain ⟨o, ho, hin, hout⟩ := exists_overlap _ _ _ _ hpiece (by omega) h1 hlt
      rw [writeFilePart_overlap, ho] at hfirst
      obtain ⟨tw2, henter, _⟩ := Option.map_eq_some_iff.mp hfirst
      refine ⟨⟨o.inPiece.toNat, o.bytes.toNat, tw2.out.accepted (o.data data)⟩,
        List.mem_append_left _ ?_, hin, hout⟩
      rw [Option.mem_toList, filePartCall, ho]
      simp only [Option.bind_eq_bind, Option.bind_some, henter]
      rfl
    · obtain ⟨c, hc, hasks⟩ := filePartCalls_cover hpiece hrest (by omega) (by omega) (by omega)
      exact ⟨c, List.mem_append_right _ hc, hasks⟩

/-- A write of a piece has a call for each of its bytes. -/
theorem Output.Fits.cover {out out' : Output} {i : UInt32} {buf : Bytes} (htiled : Tiled tor)
    (hpl : 0 < tor.pieceLength.toNat) (hi : i < tor.numPieces) (h : out.Fits tor)
    (hwrite : out.write i buf (pieceSize tor i) = some out') {k : Nat}
    (hk : k < (pieceSize tor i).toNat) :
    ∃ c ∈ out.calls i buf (pieceSize tor i), c.Asks k := by
  have htiles := (tiles_blocks_iff hpl).mpr htiled.numPieces_eq
  have hend : i.toNat * tor.pieceLength.toNat + tor.sizeOf i.toNat ≤ tor.totalLength.toNat :=
    htiles.end_le_total (UInt32.lt_iff_toNat_lt.mp hi)
  have hsize := toNat_pieceSize hpl hi
  have hsum := htiled.sum_lengths
  have htotal := tor.totalLength.toNat_lt
  have hinside : i.toNat * tor.pieceLength.toNat + k <
      0 + (tor.files.map fun f => f.length.toNat).sum := by omega
  have hstart := toNat_pieceStart i tor.pieceLength
  have hstop := toNat_pieceEnd i tor.pieceLength (pieceSize tor i)
  cases out with
  | tar tw =>
    obtain ⟨tw', hpiece, _⟩ := Option.map_eq_some_iff.mp hwrite
    obtain rfl : tw.tor = tor := h
    exact filePartCalls_cover (by omega) hpiece (by rw [UInt64.toNat_zero]; omega)
      (by rw [UInt64.toNat_zero]; omega) (by rw [UInt64.toNat_zero]; omega)
  | storage st =>
    obtain ⟨hlength, hfiles⟩ := h
    obtain ⟨p, hp, h1, h2⟩ := exists_mem_place tor.files (i := 0) (Nat.zero_le _) hinside
    have hbounds := (place_bounds hp).2.2.2.1
    have hmem : (p.start, p.size) ∈
        st.files.map fun fi => (fi.offset.toNat, fi.length.toNat) :=
      hfiles ▸ List.mem_map_of_mem hp
    obtain ⟨fi, hfi, heq⟩ := List.mem_map.mp hmem
    obtain ⟨hoffset, hsize'⟩ := Prod.mk.inj heq
    rw [Placed.stop] at h2 hbounds
    obtain ⟨o, ho, hin, hout⟩ := exists_overlap (i.toUInt64 * tor.pieceLength.toUInt64)
      (i.toUInt64 * tor.pieceLength.toUInt64 + (pieceSize tor i).toUInt64) fi.offset fi.length
      (k := k) (by omega) (by omega) (by omega) (by omega)
    refine ⟨⟨o.inPiece.toNat, o.bytes.toNat, fi.fp.accepted o.inFile (o.data buf)⟩,
      List.mem_filterMap.mpr ⟨fi, hfi, ?_⟩, hin, hout⟩
    rw [FileInfo.call, hlength, ho]
    rfl

/-! ## Histories -/

theorem Output.Fits.replay {out : Output} (h : out.Fits tor) (log : List Event) :
    ∀ {out' : Output}, (replay tor out log).1 = some out' → out'.Fits tor := by
  induction log with
  | nil =>
    intro out' hreplay
    exact Option.some.inj hreplay ▸ h
  | cons e log ih =>
    cases e with
    | head _ _ => exact ih
    | handed i buf =>
      intro out' hreplay
      rcases replay_handed_cases tor out i buf log with ⟨out1, out2, hout, hwrite, heq⟩ | heq
      · rw [heq] at hreplay
        exact Option.some.inj hreplay ▸ (ih hout).write hwrite
      · rw [heq] at hreplay
        cases hreplay

/-- Each piece that a history wrote had a call for each of its bytes. -/
theorem replay_cover {out : Output} (htiled : Tiled tor) (hpl : 0 < tor.pieceLength.toNat)
    (h : out.Fits tor) : ∀ (log : List Event) {x : UInt32 × List DataCall},
    x ∈ (replay tor out log).2 → x.1 < tor.numPieces →
    ∀ k < (pieceSize tor x.1).toNat, ∃ c ∈ x.2, c.Asks k
  | [], _, hx, _ => absurd hx List.not_mem_nil
  | .head _ _ :: log, _, hx, hlt => replay_cover htiled hpl h log hx hlt
  | .handed i buf :: log, x, hx, hlt => by
    rcases replay_handed_cases tor out i buf log with ⟨out1, out', hout, hwrite, heq⟩ | heq
    · rw [heq] at hx
      rcases List.mem_cons.mp hx with rfl | hx
      · exact fun k hk => (h.replay log hout).cover htiled hpl hlt hwrite hk
      · exact replay_cover htiled hpl h log hx hlt
    · rw [heq] at hx
      exact replay_cover htiled hpl h log hx hlt

/-- In a run for a torrent with consistent geometry, on an output that was opened for it, all
data are accepted exactly if no call fails or is short. -/
theorem run_noFailure_iff (sha1 : Bytes → Bytes) (peers : List PeerT) (myPeerId : Bytes)
    (env : Surroundings) {out : Output} (htiled : Tiled tor) (hpl : 0 < tor.pieceLength.toNat)
    (h : out.Fits tor) :
    NoFailure tor out (run sha1 tor peers myPeerId env out).2.log ↔
      ∀ x ∈ (replay tor out (run sha1 tor peers myPeerId env out).2.log).2,
        ∀ c ∈ x.2, c.taken = c.asked := by
  have hlast := (run_tallied sha1 tor peers myPeerId env out).1.last
  constructor
  · exact fun hno x hx => (hno x hx).1
  · intro hall x hx
    have hlt := hlast.lt x.1 (List.mem_map_of_mem hx)
    exact ⟨hall x hx, replay_cover htiled hpl h _ hx hlt⟩

/-- For a torrent with consistent geometry, on an output that was opened for it, what a run
reports is true exactly if no call for its data fails or is short. -/
theorem success_real_opened (sha1 : Bytes → Bytes) (peers : List PeerT) (myPeerId : Bytes)
    (env : Surroundings) {out : Output} (htiled : Tiled tor) (hpl : 0 < tor.pieceLength.toNat)
    (hopened : out.Opened tor) :
    SuccessReal tor out (run sha1 tor peers myPeerId env out) ↔
      ∀ x ∈ (replay tor out (run sha1 tor peers myPeerId env out).2.log).2,
        ∀ c ∈ x.2, c.taken = c.asked := by
  obtain ⟨htally, hleft⟩ := run_tallied sha1 tor peers myPeerId env out
  exact (htally.successReal_iff hleft).trans
    (run_noFailure_iff sha1 peers myPeerId env htiled hpl (hopened.fits htiled))

end Fits

/-- A torrent of two files of one byte each. -/
def twoFileTorrent : TorrentT :=
  { byteTorrent [7, 8] with files := [⟨[ascii "a"], 1⟩, ⟨[ascii "b"], 1⟩] }

/-- The storage that is opened for it in the directory `out`. -/
def twoFileStorage : Storage where
  files := [⟨ascii "out/a", 0, 1, ⟨[], []⟩⟩, ⟨ascii "out/b", 1, 1, ⟨[], []⟩⟩]
  totalLength := 2
  pieceLength := 1
  extractDir := some (ascii "out")

/-- A file system on which the first `fseek` of the second file fails. -/
def brokenSecond : Fs where
  mkdir _ _ := true
  fopen _ path := some (if path = ascii "out/b" then [none] else [])

/-- The storage that is opened there. -/
def brokenSecondStorage : Storage where
  files := [⟨ascii "out/a", 0, 1, ⟨[], []⟩⟩, ⟨ascii "out/b", 1, 1, ⟨[], [none]⟩⟩]
  totalLength := 2
  pieceLength := 1
  extractDir := some (ascii "out")

/-- Both pieces come; without a failure they are on disk, and with the failing call the second one
is reported and is not. -/
theorem success_real_opened_two :
    SuccessReal twoFileTorrent (.storage twoFileStorage)
      (run Sha1.sha1 twoFileTorrent [⟨0, 0⟩, ⟨0, 0⟩] []
        ⟨none, [some firstBytePeer, some secondBytePeer], fun _ _ => 0⟩
        (.storage twoFileStorage)) ∧
    ¬SuccessReal twoFileTorrent (.storage brokenSecondStorage)
      (run Sha1.sha1 twoFileTorrent [⟨0, 0⟩, ⟨0, 0⟩] []
        ⟨none, [some firstBytePeer, some secondBytePeer], fun _ _ => 0⟩
        (.storage brokenSecondStorage)) := by
  have htiled : Tiled twoFileTorrent := ⟨by decide, by decide⟩
  have hopen : storageOpen .reliable ⟨none, some (ascii "out")⟩ twoFileTorrent =
      (.opened twoFileStorage, [.mkdir (ascii "out"), .fopen (ascii "out/a"), .mkdir (ascii "out"),
        .fopen (ascii "out/b")]) := by decide +kernel
  have hbroken : storageOpen brokenSecond ⟨none, some (ascii "out")⟩ twoFileTorrent =
      (.opened brokenSecondStorage, [.mkdir (ascii "out"), .fopen (ascii "out/a"),
        .mkdir (ascii "out"), .fopen (ascii "out/b")]) := by decide +kernel
  have hcalls : (replay twoFileTorrent (.storage twoFileStorage)
      (run Sha1.sha1 twoFileTorrent [⟨0, 0⟩, ⟨0, 0⟩] []
        ⟨none, [some firstBytePeer, some secondBytePeer], fun _ _ => 0⟩
        (.storage twoFileStorage)).2.log).2 = [(1, [⟨0, 1, 1⟩]), (0, [⟨0, 1, 1⟩])] := by
    decide +kernel
  have hcalls' : (replay twoFileTorrent (.storage brokenSecondStorage)
      (run Sha1.sha1 twoFileTorrent [⟨0, 0⟩, ⟨0, 0⟩] []
        ⟨none, [some firstBytePeer, some secondBytePeer], fun _ _ => 0⟩
        (.storage brokenSecondStorage)).2.log).2 = [(1, [⟨0, 1, 0⟩]), (0, [⟨0, 1, 1⟩])] := by
    decide +kernel
  rw [success_real_opened Sha1.sha1 _ _ _ htiled (by decide) (.storage hopen), hcalls,
    success_real_opened Sha1.sha1 _ _ _ htiled (by decide) (.storage hbroken), hcalls']
  exact ⟨by decide, by decide⟩

end CourseWork.Torrent
