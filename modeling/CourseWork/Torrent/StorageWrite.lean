import CourseWork.Torrent.Overlap

/-!
# Pieces written in any order

`storage_write` puts every piece where it belongs, whatever files it spans, so that the
files hold the payload once every piece was written, in whatever order.
-/

namespace CourseWork.Torrent
open CLib SparseFile Tiling

/-! ## One file -/

/-- What does not change in a file, and the bytes at the positions `k` of the payload
outside of `[lo, hi)`. -/
structure UnchangedOutside (lo hi : Nat) (f f' : FileInfo) : Prop where
  fullPath : f'.fullPath = f.fullPath
  offset : f'.offset = f.offset
  length : f'.length = f.length
  bytes : ∀ k, k < f.fp.bytes.length → f.offset.toNat + k < lo ∨ hi ≤ f.offset.toNat + k →
    f'.fp.bytes[k]? = f.fp.bytes[k]?
  hole : ∀ k, f.offset.toNat + k < lo ∨ hi ≤ f.offset.toNat + k →
    f'.fp.bytes[k]?.getD 0 = f.fp.bytes[k]?.getD 0

theorem UnchangedOutside.refl (lo hi : Nat) (f : FileInfo) : UnchangedOutside lo hi f f :=
  ⟨rfl, rfl, rfl, fun _ _ _ => rfl, fun _ _ => rfl⟩

/-- The outcomes of a write only shorten the data. -/
theorem DiskFile.writeAt_bytes (f : DiskFile) (pos : UInt64) (data : Bytes) :
    ∃ n, (f.writeAt pos data).bytes = SparseFile.writeAt 0 f.bytes pos.toNat (data.take n) := by
  unfold DiskFile.writeAt
  split
  · exact ⟨0, rfl⟩
  · next n _ =>
    split
    · exact ⟨n, rfl⟩
    · exact ⟨0, rfl⟩

/-- Whatever the outcome, a piece only changes bytes in its own range. -/
theorem writeOverlap_unchanged (pieceStart pieceEnd : UInt64) (data : Bytes) (fi : FileInfo) :
    UnchangedOutside pieceStart.toNat pieceEnd.toNat fi
      (writeOverlap pieceStart pieceEnd data fi) := by
  rw [writeOverlap_overlap]
  split
  · next o ho =>
    obtain ⟨_, hfile, _, hbytes⟩ := overlap_some ho
    obtain ⟨n, hwrite⟩ := fi.fp.writeAt_bytes o.inFile (o.data data)
    -- However much was written, it lies inside of the overlap.
    have hout : ∀ k, fi.offset.toNat + k < pieceStart.toNat ∨
        pieceEnd.toNat ≤ fi.offset.toNat + k →
        k < o.inFile.toNat ∨ o.inFile.toNat + ((o.data data).take n).length ≤ k := by
      intro k hk
      simp only [Overlap.data, List.length_take]
      omega
    refine ⟨rfl, rfl, rfl, fun k hlt hk => ?_, fun k hk => ?_⟩
    · show (fi.fp.writeAt _ _).bytes[k]? = _
      rw [hwrite, getElem?_writeAt_of_lt hlt (hout k hk)]
    · show (fi.fp.writeAt _ _).bytes[k]?.getD 0 = _
      rw [hwrite, getD_writeAt_of_notMem (hout k hk)]
  · exact .refl _ _ _

/-! ## Part of a payload in a file -/

/-- The part of the payload that belongs into a file. -/
def FileInfo.part (payload : Bytes) (fi : FileInfo) : Bytes :=
  (payload.drop fi.offset.toNat).take fi.length.toNat

/-- The file once it holds all of its part. -/
def FileInfo.filled (payload : Bytes) (fi : FileInfo) : FileInfo :=
  { fi with fp := ⟨fi.part payload, []⟩ }

/-- The file lies in the payload, no later operation on it fails, and it holds its part
at the payload positions `S`. -/
structure FileHolds (payload : Bytes) (S : Nat → Prop) (fi : FileInfo) : Prop where
  inside : fi.offset.toNat + fi.length.toNat ≤ payload.length
  reliable : fi.fp.outcomes = []
  holds : Holds (fi.part payload) fi.fp.bytes fun k => S (fi.offset.toNat + k)

theorem FileInfo.length_part {payload : Bytes} {fi : FileInfo}
    (h : fi.offset.toNat + fi.length.toNat ≤ payload.length) :
    (fi.part payload).length = fi.length.toNat := by
  rw [FileInfo.part, List.length_take, List.length_drop]
  omega

theorem DiskFile.writeAt_reliable {f : DiskFile} (h : f.outcomes = []) {pos : UInt64}
    (hpos : pos.toNat < 2 ^ 63) (data : Bytes) :
    f.writeAt pos data = ⟨SparseFile.writeAt 0 f.bytes pos.toNat data, []⟩ := by
  simp only [DiskFile.writeAt, h, List.headD_nil, if_pos hpos, List.take_length, List.tail_nil]

/-- Writing a slice of the payload fills in its range. -/
theorem FileHolds.write {payload : Bytes} {S : Nat → Prop} {fi : FileInfo}
    (h : FileHolds payload S fi) (hpayload : payload.length < 2 ^ 64)
    (hlength : fi.length.toNat ≤ 2 ^ 63)
    (pieceStart pieceEnd : UInt64) (hend : pieceEnd.toNat ≤ payload.length)
    (hle : pieceStart.toNat ≤ pieceEnd.toNat) :
    FileHolds payload (fun x => S x ∨ pieceStart.toNat ≤ x ∧ x < pieceEnd.toNat)
      (writeOverlap pieceStart pieceEnd
        ((payload.drop pieceStart.toNat).take (pieceEnd.toNat - pieceStart.toNat)) fi) := by
  have hin := h.inside
  have hstop := toNat_add_of_lt (show fi.offset.toNat + fi.length.toNat < 2 ^ 64 by omega)
  have hlen := FileInfo.length_part hin
  rw [writeOverlap_overlap]
  split
  · next o ho =>
    obtain ⟨hlt, hfile, hpiece, hbytes⟩ := overlap_some ho
    rw [hstop] at hlt hbytes
    -- The same slice, taken from the piece and from the file.
    have hdata : o.data ((payload.drop pieceStart.toNat).take
        (pieceEnd.toNat - pieceStart.toNat)) =
          ((fi.part payload).drop o.inFile.toNat).take o.bytes.toNat := by
      rw [Overlap.data, slice_slice _ (by omega), FileInfo.part, slice_slice _ (by omega)]
      congr 2
      omega
    refine ⟨hin, ?_, ?_⟩
    · show (fi.fp.writeAt _ _).outcomes = []
      rw [DiskFile.writeAt_reliable h.reliable (by omega)]
    · show Holds (fi.part payload) (fi.fp.writeAt _ _).bytes _
      rw [DiskFile.writeAt_reliable h.reliable (by omega), hdata]
      refine (h.holds.write 0 (by omega)).mono fun k hk hS => ?_
      rcases hS with hS | hS
      · exact .inl hS
      · have hmem : pieceStart.toNat ≤ fi.offset.toNat + k ∧
          fi.offset.toNat + k < pieceEnd.toNat := hS
        exact .inr (by omega)
  · next ho =>
    have hover := overlap_none ho
    rw [hstop] at hover
    refine ⟨hin, h.reliable, h.holds.mono fun k hk hS => ?_⟩
    rcases hS with hS | hS
    · exact hS
    · have hmem : pieceStart.toNat ≤ fi.offset.toNat + k ∧
        fi.offset.toNat + k < pieceEnd.toNat := hS
      omega

/-! ## Offsets of pieces -/

/-- Where piece `i` starts. -/
def pieceStart (tor : TorrentT) (i : UInt32) : Nat := i.toNat * tor.pieceLength.toNat

/-- The start of a piece does not wrap in 64 bits. -/
theorem toNat_pieceStart (i pieceLength : UInt32) :
    (i.toUInt64 * pieceLength.toUInt64).toNat = i.toNat * pieceLength.toNat := by
  have hmul : i.toNat * pieceLength.toNat ≤ (2 ^ 32 - 1) * (2 ^ 32 - 1) :=
    Nat.mul_le_mul (Nat.le_pred_of_lt i.toNat_lt) (Nat.le_pred_of_lt pieceLength.toNat_lt)
  rw [UInt64.toNat_mul, UInt32.toNat_toUInt64, UInt32.toNat_toUInt64]
  exact Nat.mod_eq_of_lt (by omega)

/-- Nor does its end. -/
theorem toNat_pieceEnd (i pieceLength len : UInt32) :
    (i.toUInt64 * pieceLength.toUInt64 + len.toUInt64).toNat =
      i.toNat * pieceLength.toNat + len.toNat := by
  have hmul : i.toNat * pieceLength.toNat ≤ (2 ^ 32 - 1) * (2 ^ 32 - 1) :=
    Nat.mul_le_mul (Nat.le_pred_of_lt i.toNat_lt) (Nat.le_pred_of_lt pieceLength.toNat_lt)
  have hlen := len.toNat_lt
  rw [UInt64.toNat_add, toNat_pieceStart, UInt32.toNat_toUInt64]
  exact Nat.mod_eq_of_lt (by omega)

/-! ## All files, all pieces -/

/-- A piece of a payload. -/
def pieceOf (tor : TorrentT) (payload : Bytes) (i : UInt32) : Bytes :=
  (payload.drop (i.toNat * tor.pieceLength.toNat)).take (pieceSize tor i).toNat

/-- `storage_write` of the pieces of a payload in some order. -/
def writePieces (tor : TorrentT) (payload : Bytes) (order : List UInt32) (st : Storage) :
    Storage :=
  order.foldl (fun st i => storageWrite st i (pieceOf tor payload i) (pieceSize tor i)) st

/-- The pieces of the torrent tile a payload of its total length. -/
structure Geometric (tor : TorrentT) (payload : Bytes) : Prop where
  pieceLength_pos : 0 < tor.pieceLength.toNat
  length_payload : payload.length = tor.totalLength.toNat
  totalLength_lt : tor.totalLength.toNat < 2 ^ 63
  sum_lengths : (tor.files.map fun f => f.length.toNat).sum = tor.totalLength.toNat
  numPieces_eq : tor.numPieces.toNat =
    (tor.totalLength.toNat + tor.pieceLength.toNat - 1) / tor.pieceLength.toNat

/-- The same for a total of any length. -/
structure Layout (tor : TorrentT) (payload : Bytes) : Prop where
  pieceLength_pos : 0 < tor.pieceLength.toNat
  length_payload : payload.length = tor.totalLength.toNat
  sum_lengths : (tor.files.map fun f => f.length.toNat).sum = tor.totalLength.toNat
  numPieces_eq : tor.numPieces.toNat =
    (tor.totalLength.toNat + tor.pieceLength.toNat - 1) / tor.pieceLength.toNat

theorem Geometric.layout {tor : TorrentT} {payload : Bytes} (h : Geometric tor payload) :
    Layout tor payload :=
  ⟨h.pieceLength_pos, h.length_payload, h.sum_lengths, h.numPieces_eq⟩

theorem Layout.tiles {tor : TorrentT} {payload : Bytes} (h : Layout tor payload) :
    Tiles (· * tor.pieceLength.toNat) tor.sizeOf tor.numPieces.toNat payload.length := by
  rw [h.length_payload]
  exact (tiles_blocks_iff h.pieceLength_pos).mpr h.numPieces_eq

/-- Pieces with a common position are the same. -/
theorem Layout.eq_of_common {tor : TorrentT} {payload : Bytes} (h : Layout tor payload)
    {i j : UInt32} (hi : i < tor.numPieces) (hj : j < tor.numPieces) {y : Nat}
    (h1 : pieceStart tor i ≤ y) (h2 : y < pieceStart tor i + (pieceSize tor i).toNat)
    (h3 : pieceStart tor j ≤ y) (h4 : y < pieceStart tor j + (pieceSize tor j).toNat) :
    i = j := by
  rw [toNat_pieceSize h.pieceLength_pos hi] at h2
  rw [toNat_pieceSize h.pieceLength_pos hj] at h4
  exact UInt32.toNat_inj.mp (h.tiles.unique (UInt32.lt_iff_toNat_lt.mp hi)
    (UInt32.lt_iff_toNat_lt.mp hj) h1 h2 h3 h4)

/-- Every position of the payload lies in a piece. -/
theorem Layout.exists_piece {tor : TorrentT} {payload : Bytes} (h : Layout tor payload)
    {y : Nat} (hy : y < payload.length) :
    ∃ i, i < tor.numPieces ∧ pieceStart tor i ≤ y ∧
      y < pieceStart tor i + (pieceSize tor i).toNat := by
  obtain ⟨k, hk, h1, h2⟩ := h.tiles.cover hy
  obtain ⟨hk', hlt⟩ := pieceIndex_lt hk
  refine ⟨UInt32.ofNat k, hlt, ?_⟩
  rw [toNat_pieceSize h.pieceLength_pos hlt, pieceStart, hk']
  exact ⟨h1, h2⟩

theorem Layout.pieceSize_pos {tor : TorrentT} {payload : Bytes} (h : Layout tor payload)
    {i : UInt32} (hi : i < tor.numPieces) : 0 < (pieceSize tor i).toNat := by
  rw [toNat_pieceSize h.pieceLength_pos hi]
  exact tor.sizeOf_pos h.pieceLength_pos _

/-- The position `x` of the payload lies in one of the pieces. -/
def InPieces (tor : TorrentT) (done : List UInt32) (x : Nat) : Prop :=
  ∃ i ∈ done, i.toNat * tor.pieceLength.toNat ≤ x ∧
    x < i.toNat * tor.pieceLength.toNat + (pieceSize tor i).toNat

/-- The state of the storage after the pieces `done`. -/
structure StorageHolds (tor : TorrentT) (payload : Bytes) (done : List UInt32)
    (files : List FileInfo) (st : Storage) : Prop where
  pieceLength : st.pieceLength = tor.pieceLength
  holds : ∀ fi ∈ st.files, FileHolds payload (InPieces tor done) fi
  filled : st.files.map (·.filled payload) = files.map (·.filled payload)

theorem filled_writeOverlap (payload : Bytes) (pieceStart pieceEnd : UInt64) (data : Bytes)
    (fi : FileInfo) :
    (writeOverlap pieceStart pieceEnd data fi).filled payload = fi.filled payload := by
  have h := writeOverlap_unchanged pieceStart pieceEnd data fi
  simp only [FileInfo.filled, FileInfo.part, h.fullPath, h.offset, h.length]

/-- Writing changes no length. -/
theorem StorageHolds.length_le {tor : TorrentT} {payload : Bytes} {done : List UInt32}
    {files : List FileInfo} {st : Storage} (h : StorageHolds tor payload done files st)
    (hlengths : ∀ fi ∈ files, fi.length.toNat ≤ 2 ^ 63) {fi : FileInfo} (hfi : fi ∈ st.files) :
    fi.length.toNat ≤ 2 ^ 63 := by
  have hmem : fi.filled payload ∈ files.map (·.filled payload) :=
    h.filled ▸ List.mem_map_of_mem hfi
  obtain ⟨g, hg, heq⟩ := List.mem_map.mp hmem
  have hlength : (g.filled payload).length = (fi.filled payload).length := by rw [heq]
  exact (show g.length = fi.length from hlength) ▸ hlengths g hg

/-- One `storage_write` of a piece of the payload. -/
theorem StorageHolds.write {tor : TorrentT} {payload : Bytes} {done : List UInt32}
    {files : List FileInfo} {st : Storage} (hgeo : Layout tor payload)
    (hlengths : ∀ fi ∈ files, fi.length.toNat ≤ 2 ^ 63)
    (h : StorageHolds tor payload done files st) {i : UInt32} (hi : i < tor.numPieces) :
    StorageHolds tor payload (i :: done) files
      (storageWrite st i (pieceOf tor payload i) (pieceSize tor i)) := by
  have hsize := toNat_pieceSize hgeo.pieceLength_pos hi
  have hend := hgeo.tiles.end_le_total (UInt32.lt_iff_toNat_lt.mp hi)
  have hlen := hgeo.length_payload
  have hlt := tor.totalLength.toNat_lt
  have hstart : (i.toUInt64 * st.pieceLength.toUInt64).toNat =
      i.toNat * tor.pieceLength.toNat := by rw [toNat_pieceStart, h.pieceLength]
  have hstop : (i.toUInt64 * st.pieceLength.toUInt64 + (pieceSize tor i).toUInt64).toNat =
      i.toNat * tor.pieceLength.toNat + (pieceSize tor i).toNat := by
    rw [toNat_pieceEnd, h.pieceLength]
  refine ⟨h.pieceLength, ?_, ?_⟩
  · intro fi hfi
    obtain ⟨fi, hmem, rfl⟩ := List.mem_map.mp hfi
    have hw := (h.holds fi hmem).write (by omega) (h.length_le hlengths hmem)
      (i.toUInt64 * st.pieceLength.toUInt64)
      (i.toUInt64 * st.pieceLength.toUInt64 + (pieceSize tor i).toUInt64)
      (by rw [hstop, hsize]; exact hend) (by omega)
    rw [hstart, hstop, Nat.add_sub_cancel_left] at hw
    refine ⟨hw.inside, hw.reliable, hw.holds.mono fun k _ hk => ?_⟩
    obtain ⟨j, hj, hjk⟩ := hk
    rcases List.mem_cons.mp hj with rfl | hj
    · exact .inr hjk
    · exact .inl ⟨j, hj, hjk⟩
  · rw [← h.filled]
    show (st.files.map _).map _ = _
    rw [List.map_map]
    exact List.map_congr_left fun fi _ => filled_writeOverlap _ _ _ _ _

/-- A run of `storage_write` over some pieces. -/
theorem StorageHolds.writePieces {tor : TorrentT} {payload : Bytes} {files : List FileInfo}
    (hgeo : Layout tor payload) (hlengths : ∀ fi ∈ files, fi.length.toNat ≤ 2 ^ 63)
    (order : List UInt32) :
    ∀ {done : List UInt32} {st : Storage}, StorageHolds tor payload done files st →
      (∀ i ∈ order, i < tor.numPieces) →
      StorageHolds tor payload (order.reverse ++ done) files (writePieces tor payload order st) := by
  induction order with
  | nil => exact fun h _ => h
  | cons i order ih =>
    intro done st h horder
    rw [List.reverse_cons, List.append_assoc]
    exact ih (h.write hgeo hlengths (horder i List.mem_cons_self))
      fun j hj => horder j (List.mem_cons_of_mem _ hj)

/-- After all pieces every file holds its part. -/
theorem StorageHolds.files_eq {tor : TorrentT} {payload : Bytes} {done : List UInt32}
    {files : List FileInfo} {st : Storage} (hgeo : Layout tor payload)
    (h : StorageHolds tor payload done files st) (hdone : ∀ i, i < tor.numPieces → i ∈ done) :
    st.files = files.map (·.filled payload) := by
  rw [← h.filled]
  refine (List.map_id st.files).symm.trans (List.map_congr_left fun fi hfi => ?_)
  have hfile := h.holds fi hfi
  have hbytes := hfile.holds.eq fun k hk => by
    rw [FileInfo.length_part hfile.inside] at hk
    have hin := hfile.inside
    obtain ⟨i, hi, h1, h2⟩ := hgeo.exists_piece (y := fi.offset.toNat + k) (by omega)
    exact ⟨i, hdone i hi, h1, h2⟩
  have hfp : DiskFile.mk (fi.part payload) [] = fi.fp := DiskFile.ext hbytes.symm hfile.reliable.symm
  show fi = fi.filled payload
  rw [FileInfo.filled, hfp]

/-! ## From `storage_open` -/

/-- The files lie one behind the other, from offset `o` on. -/
def Consecutive : Nat → List FileInfo → Prop
  | _, [] => True
  | o, fi :: files => fi.offset.toNat = o ∧ Consecutive (o + fi.length.toNat) files

/-- `storage_open` lays the files out one behind the other, all of them empty. -/
theorem openFiles_layout {fs : Fs} {extractDir : Option Bytes} : ∀ {tfs : List FileT}
    {calls calls' : List FsCall} {o : UInt64} {files : List FileInfo},
    openFiles fs extractDir calls o tfs = (.opened files, calls') →
    o.toNat + (tfs.map fun f => f.length.toNat).sum < 2 ^ 64 →
    Consecutive o.toNat files ∧ files.map (·.length) = tfs.map (·.length) ∧
      ∀ fi ∈ files, fi.fp.bytes = []
  | [], _, _, o, files, h, _ => by
    cases h
    exact ⟨trivial, rfl, fun _ h => nomatch h⟩
  | tf :: tfs, calls, calls', o, files, h, hsum => by
    rw [openFiles] at h
    rw [List.map_cons, List.sum_cons] at hsum
    split at h
    · exact nomatch h
    · exact nomatch h
    · dsimp only at h
      split at h
      · exact nomatch h
      · split at h
        · next files' calls2 hrest =>
          cases h
          have hoff := toNat_add_of_lt (show o.toNat + tf.length.toNat < 2 ^ 64 by omega)
          obtain ⟨hcons, hlengths, hempty⟩ := openFiles_layout hrest (by omega)
          rw [hoff] at hcons
          refine ⟨⟨rfl, hcons⟩, by rw [List.map_cons, List.map_cons, hlengths], ?_⟩
          intro fi hfi
          rcases List.mem_cons.mp hfi with rfl | hfi
          · rfl
          · exact hempty fi hfi
        · exact nomatch h
        · exact nomatch h

theorem storageOpen_layout {fs : Fs} {cfg : Config} {tor : TorrentT} {st : Storage}
    {calls : List FsCall} (h : storageOpen fs cfg tor = (.opened st, calls))
    (hsum : (tor.files.map fun f => f.length.toNat).sum < 2 ^ 64) :
    st.pieceLength = tor.pieceLength ∧ Consecutive 0 st.files ∧
      st.files.map (·.length) = tor.files.map (·.length) ∧ ∀ fi ∈ st.files, fi.fp.bytes = [] := by
  unfold storageOpen at h
  split at h
  · exact nomatch h
  · split at h
    · next files calls' hopen =>
      cases h
      exact ⟨rfl, openFiles_layout hopen (by rwa [UInt64.toNat_zero, Nat.zero_add])⟩
    · exact nomatch h
    · exact nomatch h

/-- The storage opens the files of the torrent in their order. -/
theorem openFiles_placed {fs : Fs} {extractDir : Option Bytes} : ∀ {tfs : List FileT}
    {calls calls' : List FsCall} {i : Nat} {o : UInt64} {files : List FileInfo},
    openFiles fs extractDir calls o tfs = (.opened files, calls') →
    o.toNat + (tfs.map fun f => f.length.toNat).sum < 2 ^ 64 →
    files.map (fun fi => (fi.fullPath, fi.offset.toNat, fi.length.toNat)) =
      (place (fun f => f.length.toNat) i o.toNat tfs).map fun p =>
        (fullPath extractDir p.item.path, p.start, p.size)
  | [], _, _, _, _, _, h, _ => by
    cases h
    rfl
  | tf :: tfs, calls, calls', i, o, files, h, hsum => by
    rw [openFiles] at h
    rw [List.map_cons, List.sum_cons] at hsum
    split at h
    · exact nomatch h
    · exact nomatch h
    · dsimp only at h
      split at h
      · exact nomatch h
      · split at h
        · next files' calls2 hrest =>
          cases h
          have hoff := toNat_add_of_lt (show o.toNat + tf.length.toNat < 2 ^ 64 by omega)
          have ih := openFiles_placed (i := i + 1) hrest (by omega)
          rw [hoff] at ih
          rw [List.map_cons, place, List.map_cons, ih]
        · exact nomatch h
        · exact nomatch h

theorem storageOpen_placed {fs : Fs} {cfg : Config} {tor : TorrentT} {st : Storage}
    {calls : List FsCall} (h : storageOpen fs cfg tor = (.opened st, calls))
    (hsum : (tor.files.map fun f => f.length.toNat).sum < 2 ^ 64) :
    st.files.map (fun fi => (fi.fullPath, fi.offset.toNat, fi.length.toNat)) =
      (place (fun f => f.length.toNat) 0 0 tor.files).map fun p =>
        (fullPath cfg.extractDir p.item.path, p.start, p.size) := by
  unfold storageOpen at h
  split at h
  · exact nomatch h
  · split at h
    · next files calls' hopen =>
      cases h
      exact openFiles_placed hopen (by rwa [UInt64.toNat_zero, Nat.zero_add])
    · exact nomatch h
    · exact nomatch h

/-- The parts of files one behind the other concatenate to the payload. -/
theorem Consecutive.flatten_parts (payload : Bytes) : ∀ {files : List FileInfo} {o : Nat},
    Consecutive o files → o + (files.map fun fi => fi.length.toNat).sum = payload.length →
    (∀ fi ∈ files, fi.offset.toNat + fi.length.toNat ≤ payload.length) ∧
    (files.map (·.part payload)).flatten = payload.drop o
  | [], o, _, hsum => by
    refine ⟨fun _ hfi => absurd hfi List.not_mem_nil, ?_⟩
    rw [List.map_nil, List.sum_nil] at hsum
    rw [List.drop_of_length_le (by omega)]
    rfl
  | fi :: files, o, ⟨ho, hcons⟩, hsum => by
    rw [List.map_cons, List.sum_cons] at hsum
    obtain ⟨hin, hparts⟩ := hcons.flatten_parts payload (by omega)
    constructor
    · intro fi' hfi'
      rcases List.mem_cons.mp hfi' with rfl | hfi'
      · omega
      · exact hin fi' hfi'
    · rw [List.map_cons, List.flatten_cons, hparts, FileInfo.part, ho, ← List.drop_drop,
        List.take_append_drop]

/-- The pieces concatenate to the payload. -/
theorem Layout.flatten_pieces {tor : TorrentT} {payload : Bytes} (h : Layout tor payload) :
    ((pieceIndices tor).map (pieceOf tor payload)).flatten = payload := by
  refine Eq.trans (congrArg List.flatten ?_) h.tiles.flatten_slices
  rw [pieceIndices, List.map_map]
  refine List.map_congr_left fun i hi => ?_
  obtain ⟨hi', hmem⟩ := pieceIndex_lt (List.mem_range.mp hi)
  rw [Function.comp_apply, pieceOf, toNat_pieceSize h.pieceLength_pos hmem, hi']

/-! ## The storage reconstructs the payload -/

/-- The files after all pieces were written in the order `order`: each of its declared
length, together the concatenation of the pieces, the same as in any other order. -/
structure Reconstructs (tor : TorrentT) (payload : Bytes) (order : List UInt32)
    (st : Storage) : Prop where
  lengths : (writePieces tor payload order st).files.map (fun fi => fi.fp.bytes.length) =
    tor.files.map fun f => f.length.toNat
  contents : ((writePieces tor payload order st).files.map (·.fp.bytes)).flatten =
    ((pieceIndices tor).map (pieceOf tor payload)).flatten
  anyOrder : ∀ order', order'.Perm (pieceIndices tor) →
    writePieces tor payload order' st = writePieces tor payload order st

/-- A `storage_write` of piece `i` leaves every byte outside of the range of the piece. -/
def WritesOwnRange (tor : TorrentT) : Prop :=
  ∀ (st : Storage) (i : UInt32) (data : Bytes) (len : UInt32),
    st.pieceLength = tor.pieceLength →
    List.Forall₂ (UnchangedOutside (i.toNat * tor.pieceLength.toNat)
      (i.toNat * tor.pieceLength.toNat + len.toNat)) st.files (storageWrite st i data len).files

theorem forall₂_map_right {α : Type} {R : α → α → Prop} {f : α → α} (h : ∀ x, R x (f x)) :
    ∀ l : List α, List.Forall₂ R l (l.map f)
  | [] => .nil
  | x :: l => .cons (h x) (forall₂_map_right h l)

theorem writesOwnRange (tor : TorrentT) : WritesOwnRange tor := by
  intro st i data len hpl
  rw [← hpl, ← toNat_pieceEnd, ← toNat_pieceStart]
  exact forall₂_map_right (fun fi => writeOverlap_unchanged _ _ _ fi) st.files

/-- The storage opened for a torrent holds nothing of the payload yet. -/
theorem storageOpen_holds {fs : Fs} {cfg : Config} {tor : TorrentT} {st : Storage}
    {calls : List FsCall} {payload : Bytes} (hgeo : Layout tor payload)
    (hopen : storageOpen fs cfg tor = (.opened st, calls))
    (hreliable : ∀ fi ∈ st.files, fi.fp.outcomes = []) :
    StorageHolds tor payload [] st.files st ∧
      st.files.map (fun fi => fi.length.toNat) = tor.files.map (fun f => f.length.toNat) ∧
      (st.files.map (·.part payload)).flatten = payload := by
  have hlen := hgeo.length_payload
  have hlt := tor.totalLength.toNat_lt
  have hsum := hgeo.sum_lengths
  obtain ⟨hpl, hcons, hlengths, hempty⟩ := storageOpen_layout hopen (by omega)
  have hlengths' : st.files.map (fun fi => fi.length.toNat) =
      tor.files.map fun f => f.length.toNat := by
    have := congrArg (List.map UInt64.toNat) hlengths
    rwa [List.map_map, List.map_map] at this
  obtain ⟨hin, hparts⟩ := hcons.flatten_parts payload (by rw [hlengths']; omega)
  refine ⟨⟨hpl, fun fi hfi => ⟨hin fi hfi, hreliable fi hfi, ?_⟩, rfl⟩, hlengths', hparts⟩
  rw [hempty fi hfi]
  exact (Holds.nil _).mono fun k _ ⟨i, hi, _⟩ => absurd hi List.not_mem_nil

/-- After all pieces, in whatever order, every file holds its part. -/
theorem StorageHolds.writePieces_files {tor : TorrentT} {payload : Bytes} {st : Storage}
    (hgeo : Layout tor payload) (hlengths : ∀ fi ∈ st.files, fi.length.toNat ≤ 2 ^ 63)
    (h : StorageHolds tor payload [] st.files st) {order : List UInt32}
    (horder : order.Perm (pieceIndices tor)) :
    (Torrent.writePieces tor payload order st).files = st.files.map (·.filled payload) := by
  have hrun := h.writePieces hgeo hlengths order
    fun i hi => mem_pieceIndices.mp (horder.mem_iff.mp hi)
  refine hrun.files_eq hgeo fun i hi => ?_
  rw [List.append_nil, List.mem_reverse]
  exact horder.mem_iff.mpr (mem_pieceIndices.mpr hi)

/-- Storage mode reconstructs the payload: after `storage_open`, writing all pieces in
any order leaves every file with its declared length and the files with the payload, and
no write touches a byte outside of its piece. -/
theorem storage_reconstructs (fs : Fs) (cfg : Config) (tor : TorrentT) (st : Storage)
    (calls : List FsCall) (payload : Bytes) (order : List UInt32)
    (hgeo : Geometric tor payload) (hopen : storageOpen fs cfg tor = (.opened st, calls))
    (hreliable : ∀ fi ∈ st.files, fi.fp.outcomes = [])
    (horder : order.Perm (pieceIndices tor)) :
    Reconstructs tor payload order st ∧ WritesOwnRange tor := by
  obtain ⟨hholds, hlengths, hparts⟩ := storageOpen_holds hgeo.layout hopen hreliable
  have hshort : ∀ fi ∈ st.files, fi.length.toNat ≤ 2 ^ 63 := by
    intro fi hfi
    have hin := (hholds.holds fi hfi).inside
    have hlen := hgeo.length_payload
    have hlt := hgeo.totalLength_lt
    omega
  have hfinal := fun (order' : List UInt32) (hperm : order'.Perm (pieceIndices tor)) =>
    hholds.writePieces_files hgeo.layout hshort hperm
  have hrest : ∀ (order' : List UInt32) (st' : Storage),
      writePieces tor payload order' st' =
        { st' with files := (writePieces tor payload order' st').files } := by
    intro order'
    induction order' with
    | nil => exact fun _ => rfl
    | cons i order' ih => exact fun st' => ih (storageWrite st' i _ _)
  refine ⟨⟨?_, ?_, fun order' hperm => ?_⟩, writesOwnRange tor⟩
  · rw [hfinal order horder, ← hlengths, List.map_map]
    exact List.map_congr_left fun fi hfi => FileInfo.length_part (hholds.holds fi hfi).inside
  · rw [hfinal order horder, List.map_map, hgeo.layout.flatten_pieces]
    exact hparts
  · rw [hrest order', hrest order, hfinal order' hperm, hfinal order horder]

/-- A torrent of three files, one of them empty, in two pieces. -/
def threeFiles : TorrentT where
  announce := none
  comment := none
  creationDate := 0
  createdBy := none
  infoHash := []
  name := none
  pieceLength := 2
  numPieces := 2
  pieces := []
  files := [⟨[ascii "a"], 1⟩, ⟨[ascii "b"], 0⟩, ⟨[ascii "c"], 2⟩]
  totalLength := 3

/-- The storage opened for it in the directory `out`. -/
def threeFilesStorage : Storage where
  files := [⟨ascii "out/a", 0, 1, ⟨[], []⟩⟩, ⟨ascii "out/b", 1, 0, ⟨[], []⟩⟩,
    ⟨ascii "out/c", 1, 2, ⟨[], []⟩⟩]
  totalLength := 3
  pieceLength := 2
  extractDir := some (ascii "out")

/-- The second piece first. -/
theorem storage_reconstructs_backwards :
    Reconstructs threeFiles [7, 8, 9] [1, 0] threeFilesStorage ∧ WritesOwnRange threeFiles :=
  storage_reconstructs .reliable ⟨none, some (ascii "out")⟩ threeFiles threeFilesStorage
    (["a", "b", "c"].flatMap fun name =>
      [.mkdir (ascii "out"), .fopen (ascii ("out/" ++ name))])
    [7, 8, 9] [1, 0] ⟨by decide, by decide, by decide, by decide, by decide⟩
    (by decide +kernel) (by decide +kernel) (by decide +kernel)

end CourseWork.Torrent
