import CourseWork.Lib.Tiling
import CourseWork.Torrent.BencodeRoundTrip

/-!
# Torrent files

The `torrent` module: loading a torrent from memory, and the size and the check
of a piece. `SHA1` is a parameter.
-/

namespace CourseWork.Torrent
open CLib Bencode

/-! ## Data -/

/-- `file_t`; the components are C strings. -/
structure FileT where
  path : List Bytes
  length : UInt64
  deriving DecidableEq

/-- `torrent_t`. A NULL string is `none`; the hashes at `pieces` are missing (`[]`) when
the dictionary has none. -/
structure TorrentT where
  announce : Option Bytes
  comment : Option Bytes
  creationDate : Int64
  createdBy : Option Bytes
  infoHash : Bytes
  name : Option Bytes
  pieceLength : UInt32
  numPieces : UInt32
  pieces : Bytes
  files : List FileT
  totalLength : UInt64
  deriving DecidableEq

/-! ## Loading -/

/-- `str_from_bencode`. The copy is only ever used as a C string. -/
def strFromBencode : Ben → Option Bytes
  | .str data => some (cstr data)
  | _ => none

/-- The loop of `parse_path_list`. -/
def pathComponents : Items → Option (List Bytes)
  | .nil => some []
  | .cons item items => do
    let s ← strFromBencode item
    let path ← pathComponents items
    return s :: path

/-- `parse_path_list`. -/
def parsePathList : Ben → Option (List Bytes)
  | .list items => pathComponents items
  | _ => none

/-- The integer under a key, if there is one of type `BEN_INT`. -/
def intField (dict : Ben) (key : String) : Option Int64 :=
  match bencodeDictGet dict (ascii key) with
  | some (.int n) => some n
  | _ => none

/-- The string under a key, if there is one of type `BEN_STRING`. -/
def strField (dict : Ben) (key : String) : Option Bytes :=
  match bencodeDictGet dict (ascii key) with
  | some (.str data) => some data
  | _ => none

/-- The items under a key, if there is a value of type `BEN_LIST`. -/
def listField (dict : Ben) (key : String) : Option Items :=
  match bencodeDictGet dict (ascii key) with
  | some (.list items) => some items
  | _ => none

/-- The loop over the `files` list: the files, and `total_length` counted up from
`total`. Both the cast to `uint64_t` and the sum wrap. -/
def loadFiles (total : UInt64) : Items → Option (List FileT × UInt64)
  | .nil => some ([], total)
  | .cons fileDict items => do
    let fileLen ← intField fileDict "length"
    let pathObj ← bencodeDictGet fileDict (ascii "path")
    let path ← parsePathList pathObj
    let (files, total) ← loadFiles (total + fileLen.toUInt64) items
    return (⟨path, fileLen.toUInt64⟩ :: files, total)

/-- Both layouts of an info dictionary: the `files` list, or the single file under
the torrent's name. -/
def loadLayout (info : Ben) (name : Option Bytes) : Option (List FileT × UInt64) :=
  match listField info "files" with
  | some items => loadFiles 0 items
  | none => do
    let len ← intField info "length"
    return ([⟨[name.getD (ascii "unknown")], len.toUInt64⟩], len.toUInt64)

/-- The `pieces` string; its length has to be a multiple of 20. -/
def loadPieces (info : Ben) : Option Bytes :=
  match strField info "pieces" with
  | some pcs => if pcs.length % 20 ≠ 0 then none else some pcs
  | none => some []

/-- `(uint32_t)` of the piece length, `0` when it is missing. -/
def loadPieceLength (info : Ben) : UInt32 :=
  match intField info "piece length" with
  | some n => n.toUInt64.toUInt32
  | none => 0

/-- The part of `torrent_load_from_memory` after the info dictionary is found. -/
def loadInfo (sha1 : Bytes → Bytes) (root info : Ben) : Option TorrentT := do
  let infoEnc := bencodeEncode info
  let name := (bencodeDictGet info (ascii "name")).bind strFromBencode
  let pieces ← loadPieces info
  let (files, totalLength) ← loadLayout info name
  return {
    announce := (bencodeDictGet root (ascii "announce")).bind strFromBencode
    comment := (bencodeDictGet root (ascii "comment")).bind strFromBencode
    creationDate := (intField root "creation date").getD 0
    createdBy := (bencodeDictGet root (ascii "created by")).bind strFromBencode
    infoHash := sha1 infoEnc
    name := name
    pieceLength := loadPieceLength info
    numPieces := UInt32.ofNat (pieces.length / 20)
    pieces := pieces
    files := files
    totalLength := totalLength }

/-- The info dictionary of a decoded torrent. -/
def infoDict (root : Ben) : Option Ben :=
  match bencodeDictGet root (ascii "info") with
  | some (.dict pairs) => some (.dict pairs)
  | _ => none

/-- `torrent_load_from_memory`; `.ok none` is `-1`. -/
def torrentLoadFromMemory (sha1 : Bytes → Bytes) (data : Bytes) :
    Except Fault (Option TorrentT) := do
  let root ← bencodeDecode data
  return root.bind fun root => (infoDict root).bind (loadInfo sha1 root)

/-- A dictionary that has been encoded is loaded as it is. -/
theorem torrentLoadFromMemory_encode (sha1 : Bytes → Bytes) {root : Ben}
    (h : (bencodeEncode root).length < 2 ^ 63) :
    torrentLoadFromMemory sha1 (bencodeEncode root) =
      .ok ((infoDict root).bind (loadInfo sha1 root)) := by
  have hdecode : bencodeDecode (bencodeEncode root) = .ok (some root) :=
    bencodeDecode_iff.mpr (canonical_spells_strtol h (encodeObj_spells root))
  rw [torrentLoadFromMemory, hdecode]
  rfl

/-! ## Pieces -/

/-- `piece_size` is defined: for the last piece it takes a remainder by the piece length. -/
def pieceSizeDefined (tor : TorrentT) (index : UInt32) : Bool :=
  index ≠ tor.numPieces - 1 || tor.pieceLength ≠ 0

/-- `piece_size` where it is defined, with the 32-bit wrap of `num_pieces - 1`. -/
def pieceSize (tor : TorrentT) (index : UInt32) : UInt32 :=
  if index < tor.numPieces - 1 then tor.pieceLength
  else if index = tor.numPieces - 1 then
    let last := (tor.totalLength % tor.pieceLength.toUInt64).toUInt32
    if last ≠ 0 then last else tor.pieceLength
  else 0

/-- The bytes `pieces[index*20 .. index*20+20)` that `verify_piece` compares with; the
offset is computed in 32 bits. -/
def pieceHash (tor : TorrentT) (index : UInt32) : Bytes :=
  (tor.pieces.drop (index * 20).toNat).take 20

/-- `verify_piece` of a piece whose size is defined. -/
def verifyPiece (sha1 : Bytes → Bytes) (tor : TorrentT) (index : UInt32) (data : Bytes) : Bool :=
  if tor.numPieces ≤ index then false
  else sha1 (data.take (pieceSize tor index).toNat) == pieceHash tor index

/-- The indices of the pieces. -/
def pieceIndices (tor : TorrentT) : List UInt32 :=
  (List.range tor.numPieces.toNat).map UInt32.ofNat

/-! ## Basic facts -/

/-- What an accepted buffer contains: a decoded root with an info dictionary. -/
theorem torrentLoad_inv {sha1 : Bytes → Bytes} {data : Bytes} {tor : TorrentT}
    (h : torrentLoadFromMemory sha1 data = .ok (some tor)) :
    ∃ root info, bencodeDecode data = .ok (some root) ∧ infoDict root = some info ∧
      loadInfo sha1 root info = some tor := by
  obtain ⟨root, hroot, h⟩ := bind_eq_ok h
  simp only [pure, Except.pure, Except.ok.injEq, Option.bind_eq_some_iff] at h
  obtain ⟨root, rfl, info, hinfo, h⟩ := h
  exact ⟨root, info, hroot, hinfo, h⟩

/-- The fields of a loaded torrent, by the info dictionary they come from. -/
theorem loadInfo_inv {sha1 : Bytes → Bytes} {root info : Ben} {tor : TorrentT}
    (h : loadInfo sha1 root info = some tor) :
    tor.infoHash = sha1 (bencodeEncode info) ∧
    tor.pieceLength = loadPieceLength info ∧
    loadPieces info = some tor.pieces ∧
    tor.numPieces = UInt32.ofNat (tor.pieces.length / 20) ∧
    loadLayout info tor.name = some (tor.files, tor.totalLength) := by
  simp only [loadInfo, bind, pure, Option.bind_eq_some_iff] at h
  obtain ⟨pieces, hpieces, ⟨files, total⟩, hlayout, h⟩ := h
  cases h
  exact ⟨rfl, rfl, hpieces, rfl, hlayout⟩

theorem infoDict_inv {root info : Ben} (h : infoDict root = some info) :
    ∃ rootPairs, root = .dict rootPairs ∧ rootPairs.get (ascii "info") = some info := by
  unfold infoDict at h
  split at h
  · next pairs heq =>
    unfold bencodeDictGet at heq
    split at heq
    · next rootPairs => exact ⟨rootPairs, rfl, by rw [heq, h]⟩
    · exact nomatch heq
  · exact nomatch h

/-- The size of piece `i`, by the division of the payload into blocks. -/
def TorrentT.sizeOf (tor : TorrentT) (i : Nat) : Nat :=
  Tiling.blockSize tor.numPieces.toNat tor.pieceLength.toNat tor.totalLength.toNat i

theorem toNat_totalLength_mod {tor : TorrentT} (hpl : 0 < tor.pieceLength.toNat) :
    ((tor.totalLength % tor.pieceLength.toUInt64).toUInt32).toNat =
      tor.totalLength.toNat % tor.pieceLength.toNat := by
  rw [UInt64.toNat_toUInt32, UInt64.toNat_mod, UInt32.toNat_toUInt64]
  exact Nat.mod_eq_of_lt (Nat.lt_trans (Nat.mod_lt _ hpl) (UInt32.toNat_lt tor.pieceLength))

theorem pieceSizeDefined_of_pos {tor : TorrentT} (h : 0 < tor.pieceLength) (i : UInt32) :
    pieceSizeDefined tor i = true := by
  have hne : tor.pieceLength ≠ 0 := fun h0 => UInt32.lt_irrefl 0 (h0 ▸ h)
  rw [pieceSizeDefined, decide_eq_true hne, Bool.or_true]

theorem toNat_numPieces_sub_one {tor : TorrentT} (h : 0 < tor.numPieces.toNat) :
    (tor.numPieces - 1).toNat = tor.numPieces.toNat - 1 := by
  rw [UInt32.toNat_sub_of_le]
  · rfl
  · exact UInt32.le_iff_toNat_le.mpr h

/-- `piece_size` of an index in range does not wrap. -/
theorem toNat_pieceSize {tor : TorrentT} {i : UInt32} (hpl : 0 < tor.pieceLength.toNat)
    (hi : i < tor.numPieces) : (pieceSize tor i).toNat = tor.sizeOf i.toNat := by
  have hn := UInt32.lt_iff_toNat_lt.mp hi
  have hsub : (tor.numPieces - 1).toNat = _ := toNat_numPieces_sub_one (by omega)
  have hlast := toNat_totalLength_mod hpl
  unfold pieceSize TorrentT.sizeOf Tiling.blockSize
  by_cases hlt : i.toNat + 1 < tor.numPieces.toNat
  · rw [if_pos hlt, if_pos (UInt32.lt_iff_toNat_lt.mpr (by omega))]
  · rw [if_neg hlt, if_neg (by rw [UInt32.lt_iff_toNat_lt]; omega),
      if_pos (UInt32.toNat_inj.mp (by omega))]
    simp only [ne_eq, ← UInt32.toNat_inj, hlast]
    show (if ¬ _ = 0 then _ else _ : UInt32).toNat = _
    split
    · exact hlast
    · rfl

/-- The index of a piece as a machine integer. -/
theorem pieceIndex_lt {tor : TorrentT} {k : Nat} (hk : k < tor.numPieces.toNat) :
    (UInt32.ofNat k).toNat = k ∧ UInt32.ofNat k < tor.numPieces := by
  have hk' : (UInt32.ofNat k).toNat = k :=
    UInt32.toNat_ofNat_of_lt' (Nat.lt_trans hk tor.numPieces.toNat_lt)
  exact ⟨hk', UInt32.lt_iff_toNat_lt.mpr (by rwa [hk'])⟩

theorem mem_pieceIndices {tor : TorrentT} {i : UInt32} :
    i ∈ pieceIndices tor ↔ i < tor.numPieces := by
  simp only [pieceIndices, List.mem_map, List.mem_range, UInt32.lt_iff_toNat_lt]
  constructor
  · rintro ⟨k, hk, rfl⟩
    rwa [(pieceIndex_lt hk).1]
  · intro hi
    exact ⟨i.toNat, hi, UInt32.ofNat_toNat⟩

theorem TorrentT.sizeOf_pos {tor : TorrentT} (hpl : 0 < tor.pieceLength.toNat) (i : Nat) :
    0 < tor.sizeOf i :=
  Tiling.blockSize_pos hpl _ _ i

end CourseWork.Torrent
