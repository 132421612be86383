import CourseWork.Lib.Sha1
import CourseWork.Torrent.Metainfo

/-!
# The geometry of a loaded torrent

When the lengths, the piece length and the number of pieces that
`torrent_load_from_memory` stores fit together, in terms of the info dictionary
they come from.
-/

namespace CourseWork.Torrent
open CLib Bencode Tiling

/-! ## What the info dictionary declares -/

/-- The lengths that a `files` list declares. -/
def listLengths : Items → Option (List Int)
  | .nil => some []
  | .cons fileDict items => do
    let fileLen ← intField fileDict "length"
    let lengths ← listLengths items
    return fileLen.toInt :: lengths

/-- The lengths that an info dictionary declares, in either layout. -/
def declaredLengths (info : Ben) : Option (List Int) :=
  match listField info "files" with
  | some items => listLengths items
  | none => do
    let len ← intField info "length"
    return [len.toInt]

/-- The number of piece hashes in an info dictionary. -/
def hashCount (info : Ben) : Nat :=
  match strField info "pieces" with
  | some pcs => pcs.length / 20
  | none => 0

/-- The declared fields fit together: no negative length, a total in 64 bits, a positive
piece length in 32 bits, and as many hashes (counted in 32 bits) as the total needs. -/
def WellDeclared (info : Ben) : Prop :=
  ∃ lengths pl, declaredLengths info = some lengths ∧ (∀ n ∈ lengths, 0 ≤ n) ∧
    lengths.sum < 2 ^ 64 ∧ intField info "piece length" = some pl ∧ 0 < pl.toInt ∧
    pl.toInt < 2 ^ 32 ∧
    ((hashCount info % 2 ^ 32 : Nat) : Int) = (lengths.sum + pl.toInt - 1) / pl.toInt

/-- A loaded torrent is geometrically consistent with its info dictionary: the total is
the exact sum of the declared lengths, the piece length is the declared one, and the
pieces tile the payload. -/
structure Consistent (info : Ben) (tor : TorrentT) : Prop where
  total : ∃ lengths, declaredLengths info = some lengths ∧ (∀ n ∈ lengths, 0 ≤ n) ∧
    tor.files.map (fun f => (f.length.toNat : Int)) = lengths ∧
    (tor.totalLength.toNat : Int) = lengths.sum
  pieceLength : ∃ pl, intField info "piece length" = some pl ∧ 0 < pl.toInt ∧
    (tor.pieceLength.toNat : Int) = pl.toInt
  tiles : Tiles (· * tor.pieceLength.toNat) (fun i => (pieceSize tor (UInt32.ofNat i)).toNat)
    tor.numPieces.toNat tor.totalLength.toNat

/-! ## The casts -/

theorem toNat_toUInt64 (n : Int64) : (n.toUInt64.toNat : Int) = n.toInt % 2 ^ 64 := by
  have hnat : n.toUInt64.toNat = n.toBitVec.toNat := rfl
  have hint : n.toInt = n.toBitVec.toInt := rfl
  have := n.toBitVec.isLt
  rw [hnat, hint, BitVec.toInt_eq_toNat_cond]
  split <;> omega

theorem toNat_loadPieceLength {info : Ben} {pl : Int64}
    (h : intField info "piece length" = some pl) :
    ((loadPieceLength info).toNat : Int) = pl.toInt % 2 ^ 32 := by
  have hcast := toNat_toUInt64 pl
  rw [loadPieceLength, h]
  show ((pl.toUInt64.toUInt32).toNat : Int) = _
  rw [UInt64.toNat_toUInt32]
  omega

/-- The total counted by `loadFiles` is the declared one modulo `2 ^ 64`, and so are the
lengths of the files. -/
theorem loadFiles_lengths : ∀ {items : Items} {total total' : UInt64} {files : List FileT},
    loadFiles total items = some (files, total') →
    ∃ lengths, listLengths items = some lengths ∧
      files.map (fun f => (f.length.toNat : Int)) = lengths.map (· % 2 ^ 64) ∧
      (total'.toNat : Int) = (total.toNat + lengths.sum) % 2 ^ 64
  | .nil, total, total', files, h => by
    cases h
    have := total.toNat_lt
    exact ⟨[], rfl, rfl, by simp only [List.sum_nil]; omega⟩
  | .cons fileDict items, total, total', files, h => by
    simp only [loadFiles, bind, pure, Option.bind_eq_some_iff] at h
    obtain ⟨fileLen, hlen, pathObj, _, path, _, ⟨files', t⟩, hrest, h⟩ := h
    cases h
    obtain ⟨lengths, hlengths, hfiles, htotal⟩ := loadFiles_lengths hrest
    refine ⟨fileLen.toInt :: lengths, ?_, ?_, ?_⟩
    · simp only [listLengths, hlen, hlengths, bind, pure, Option.bind_some]
    · rw [List.map_cons, List.map_cons, hfiles, toNat_toUInt64]
    · have hcast := toNat_toUInt64 fileLen
      rw [htotal, List.sum_cons, UInt64.toNat_add]
      omega

/-- The same for both layouts. -/
theorem loadLayout_lengths {info : Ben} {name : Option Bytes} {files : List FileT}
    {total : UInt64} (h : loadLayout info name = some (files, total)) :
    ∃ lengths, declaredLengths info = some lengths ∧
      files.map (fun f => (f.length.toNat : Int)) = lengths.map (· % 2 ^ 64) ∧
      (total.toNat : Int) = lengths.sum % 2 ^ 64 := by
  cases hfield : listField info "files" with
  | some items =>
    rw [loadLayout, hfield] at h
    obtain ⟨lengths, hlengths, hfiles, htotal⟩ := loadFiles_lengths h
    refine ⟨lengths, by rw [declaredLengths, hfield, ← hlengths], hfiles, ?_⟩
    rw [htotal]
    simp
  | none =>
    simp only [loadLayout, hfield, bind, pure, Option.bind_eq_some_iff] at h
    obtain ⟨len, hlen, h⟩ := h
    cases h
    refine ⟨[len.toInt], ?_, ?_, ?_⟩
    · simp only [declaredLengths, hfield, hlen, bind, pure, Option.bind_some]
    · simp only [List.map_cons, List.map_nil, toNat_toUInt64]
    · rw [toNat_toUInt64, List.sum_singleton]

theorem pieces_length {sha1 : Bytes → Bytes} {root info : Ben} {tor : TorrentT}
    (h : loadInfo sha1 root info = some tor) : tor.pieces.length = hashCount info * 20 := by
  obtain ⟨_, _, hpieces, _, _⟩ := loadInfo_inv h
  cases hfield : strField info "pieces" with
  | some pcs =>
    rw [loadPieces, hfield] at hpieces
    dsimp only at hpieces
    split at hpieces
    · cases hpieces
    · next hmod =>
      rw [hashCount, hfield, ← Option.some.inj hpieces]
      show pcs.length = pcs.length / 20 * 20
      omega
  | none =>
    rw [loadPieces, hfield] at hpieces
    rw [hashCount, hfield, ← Option.some.inj hpieces]
    rfl

theorem numPieces_eq {sha1 : Bytes → Bytes} {root info : Ben} {tor : TorrentT}
    (h : loadInfo sha1 root info = some tor) : tor.numPieces.toNat = hashCount info % 2 ^ 32 := by
  obtain ⟨_, _, _, hnum, _⟩ := loadInfo_inv h
  rw [hnum, UInt32.toNat_ofNat', pieces_length h, Nat.mul_div_cancel _ (by decide)]

/-! ## Consistency -/

theorem sum_nonneg_of {lengths : List Int} (h : ∀ n ∈ lengths, 0 ≤ n) : 0 ≤ lengths.sum :=
  List.sum_nonneg h

/-- A nonnegative list with a sum below the bound is unchanged by the wrap. -/
theorem map_emod_eq {lengths : List Int} {m : Int} (h : ∀ n ∈ lengths, 0 ≤ n)
    (hsum : lengths.sum < m) : lengths.map (· % m) = lengths := by
  induction lengths with
  | nil => rfl
  | cons n lengths ih =>
    have hn := h n List.mem_cons_self
    have htail : ∀ k ∈ lengths, 0 ≤ k := fun k hk => h k (List.mem_cons_of_mem _ hk)
    have hrest := sum_nonneg_of htail
    rw [List.sum_cons] at hsum
    rw [List.map_cons, ih htail (by omega), Int.emod_eq_of_lt hn (by omega)]

theorem natCast_ceil {t p : Nat} (hp : 0 < p) :
    (((t + p - 1) / p : Nat) : Int) = ((t : Int) + p - 1) / p := by
  rw [Int.natCast_ediv]
  congr 1
  omega

/-- The pieces tile the payload exactly when their number is the rounded quotient. -/
theorem tiles_pieces_iff {tor : TorrentT} (hpl : 0 < tor.pieceLength.toNat) :
    Tiles (· * tor.pieceLength.toNat) (fun i => (pieceSize tor (UInt32.ofNat i)).toNat)
      tor.numPieces.toNat tor.totalLength.toNat ↔
    tor.numPieces.toNat =
      (tor.totalLength.toNat + tor.pieceLength.toNat - 1) / tor.pieceLength.toNat := by
  rw [← tiles_blocks_iff hpl]
  refine tiles_congr (fun _ _ => rfl) fun i hi => ?_
  obtain ⟨hi', hlt⟩ := pieceIndex_lt hi
  rw [toNat_pieceSize hpl hlt, hi']
  rfl

/-- The info dictionary of a torrent file. -/
def DeclaredBy (data : Bytes) (info : Ben) : Prop :=
  ∃ root, bencodeDecode data = .ok (some root) ∧ infoDict root = some info

theorem DeclaredBy.unique {data : Bytes} {info info' : Ben} (h : DeclaredBy data info)
    (h' : DeclaredBy data info') : info = info' := by
  obtain ⟨root, hroot, hinfo⟩ := h
  obtain ⟨root', hroot', hinfo'⟩ := h'
  rw [hroot] at hroot'
  obtain rfl := Option.some.inj (Except.ok.inj hroot')
  exact Option.some.inj (hinfo.symm.trans hinfo')

/-- A torrent loaded from a well declared info dictionary is consistent with it, and only
then. -/
theorem loadInfo_consistent_iff {sha1 : Bytes → Bytes} {root info : Ben} {tor : TorrentT}
    (hload : loadInfo sha1 root info = some tor) : Consistent info tor ↔ WellDeclared info := by
  obtain ⟨_, hpl, _, _, hlayout⟩ := loadInfo_inv hload
  obtain ⟨lengths, hlengths, hfiles, htotal⟩ := loadLayout_lengths hlayout
  have hnum := numPieces_eq hload
  constructor
  · rintro ⟨⟨lengths', hlengths', hpos, _, hsum⟩, ⟨pl, hfield, hplpos, hpl'⟩, htiles⟩
    obtain rfl : lengths = lengths' := Option.some.inj (hlengths.symm.trans hlengths')
    have htotallt := tor.totalLength.toNat_lt
    have hpllt := tor.pieceLength.toNat_lt
    refine ⟨lengths, pl, hlengths, hpos, by omega, hfield, hplpos, by omega, ?_⟩
    rw [tiles_pieces_iff (by omega)] at htiles
    rw [← hnum, htiles, ← hsum, ← hpl', natCast_ceil (by omega)]
  · rintro ⟨lengths', pl, hlengths', hpos, hlt, hfield, hplpos, hpllt, hcount⟩
    obtain rfl : lengths = lengths' := Option.some.inj (hlengths.symm.trans hlengths')
    have hsum := sum_nonneg_of hpos
    rw [Int.emod_eq_of_lt hsum hlt] at htotal
    have hpl' : (tor.pieceLength.toNat : Int) = pl.toInt := by
      rw [hpl, toNat_loadPieceLength hfield, Int.emod_eq_of_lt (by omega) hpllt]
    refine ⟨⟨lengths, hlengths, hpos, by rw [hfiles, map_emod_eq hpos hlt], htotal⟩,
      ⟨pl, hfield, hplpos, hpl'⟩, ?_⟩
    rw [tiles_pieces_iff (by omega)]
    rw [← hnum, ← htotal, ← hpl', ← natCast_ceil (by omega)] at hcount
    exact Int.ofNat_inj.mp hcount

/-- For every accepted buffer, the loaded torrent is consistent with the info dictionary
of the buffer exactly when that dictionary is well declared. -/
theorem load_consistent_iff (sha1 : Bytes → Bytes) (data : Bytes) (tor : TorrentT)
    (h : torrentLoadFromMemory sha1 data = .ok (some tor)) :
    (∃ info, DeclaredBy data info ∧ Consistent info tor) ↔
      ∃ info, DeclaredBy data info ∧ WellDeclared info := by
  obtain ⟨root, info, hroot, hinfo, hload⟩ := torrentLoad_inv h
  have hdecl : DeclaredBy data info := ⟨root, hroot, hinfo⟩
  constructor
  · rintro ⟨info', hdecl', hcons⟩
    obtain rfl := hdecl.unique hdecl'
    exact ⟨info, hdecl, (loadInfo_consistent_iff hload).mp hcons⟩
  · rintro ⟨info', hdecl', hwell⟩
    obtain rfl := hdecl.unique hdecl'
    exact ⟨info, hdecl, (loadInfo_consistent_iff hload).mpr hwell⟩

/-- The info dictionary of a torrent file with one file and one all-blank hash. -/
def singleInfo (len pl : String) : Bytes :=
  ascii ("d6:length" ++ len ++ "12:piece length" ++ pl ++ "6:pieces20:                    e")

/-- The torrent file with nothing but that info dictionary. -/
def singleFile (len pl : String) : Bytes := ascii "d4:info" ++ singleInfo len pl ++ ascii "e"

/-- What is loaded from it, for the values its numerals are cast to. -/
def singleTorrent (len pl : String) (totalLength : UInt64) (pieceLength : UInt32) :
    TorrentT where
  announce := none
  comment := none
  creationDate := 0
  createdBy := none
  infoHash := Sha1.sha1 (singleInfo len pl)
  name := none
  pieceLength := pieceLength
  numPieces := 1
  pieces := ascii "                    "
  files := [⟨[ascii "unknown"], totalLength⟩]
  totalLength := totalLength

/-- One file of 3 bytes in one piece of up to 4. -/
theorem load_consistent_single :
    (∃ info, DeclaredBy (singleFile "i3e" "i4e") info ∧
      Consistent info (singleTorrent "i3e" "i4e" 3 4)) ↔
      ∃ info, DeclaredBy (singleFile "i3e" "i4e") info ∧ WellDeclared info :=
  load_consistent_iff Sha1.sha1 _ _ (by decide +kernel)

/-- A piece length of `2 ^ 32 + 1` is loaded as `1`, so that the only piece is one byte of
the three. -/
theorem load_truncates_piece_length :
    torrentLoadFromMemory Sha1.sha1 (singleFile "i3e" "i4294967297e") =
      .ok (some (singleTorrent "i3e" "i4294967297e" 3 1)) ∧
    ¬ ∃ info, DeclaredBy (singleFile "i3e" "i4294967297e") info ∧
      Consistent info (singleTorrent "i3e" "i4294967297e" 3 1) := by
  refine ⟨by decide +kernel, ?_⟩
  rintro ⟨_, _, hcons⟩
  have hlast := hcons.tiles.last 0 rfl
  exact absurd hlast (by decide +kernel)

end CourseWork.Torrent
