import CourseWork.Torrent.Geometry

/-!
# The arithmetic of pieces

`piece_size` and `verify_piece` with every operation checked: a remainder by 0 has no value,
nor has a difference, a product or a conversion that does not fit its type, nor a comparison
with bytes behind the end of `pieces`. The torrents on which nothing goes wrong are those
with a piece length that is not 0 in its lower 32 bits, and with hashes whose offsets fit 32
bits.
-/

namespace CourseWork.Torrent
open CLib Bencode

/-! ## Checked operations -/

/-- `a - b` without a wrap. -/
def checkedSub (a b : UInt32) : Option UInt32 := if b ≤ a then some (a - b) else none

/-- `a * b` without a wrap. -/
def checkedMul (a b : UInt32) : Option UInt32 :=
  if a.toNat * b.toNat < 2 ^ 32 then some (a * b) else none

/-- `a % b`, undefined for 0. -/
def checkedMod (a b : UInt64) : Option UInt64 := if b = 0 then none else some (a % b)

/-- `(uint32_t) a` of what fits. -/
def checkedNarrow (a : UInt64) : Option UInt32 :=
  if a.toNat < 2 ^ 32 then some a.toUInt32 else none

/-- `n` bytes at an offset, all within the buffer. -/
def checkedRead (buf : Bytes) (offset n : Nat) : Option Bytes :=
  if offset + n ≤ buf.length then some ((buf.drop offset).take n) else none

/-- `piece_size`, if nothing goes wrong. -/
def checkedPieceSize (tor : TorrentT) (index : UInt32) : Option UInt32 := do
  let lastIndex ← checkedSub tor.numPieces 1
  if index < lastIndex then return tor.pieceLength
  else if index = lastIndex then
    let rest ← checkedMod tor.totalLength tor.pieceLength.toUInt64
    let last ← checkedNarrow rest
    return if last ≠ 0 then last else tor.pieceLength
  else return 0

/-- `verify_piece`, if nothing goes wrong. -/
def checkedVerifyPiece (sha1 : Bytes → Bytes) (tor : TorrentT) (index : UInt32) (data : Bytes) :
    Option Bool :=
  if tor.numPieces ≤ index then some false
  else do
    let size ← checkedPieceSize tor index
    let offset ← checkedMul index 20
    let hash ← checkedRead tor.pieces offset.toNat 20
    return sha1 (data.take size.toNat) == hash

/-- A checked piece size is what `piece_size` returns. -/
theorem checkedPieceSize_eq {tor : TorrentT} {index size : UInt32}
    (h : checkedPieceSize tor index = some size) : pieceSize tor index = size := by
  obtain ⟨lastIndex, hlast, h⟩ := Option.bind_eq_some_iff.mp h
  rw [checkedSub] at hlast
  split at hlast
  · obtain rfl := Option.some.inj hlast
    rw [pieceSize]
    split at h
    · next hlt => rw [if_pos hlt, Option.some.inj h]
    · next hlt =>
      rw [if_neg hlt]
      split at h
      · next heq =>
        obtain ⟨rest, hmod, h⟩ := Option.bind_eq_some_iff.mp h
        obtain ⟨last, hnarrow, h⟩ := Option.bind_eq_some_iff.mp h
        rw [checkedMod] at hmod
        rw [checkedNarrow] at hnarrow
        split at hmod
        · cases hmod
        · split at hnarrow
          · obtain rfl := Option.some.inj hmod
            obtain rfl := Option.some.inj hnarrow
            rw [if_pos heq]
            exact Option.some.inj h
          · cases hnarrow
      · next hne => rw [if_neg hne, Option.some.inj h]
  · cases hlast

/-- A checked result is what `verify_piece` returns. -/
theorem checkedVerifyPiece_eq {sha1 : Bytes → Bytes} {tor : TorrentT} {index : UInt32}
    {data : Bytes} {ok : Bool} (h : checkedVerifyPiece sha1 tor index data = some ok) :
    verifyPiece sha1 tor index data = ok := by
  rw [checkedVerifyPiece] at h
  rw [verifyPiece]
  split at h
  · next hle => rw [if_pos hle, Option.some.inj h]
  · next hle =>
    obtain ⟨size, hsize, h⟩ := Option.bind_eq_some_iff.mp h
    obtain ⟨offset, hoffset, h⟩ := Option.bind_eq_some_iff.mp h
    obtain ⟨hash, hhash, h⟩ := Option.bind_eq_some_iff.mp h
    rw [checkedMul] at hoffset
    rw [checkedRead] at hhash
    split at hoffset
    · split at hhash
      · obtain rfl := Option.some.inj hoffset
        obtain rfl := Option.some.inj hhash
        rw [if_neg hle, checkedPieceSize_eq hsize]
        exact Option.some.inj h
      · cases hhash
    · cases hoffset

/-- With a piece length, the size of every piece is defined. -/
theorem checkedPieceSize_isSome_iff {tor : TorrentT} {index : UInt32} (h : index < tor.numPieces) :
    (checkedPieceSize tor index).isSome = true ↔
      (index.toNat + 1 = tor.numPieces.toNat → tor.pieceLength ≠ 0) := by
  have hlt := UInt32.lt_iff_toNat_lt.mp h
  have hsub : checkedSub tor.numPieces 1 = some (tor.numPieces - 1) :=
    if_pos (UInt32.le_iff_toNat_le.mpr (show 1 ≤ _ by omega))
  have hlast : (tor.numPieces - 1).toNat = tor.numPieces.toNat - 1 :=
    toNat_numPieces_sub_one (by omega)
  have hzero : tor.pieceLength.toUInt64 = 0 ↔ tor.pieceLength = 0 := by
    rw [← UInt64.toNat_inj, ← UInt32.toNat_inj, UInt32.toNat_toUInt64]
    exact Iff.rfl
  rw [checkedPieceSize, hsub]
  simp only [Option.bind_eq_bind, Option.bind_some]
  split
  · next hbefore =>
    have hbefore := UInt32.lt_iff_toNat_lt.mp hbefore
    exact ⟨fun _ heq => absurd heq (by omega), fun _ => rfl⟩
  · next hbefore =>
    have hbefore := mt UInt32.lt_iff_toNat_lt.mpr hbefore
    have heq : index = tor.numPieces - 1 := UInt32.toNat_inj.mp (by omega)
    rw [if_pos heq, checkedMod]
    by_cases hpl : tor.pieceLength = 0
    · rw [if_pos (hzero.mpr hpl), Option.bind_none]
      exact ⟨fun hnone => absurd hnone Bool.false_ne_true, fun hne => absurd hpl (hne (by omega))⟩
    · have hpos : 0 < tor.pieceLength.toNat :=
        Nat.pos_of_ne_zero fun h0 => hpl (UInt32.toNat_inj.mp h0)
      have hrest : (tor.totalLength % tor.pieceLength.toUInt64).toNat < 2 ^ 32 := by
        rw [UInt64.toNat_mod, UInt32.toNat_toUInt64]
        exact Nat.lt_trans (Nat.mod_lt _ hpos) tor.pieceLength.toNat_lt
      rw [if_neg fun h0 => hpl (hzero.mp h0), Option.bind_some, checkedNarrow, if_pos hrest]
      exact ⟨fun _ _ => hpl, fun _ => rfl⟩

/-! ## Safe torrents -/

/-- The number of pieces is the exact number of hashes, and for each of the pieces nothing
goes wrong in `piece_size` and `verify_piece`. -/
structure SafePieces (sha1 : Bytes → Bytes) (tor : TorrentT) : Prop where
  hashes : tor.numPieces.toNat * 20 = tor.pieces.length
  size : ∀ i < tor.numPieces, (checkedPieceSize tor i).isSome = true
  verify : ∀ i < tor.numPieces, ∀ data, (checkedVerifyPiece sha1 tor i data).isSome = true

/-- The declared fields are safe: there are no hashes, or no more than have offsets in 32
bits, and a piece length that is not 0 in its lower 32 bits. -/
def SafelyDeclared (info : Ben) : Prop :=
  hashCount info = 0 ∨
  (hashCount info ≤ 214748365 ∧
    ∃ pl, intField info "piece length" = some pl ∧ pl.toInt % 2 ^ 32 ≠ 0)

theorem loadPieceLength_ne_zero_iff {info : Ben} : loadPieceLength info ≠ 0 ↔
    ∃ pl, intField info "piece length" = some pl ∧ pl.toInt % 2 ^ 32 ≠ 0 := by
  rw [Ne, ← UInt32.toNat_inj]
  cases hfield : intField info "piece length" with
  | none => simp [loadPieceLength, hfield]
  | some pl =>
    have hcast := toNat_loadPieceLength hfield
    constructor
    · intro hne
      refine ⟨pl, rfl, fun hzero => hne ?_⟩
      rw [hzero] at hcast
      exact Int.ofNat_inj.mp hcast
    · rintro ⟨pl', hpl, hne⟩ hzero
      obtain rfl := Option.some.inj hpl
      rw [hzero] at hcast
      exact hne hcast.symm

/-- The offset of a hash fits 32 bits. -/
theorem checkedMul_isSome_iff {i : UInt32} :
    (checkedMul i 20).isSome = true ↔ i.toNat ≤ 214748364 := by
  have h20 : (20 : UInt32).toNat = 20 := rfl
  rw [checkedMul, h20]
  split
  · exact ⟨fun _ => by omega, fun _ => rfl⟩
  · exact ⟨fun h => absurd h Bool.false_ne_true, fun _ => by omega⟩

theorem checkedMul_toNat {i offset : UInt32} (h : checkedMul i 20 = some offset) :
    offset.toNat = i.toNat * 20 := by
  rw [checkedMul] at h
  split at h
  · next hlt =>
    rw [← Option.some.inj h, UInt32.toNat_mul]
    exact Nat.mod_eq_of_lt hlt
  · cases h

/-- `verify_piece` of a piece goes right exactly if its size is defined, its offset fits 32
bits and its hash lies within `pieces`. -/
theorem checkedVerifyPiece_isSome_iff {sha1 : Bytes → Bytes} {tor : TorrentT} {i : UInt32}
    (hi : i < tor.numPieces) (data : Bytes) :
    (checkedVerifyPiece sha1 tor i data).isSome = true ↔
      (checkedPieceSize tor i).isSome = true ∧ i.toNat ≤ 214748364 ∧
        i.toNat * 20 + 20 ≤ tor.pieces.length := by
  rw [checkedVerifyPiece, if_neg (UInt32.not_le.mpr hi), ← checkedMul_isSome_iff]
  cases checkedPieceSize tor i with
  | none => simp
  | some size =>
    cases hmul : checkedMul i 20 with
    | none => simp
    | some offset =>
      rw [← checkedMul_toNat hmul]
      simp only [Option.bind_eq_bind, Option.bind_some, checkedRead]
      split
      · next hle => simp [hle]
      · next hle => simp [hle]

/-! ## Loaded torrents -/

/-- A loaded torrent is safe exactly if its declared fields are. -/
theorem loadInfo_safe_iff {sha1 : Bytes → Bytes} {root info : Ben} {tor : TorrentT}
    (h : loadInfo sha1 root info = some tor) : SafePieces sha1 tor ↔ SafelyDeclared info := by
  have hnum := numPieces_eq h
  have hlength := pieces_length h
  have hpl : tor.pieceLength = loadPieceLength info := (loadInfo_inv h).2.1
  have hlt := tor.numPieces.toNat_lt
  rw [SafelyDeclared, ← loadPieceLength_ne_zero_iff, ← hpl]
  constructor
  · rintro ⟨hhashes, _, hverify⟩
    refine or_iff_not_imp_left.mpr fun hne => ?_
    -- The last piece has the largest offset, and the remainder is computed for it.
    have hcount : tor.numPieces.toNat = hashCount info := by omega
    have hlast : (tor.numPieces - 1).toNat = tor.numPieces.toNat - 1 :=
      toNat_numPieces_sub_one (by omega)
    have hin : tor.numPieces - 1 < tor.numPieces := UInt32.lt_iff_toNat_lt.mpr (by omega)
    obtain ⟨hsize, hoffset, _⟩ :=
      (checkedVerifyPiece_isSome_iff hin []).mp (hverify _ hin [])
    exact ⟨by omega, (checkedPieceSize_isSome_iff hin).mp hsize (by omega)⟩
  · intro hsafe
    have hcount : tor.numPieces.toNat = hashCount info := by
      rw [hnum]
      exact Nat.mod_eq_of_lt (by omega)
    have hsize : ∀ i < tor.numPieces, (checkedPieceSize tor i).isSome = true := fun i hi => by
      have hlt := UInt32.lt_iff_toNat_lt.mp hi
      refine (checkedPieceSize_isSome_iff hi).mpr fun _ => ?_
      exact (hsafe.resolve_left (by omega)).2
    refine ⟨by omega, hsize, fun i hi data => ?_⟩
    have hlt := UInt32.lt_iff_toNat_lt.mp hi
    have hfew := (hsafe.resolve_left (by omega)).1
    exact (checkedVerifyPiece_isSome_iff hi data).mpr ⟨hsize i hi, by omega, by omega⟩

/-- For every accepted buffer, the arithmetic of the pieces of the loaded torrent goes right
exactly when the declared fields are safe, and then it computes what `piece_size` and
`verify_piece` return. -/
theorem load_safe_iff (sha1 : Bytes → Bytes) (data : Bytes) (tor : TorrentT)
    (h : torrentLoadFromMemory sha1 data = .ok (some tor)) :
    (SafePieces sha1 tor ↔ ∃ info, DeclaredBy data info ∧ SafelyDeclared info) ∧
    (∀ i size, checkedPieceSize tor i = some size → pieceSize tor i = size) ∧
    ∀ i piece ok, checkedVerifyPiece sha1 tor i piece = some ok →
      verifyPiece sha1 tor i piece = ok := by
  obtain ⟨root, info, hroot, hinfo, hload⟩ := torrentLoad_inv h
  have hdecl : DeclaredBy data info := ⟨root, hroot, hinfo⟩
  refine ⟨(loadInfo_safe_iff hload).trans ⟨fun hsafe => ⟨info, hdecl, hsafe⟩, ?_⟩,
    fun _ _ => checkedPieceSize_eq, fun _ _ _ => checkedVerifyPiece_eq⟩
  rintro ⟨info', hdecl', hsafe⟩
  obtain rfl := hdecl.unique hdecl'
  exact hsafe

/-- One file of 3 bytes in one piece of up to 4. -/
theorem load_safe_single :
    SafePieces Sha1.sha1 (singleTorrent "i3e" "i4e" 3 4) ↔
      ∃ info, DeclaredBy (singleFile "i3e" "i4e") info ∧ SafelyDeclared info :=
  (load_safe_iff Sha1.sha1 _ _ (by decide +kernel)).1

/-- A piece length of 0 is accepted, and the size of the only piece is a remainder by 0. -/
theorem load_zero_piece_length :
    torrentLoadFromMemory Sha1.sha1 (singleFile "i3e" "i0e") =
      .ok (some (singleTorrent "i3e" "i0e" 3 0)) ∧
    ¬ SafePieces Sha1.sha1 (singleTorrent "i3e" "i0e" 3 0) := by
  refine ⟨by decide +kernel, fun hsafe => ?_⟩
  have hsize := hsafe.size 0 (by decide)
  exact absurd hsize (by decide)

end CourseWork.Torrent
