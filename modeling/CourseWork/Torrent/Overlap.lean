import CourseWork.Torrent.Tar

/-!
# Overlaps

Both outputs write a piece by its overlaps with the files. They compute an overlap in the
same way, in 64 bits.
-/

namespace CourseWork.Torrent
open CLib

/-- The overlap of a piece with a file: where it starts in either, and how long it is. -/
structure Overlap where
  inFile : UInt64
  inPiece : UInt64
  bytes : UInt64

/-- The overlap that the loops of both functions compute. -/
def overlap (pieceStart pieceEnd fileStart length : UInt64) : Option Overlap :=
  let fileEnd := fileStart + length
  let overlapStart := if pieceStart > fileStart then pieceStart else fileStart
  let overlapEnd := if pieceEnd < fileEnd then pieceEnd else fileEnd
  if overlapStart < overlapEnd then
    some ⟨overlapStart - fileStart, overlapStart - pieceStart, overlapEnd - overlapStart⟩
  else none

/-- The data of an overlap. -/
def Overlap.data (o : Overlap) (data : Bytes) : Bytes :=
  (data.drop o.inPiece.toNat).take o.bytes.toNat

theorem writeOverlap_overlap (pieceStart pieceEnd : UInt64) (data : Bytes) (fi : FileInfo) :
    writeOverlap pieceStart pieceEnd data fi =
      match overlap pieceStart pieceEnd fi.offset fi.length with
      | some o => { fi with fp := fi.fp.writeAt o.inFile (o.data data) }
      | none => fi := by
  unfold writeOverlap overlap
  dsimp only
  generalize (if pieceStart > fi.offset then pieceStart else fi.offset) = overlapStart
  generalize (if pieceEnd < fi.offset + fi.length then pieceEnd
    else fi.offset + fi.length) = overlapEnd
  split
  · rfl
  · rfl

theorem writeFilePart_overlap (pieceStart pieceEnd : UInt64) (data : Bytes) (i : Nat) (f : FileT)
    (fileStart : UInt64) (tw : TarWriter) :
    writeFilePart pieceStart pieceEnd data i f fileStart tw =
      match overlap pieceStart pieceEnd fileStart f.length with
      | some o => (enterFile tw i f).map fun tw =>
          let tw := { tw.put (o.data data) with
            fileBytesWritten := tw.fileBytesWritten + o.bytes }
          if o.inFile + o.bytes = f.length then writePadding tw else tw
      | none => some tw := by
  unfold writeFilePart overlap
  dsimp only
  generalize (if pieceStart > fileStart then pieceStart else fileStart) = overlapStart
  generalize (if pieceEnd < fileStart + f.length then pieceEnd
    else fileStart + f.length) = overlapEnd
  split
  · cases enterFile tw i f with
    | none => rfl
    | some tw1 => rfl
  · rfl

/-- The overlap in unbounded arithmetic. -/
theorem overlap_some {pieceStart pieceEnd fileStart length : UInt64} {o : Overlap}
    (h : overlap pieceStart pieceEnd fileStart length = some o) :
    let lo := max pieceStart.toNat fileStart.toNat
    let hi := min pieceEnd.toNat (fileStart + length).toNat
    lo < hi ∧ o.inFile.toNat = lo - fileStart.toNat ∧ o.inPiece.toNat = lo - pieceStart.toNat ∧
      o.bytes.toNat = hi - lo := by
  have hlo := toNat_max pieceStart fileStart
  have hhi := toNat_min pieceEnd (fileStart + length)
  unfold overlap at h
  dsimp only at h ⊢
  generalize (if pieceStart > fileStart then pieceStart else fileStart) = lo at *
  generalize (if pieceEnd < fileStart + length then pieceEnd else fileStart + length) = hi at *
  have hsub : ∀ a b : UInt64, b.toNat ≤ a.toNat → (a - b).toNat = a.toNat - b.toNat :=
    fun a b hle => UInt64.toNat_sub_of_le _ _ (UInt64.le_iff_toNat_le.mpr hle)
  split at h
  · next hlt =>
    cases h
    have hlt' := UInt64.lt_iff_toNat_lt.mp hlt
    rw [← hlo, ← hhi]
    exact ⟨hlt', hsub _ _ (by omega), hsub _ _ (by omega), hsub _ _ (by omega)⟩
  · exact nomatch h

theorem overlap_none {pieceStart pieceEnd fileStart length : UInt64}
    (h : overlap pieceStart pieceEnd fileStart length = none) :
    min pieceEnd.toNat (fileStart + length).toNat ≤ max pieceStart.toNat fileStart.toNat := by
  rw [← toNat_max, ← toNat_min]
  unfold overlap at h
  dsimp only at h
  generalize (if pieceStart > fileStart then pieceStart else fileStart) = lo at *
  generalize (if pieceEnd < fileStart + length then pieceEnd else fileStart + length) = hi at *
  split at h
  · exact nomatch h
  · next hlt => rwa [UInt64.lt_iff_toNat_lt, Nat.not_lt] at hlt

end CourseWork.Torrent
