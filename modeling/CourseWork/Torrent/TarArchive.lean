import CourseWork.Torrent.TarWrite

/-!
# Archives from pieces

All pieces of a torrent, written in an order that does not leave a file before it is
complete, make an archive with one entry for each file that is not empty.
-/

namespace CourseWork.Torrent
open CLib Ustar Tiling

/-! ## Orders of pieces -/

/-- `tar_writer_write` of some pieces, the latest first. -/
def writeHanded (tor : TorrentT) (tw : TarWriter) : List (UInt32 × Bytes) → Option TarWriter
  | [] => some tw
  | (i, buf) :: earlier =>
    (writeHanded tor tw earlier).bind fun tw => tarWriterWrite tw i buf (pieceSize tor i)

/-- Where the latest piece ends. -/
def handedEnd (tor : TorrentT) : List UInt32 → Nat
  | [] => 0
  | i :: _ => pieceStart tor i + (pieceSize tor i).toNat

/-- Each piece, the latest is first, starts where the one before it ends, or neither of
the two positions is inside of a file. -/
inductive Unbroken (tor : TorrentT) : List UInt32 → Prop
  | nil : Unbroken tor []
  | cons {i : UInt32} {earlier : List UInt32}
      (h : pieceStart tor i = handedEnd tor earlier ∨
        ¬ InsideFile tor (handedEnd tor earlier) ∧ ¬ InsideFile tor (pieceStart tor i)) :
      Unbroken tor earlier → Unbroken tor (i :: earlier)

theorem unbroken_cons {tor : TorrentT} {i : UInt32} {earlier : List UInt32} :
    Unbroken tor (i :: earlier) ↔
      (pieceStart tor i = handedEnd tor earlier ∨
        ¬ InsideFile tor (handedEnd tor earlier) ∧ ¬ InsideFile tor (pieceStart tor i)) ∧
      Unbroken tor earlier := by
  constructor
  · intro h
    cases h with
    | cons h hearlier => exact ⟨h, hearlier⟩
  · rintro ⟨h, hearlier⟩
    exact .cons h hearlier

instance decidableUnbroken (tor : TorrentT) :
    (indices : List UInt32) → Decidable (Unbroken tor indices)
  | [] => isTrue .nil
  | _ :: earlier =>
    have := decidableUnbroken tor earlier
    decidable_of_iff _ unbroken_cons.symm

section Order

variable {tor : TorrentT} {payload : Bytes}

theorem not_insideFile_zero : ¬ InsideFile tor 0 := fun ⟨_, _, h, _⟩ => Nat.not_lt_zero _ h

/-- A piece that starts inside of a file was handed over after one that ends there. -/
theorem Unbroken.before {i : UInt32} {indices : List UInt32} (h : Unbroken tor indices)
    (hmem : i ∈ indices) (hinside : InsideFile tor (pieceStart tor i)) :
    ∃ j ∈ indices, pieceStart tor j + (pieceSize tor j).toNat = pieceStart tor i := by
  induction indices with
  | nil => exact absurd hmem List.not_mem_nil
  | cons k earlier ih =>
    obtain ⟨hstep, hearlier⟩ := unbroken_cons.mp h
    rcases List.mem_cons.mp hmem with rfl | hmem
    · have heq := hstep.resolve_right fun hno => hno.2 hinside
      cases earlier with
      | nil =>
        rw [heq] at hinside
        exact absurd hinside not_insideFile_zero
      | cons j _ => exact ⟨j, List.mem_cons_of_mem _ List.mem_cons_self, heq.symm⟩
    · obtain ⟨j, hj, heq⟩ := ih hearlier hmem
      exact ⟨j, List.mem_cons_of_mem _ hj, heq⟩

/-- When all pieces are there, no file is left incomplete. -/
theorem Unbroken.end_not_inside (hgeo : Layout tor payload) {indices : List UInt32}
    (h : Unbroken tor indices) (hnodup : indices.Nodup)
    (hmem : ∀ i, i ∈ indices ↔ i < tor.numPieces) : ¬ InsideFile tor (handedEnd tor indices) := by
  cases indices with
  | nil => exact not_insideFile_zero
  | cons i earlier =>
    rintro ⟨p, hp, hcut⟩
    have hsum := hgeo.sum_lengths
    have hlen := hgeo.length_payload
    have hstop := (place_bounds hp).2.2.2.1
    have hend : handedEnd tor (i :: earlier) = pieceStart tor i + (pieceSize tor i).toNat := rfl
    rw [hend] at hcut
    have hi := (hmem i).mp List.mem_cons_self
    have hipos := hgeo.pieceSize_pos hi
    -- The piece behind the last one was handed over before.
    obtain ⟨j, hj, h1, h2⟩ := hgeo.exists_piece
      (y := pieceStart tor i + (pieceSize tor i).toNat) (by have := hcut.2; omega)
    have hji : pieceStart tor j = pieceStart tor i + (pieceSize tor i).toNat := by
      by_contra hne
      have hcommon := hgeo.eq_of_common hi hj
        (y := pieceStart tor i + (pieceSize tor i).toNat - 1) (by omega) (by omega) (by omega)
        (by omega)
      subst hcommon
      omega
    have hne : j ≠ i := by
      rintro rfl
      omega
    have hearlier := (List.mem_cons.mp ((hmem j).mpr hj)).resolve_left hne
    obtain ⟨k, hk, hkj⟩ := (unbroken_cons.mp h).2.before hearlier (by rw [hji]; exact ⟨p, hp, hcut⟩)
    -- So the last piece was handed over twice.
    have hk' := (hmem k).mp (List.mem_cons_of_mem _ hk)
    have hkpos := hgeo.pieceSize_pos hk'
    obtain rfl := hgeo.eq_of_common hi hk'
      (y := pieceStart tor i + (pieceSize tor i).toNat - 1) (by omega) (by omega) (by omega)
      (by omega)
    exact (List.nodup_cons.mp hnodup).1 hk

/-- The writer before the first piece. -/
theorem streamAt_open (htor : Archivable tor) (clock : List UInt64) :
    StreamAt tor payload [] 0 (InPieces tor []) (tarWriterOpen ⟨[], []⟩ clock tor) := by
  refine ⟨⟨[], [], ⟨rfl, rfl, rfl⟩, .nil, .none not_insideFile_zero⟩, fun p hp _ heq => ?_⟩
  have hlt := index_lt htor hp
  have hbits := congrArg (fun n : Int32 => n.toUInt32.toNat) heq
  have hminus : (tarWriterOpen ⟨[], []⟩ clock tor).currentFileIndex.toUInt32.toNat =
      2 ^ 32 - 1 := rfl
  simp only [Int32.toUInt32_ofNat', UInt32.toNat_ofNat', hminus] at hbits
  omega

/-- The pieces of a payload, written in an order that breaks no file. -/
theorem writeHanded_at (htor : Archivable tor) (hgeo : Layout tor payload)
    {clock : List UInt64} {handed : List (UInt32 × Bytes)} :
    ∀ {tw : TarWriter}, (∀ x ∈ handed, x.1 < tor.numPieces ∧ x.2 = pieceOf tor payload x.1) →
    (handed.map Prod.fst).Nodup → Unbroken tor (handed.map Prod.fst) →
    writeHanded tor (tarWriterOpen ⟨[], []⟩ clock tor) handed = some tw →
    StreamAt tor payload ((handed.map Prod.fst).reverse.flatMap (closedBy tor payload))
      (handedEnd tor (handed.map Prod.fst)) (InPieces tor (handed.map Prod.fst)) tw := by
  induction handed with
  | nil =>
    intro tw _ _ _ hwrite
    cases hwrite
    exact streamAt_open htor clock
  | cons x earlier ih =>
    obtain ⟨i, buf⟩ := x
    intro tw hpieces hnodup hunbroken hwrite
    obtain ⟨hi, hbuf⟩ := hpieces _ List.mem_cons_self
    obtain ⟨tw1, hearlier, hwrite⟩ := Option.bind_eq_some_iff.mp hwrite
    have hnew := List.nodup_cons.mp hnodup
    obtain ⟨horder, hunbroken⟩ := unbroken_cons.mp hunbroken
    have hstream := ih (fun x hx => hpieces x (List.mem_cons_of_mem _ hx)) hnew.2 hunbroken
      hearlier
    -- The piece starts where the archive stands, or both positions are between files.
    have hstart : StreamAt tor payload
        ((earlier.map Prod.fst).reverse.flatMap (closedBy tor payload)) (pieceStart tor i)
        (InPieces tor (earlier.map Prod.fst)) tw1 := by
      rcases horder with heq | ⟨hend, hbegin⟩
      · rw [heq]
        exact hstream
      · exact hstream.move hend hbegin
    dsimp only at hbuf hi
    rw [hbuf] at hwrite
    have hstep := tarWriterWrite_at htor hgeo hi (fun y h1 h2 ⟨j, hj, h3, h4⟩ => by
      obtain ⟨x, hx, rfl⟩ := List.mem_map.mp hj
      obtain rfl := hgeo.eq_of_common hi (hpieces x (List.mem_cons_of_mem _ hx)).1 h1 h2 h3 h4
      exact hnew.1 hj) hstart hwrite
    rw [List.map_cons, List.reverse_cons, List.flatMap_append, List.flatMap_singleton]
    refine hstep.mono fun y hy => ?_
    rcases hy with ⟨j, hj, hy⟩ | hy
    · exact ⟨j, List.mem_cons_of_mem _ hj, hy⟩
    · exact ⟨i, List.mem_cons_self, hy⟩

end Order

/-! ## The whole archive -/

/-- The entries that an archive of the payload has to have. -/
def fileEntries (tor : TorrentT) (payload : Bytes) : List Entry :=
  (tor.placed.filter fun p => decide (0 < p.size)).map (fileEntry payload)

section Archive

variable {tor : TorrentT} {payload : Bytes}

/-- Padding a whole number of blocks does nothing. -/
theorem writePadding_of_aligned {bytes : Bytes} {tw : TarWriter} (h : Streaming tor bytes tw)
    (hbytes : bytes.length % 512 = 0) : writePadding tw = tw := by
  have hmod : tw.totalWritten % 512 = 0 := by
    rw [← UInt64.toNat_inj, UInt64.toNat_mod]
    exact h.total.trans hbytes
  unfold writePadding
  dsimp only
  rw [hmod]
  exact if_neg (not_not_intro rfl)

/-- `tar_writer_close` at the end of a block only adds the end mark. -/
theorem Streaming.close {bytes : Bytes} {tw : TarWriter} (h : Streaming tor bytes tw)
    (hbytes : bytes.length % 512 = 0) : (tarWriterClose tw).out.bytes = bytes ++ endMark := by
  have hpad := writePadding_of_aligned h hbytes
  -- The file that is still open is complete, so that its padding is already there.
  have hclose : tarWriterClose tw = { tw with out := tw.out.fwrite endMark } := by
    unfold tarWriterClose
    split
    · split
      · split
        · rw [hpad]; rfl
        · rfl
      · rfl
    · rfl
  rw [hclose, h.out]
  show bytes ++ endMark.take endMark.length = _
  rw [List.take_length]

/-- Between files the archive is complete but for the end mark. -/
theorem StreamAt.close {closed : List Entry} {x : Nat} {seen : Nat → Prop} {tw : TarWriter}
    (h : StreamAt tor payload closed x seen tw) (hx : ¬ InsideFile tor x) :
    read (tarWriterClose tw).out.bytes = some closed := by
  obtain ⟨⟨parts, tail, hstream, hparts, hopen⟩, _⟩ := h
  cases hopen with
  | file time hp hcut hcurrent => exact absurd ⟨_, hp, hcut⟩ hx
  | none =>
    rw [List.append_nil] at hstream
    rw [hstream.close (length_flatten_mod hparts), read_flatten hparts]

/-- Every file that is not empty is completed by exactly one piece. -/
theorem closedBy_perm (hgeo : Layout tor payload) {indices : List UInt32}
    (hnodup : indices.Nodup) (hmem : ∀ i, i ∈ indices ↔ i < tor.numPieces) :
    (indices.reverse.flatMap (closedBy tor payload)).Perm (fileEntries tor payload) := by
  have hcells : (indices.reverse.flatMap (closedBy tor payload)).Perm
      (indices.flatMap (closedBy tor payload)) :=
    (List.reverse_perm indices).flatMap_right _
  have hmap : indices.flatMap (closedBy tor payload) =
      (indices.flatMap fun i => tor.placed.filter (closes (pieceStart tor i)
        (pieceStart tor i + (pieceSize tor i).toNat))).map (fileEntry payload) := by
    rw [List.map_flatMap]
    rfl
  rw [hmap] at hcells
  refine hcells.trans (List.Perm.map _ ?_)
  have hsum := hgeo.sum_lengths
  have hlen := hgeo.length_payload
  refine flatMap_filter_perm (fun p hp hpos => ?_) fun p _ hzero i _ => ?_
  · have hpos' : 0 < p.size := of_decide_eq_true hpos
    have hstop := (place_bounds hp).2.2.2.1
    have hsize : p.stop = p.start + p.size := rfl
    -- The piece that completes the file is the one with its last position.
    obtain ⟨i, hi, h1, h2⟩ := hgeo.exists_piece (y := p.stop - 1) (by omega)
    refine countP_eq_one hnodup ((hmem i).mpr hi) ?_ fun j hj hcloses => ?_
    · exact decide_eq_true ⟨by omega, by omega, by omega⟩
    · obtain ⟨_, h3, h4⟩ := of_decide_eq_true hcloses
      exact hgeo.eq_of_common ((hmem j).mp hj) hi (y := p.stop - 1) (by omega) (by omega) h1 h2
  · have hzero' : ¬ 0 < p.size := of_decide_eq_false hzero
    have hsize : p.stop = p.start + p.size := rfl
    exact decide_eq_false fun ⟨h, _, _⟩ => by omega

/-- All pieces of a payload, in an order that breaks no file, make an archive of the
files. -/
theorem read_writeHanded (htor : Archivable tor) (hgeo : Layout tor payload)
    {clock : List UInt64} {handed : List (UInt32 × Bytes)} {tw : TarWriter}
    (hpieces : ∀ x ∈ handed, x.2 = pieceOf tor payload x.1)
    (hnodup : (handed.map Prod.fst).Nodup)
    (hmem : ∀ i, i ∈ handed.map Prod.fst ↔ i < tor.numPieces)
    (hunbroken : Unbroken tor (handed.map Prod.fst))
    (hwrite : writeHanded tor (tarWriterOpen ⟨[], []⟩ clock tor) handed = some tw) :
    ∃ es, read (tarWriterClose tw).out.bytes = some es ∧ es.Perm (fileEntries tor payload) := by
  have hstream := writeHanded_at htor hgeo
    (fun x hx => ⟨(hmem x.1).mp (List.mem_map_of_mem hx), hpieces x hx⟩) hnodup hunbroken hwrite
  exact ⟨_, hstream.close (hunbroken.end_not_inside hgeo hnodup hmem),
    closedBy_perm hgeo hnodup hmem⟩

end Archive

end CourseWork.Torrent
