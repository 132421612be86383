import CourseWork.Lib.Tiling
import CourseWork.Torrent.StorageWrite
import CourseWork.Torrent.TarHeaders

/-!
# Pieces written to an archive

`tar_writer_write` continues the archive correctly if each piece starts where the archive
stands: where the piece before it stopped, or in no file at all.
-/

namespace CourseWork.Torrent
open CLib Ustar Tiling

/-! ## The files in the payload -/

/-- The files of a torrent with their places in the payload. -/
def TorrentT.placed (tor : TorrentT) : List (Placed FileT) :=
  place (fun f => f.length.toNat) 0 0 tor.files

/-- The position `x` of the payload is an inner one of a file. -/
def InsideFile (tor : TorrentT) (x : Nat) : Prop := ∃ p ∈ tor.placed, p.Cuts x

instance (tor : TorrentT) (x : Nat) : Decidable (InsideFile tor x) :=
  inferInstanceAs (Decidable (∃ p ∈ tor.placed, p.Cuts x))

/-- Bytes `lo .. hi` of the payload. -/
def part (payload : Bytes) (lo hi : Nat) : Bytes := (payload.drop lo).take (hi - lo)

theorem length_part {payload : Bytes} {lo hi : Nat} (h : hi ≤ payload.length) :
    (part payload lo hi).length = hi - lo := by
  rw [part, List.length_take, List.length_drop]
  omega

theorem part_append {payload : Bytes} {lo mid hi : Nat} (h1 : lo ≤ mid) (h2 : mid ≤ hi) :
    part payload lo mid ++ part payload mid hi = part payload lo hi := by
  rw [part, part, part, show hi - lo = (mid - lo) + (hi - mid) by omega, List.take_add,
    List.drop_drop, show lo + (mid - lo) = mid by omega]

/-- The entry of a file: its path, cut to the 99 bytes that its name can have, and its
part of the payload. -/
def fileEntry (payload : Bytes) (p : Placed FileT) : Entry :=
  ⟨cstr ((joinPath p.item.path).take 99), part payload p.start p.stop⟩

/-! ## The stream -/

/-- The writer has written `bytes` to a standard output that takes everything, and knows
where it is in a block. -/
structure Streaming (tor : TorrentT) (bytes : Bytes) (tw : TarWriter) : Prop where
  tor : tw.tor = tor
  out : tw.out = ⟨bytes, []⟩
  total : tw.totalWritten.toNat % 512 = bytes.length % 512

section Streaming

variable {tor : TorrentT} {bytes : Bytes} {tw : TarWriter}

theorem Streaming.put (h : Streaming tor bytes tw) (data : Bytes) :
    Streaming tor (bytes ++ data) (tw.put data) where
  tor := h.tor
  out := by
    show tw.out.fwrite data = _
    rw [h.out]
    show (⟨bytes ++ data.take data.length, []⟩ : OutStream) = _
    rw [List.take_length]
  total := by
    show (tw.totalWritten + UInt64.ofNat data.length).toNat % 512 = _
    have htotal := h.total
    rw [UInt64.toNat_add, UInt64.toNat_ofNat', List.length_append]
    omega

/-- `write_padding` completes a block. -/
theorem Streaming.writePadding (h : Streaming tor bytes tw) :
    ∃ n, n < 512 ∧ (bytes.length + n) % 512 = 0 ∧
      Streaming tor (bytes ++ List.replicate n 0) (writePadding tw) ∧
      (writePadding tw).currentFileIndex = tw.currentFileIndex ∧
      (writePadding tw).clock = tw.clock := by
  have htotal := h.total
  have hmod : (tw.totalWritten % 512).toNat = bytes.length % 512 := by
    rw [UInt64.toNat_mod, ← htotal]
    rfl
  unfold Torrent.writePadding
  dsimp only
  split
  · next hne =>
    have hpos : (tw.totalWritten % 512).toNat ≠ 0 := fun h0 => hne (UInt64.toNat_inj.mp h0)
    have hsub : (512 - tw.totalWritten % 512).toNat = 512 - bytes.length % 512 := by
      rw [UInt64.toNat_sub_of_le, hmod]
      · rfl
      · rw [UInt64.le_iff_toNat_le, hmod]
        exact Nat.le_of_lt (Nat.mod_lt _ (by decide))
    rw [hmod] at hpos
    exact ⟨_, by omega, by omega, h.put _, rfl, rfl⟩
  · next heq =>
    rw [ne_eq, Decidable.not_not] at heq
    rw [heq] at hmod
    refine ⟨0, by decide, hmod.symm, ?_, rfl, rfl⟩
    rw [List.replicate_zero, List.append_nil]
    exact h

/-- The switch to a file adds `hdr`: nothing for the current file, else its header with the
next time. -/
def Entered (i : Nat) (f : FileT) (tw tw' : TarWriter) (hdr : Bytes) : Prop :=
  (tw.currentFileIndex = Int32.ofNat i ∧ hdr = [] ∧ tw'.clock = tw.clock) ∨
  (tw.currentFileIndex ≠ Int32.ofNat i ∧ (joinPath f.path).length < pathLen ∧
    hdr = (tarHeader (joinPath f.path) f.length (tw.clock.headD 0)).bytes ∧
    tw'.clock = tw.clock.tail)

/-- The switch to a file writes its header, unless it is the current one. -/
theorem Streaming.enter (h : Streaming tor bytes tw) {i : Nat} {f : FileT} {tw' : TarWriter}
    (henter : enterFile tw i f = some tw') :
    ∃ hdr, Streaming tor (bytes ++ hdr) tw' ∧ tw'.currentFileIndex = Int32.ofNat i ∧
      Entered i f tw tw' hdr := by
  unfold enterFile at henter
  split at henter
  · next hcurrent =>
    split at henter
    · next hfits =>
      cases henter
      have hput := h.put (tarHeader (joinPath f.path) f.length (tw.clock.headD 0)).bytes
      exact ⟨_, ⟨hput.tor, hput.out, hput.total⟩, rfl,
        .inr ⟨Ne.symm hcurrent, hfits, rfl, rfl⟩⟩
    · exact nomatch henter
  · next hcurrent =>
    cases henter
    have hsame := (not_not.mp hcurrent).symm
    exact ⟨[], by rwa [List.append_nil], hsame, .inl ⟨hsame, rfl, rfl⟩⟩

end Streaming

/-! ## Where the archive stands -/

/-- The torrents whose files `tar_writer_write` can tell apart, and whose sizes fit the
headers. -/
structure Archivable (tor : TorrentT) : Prop where
  files_lt : tor.files.length < 2 ^ 32
  length_lt : ∀ f ∈ tor.files, f.length.toNat < 2 ^ 32

/-- What the archive has of the file that the position `x` cuts: the header, and the
bytes up to `x`. -/
inductive OpenAt (tor : TorrentT) (payload : Bytes) (x : Nat) (current : Int32) : Bytes → Prop
  | file {p : Placed FileT} (time : UInt64) (hp : p ∈ tor.placed) (hcut : p.Cuts x)
      (hcurrent : current = Int32.ofNat p.index) :
      OpenAt tor payload x current
        ((tarHeader (joinPath p.item.path) p.item.length time).bytes ++ part payload p.start x)
  | none (hcut : ¬ InsideFile tor x) : OpenAt tor payload x current []

/-- The archive has the entries `closed` and stands at the position `x` of the payload.
The current file is one whose first position was `seen`. -/
structure StreamAt (tor : TorrentT) (payload : Bytes) (closed : List Entry) (x : Nat)
    (seen : Nat → Prop) (tw : TarWriter) : Prop where
  stream : ∃ parts tail, Streaming tor (parts.flatten ++ tail) tw ∧
    List.Forall₂ Encodes parts closed ∧ OpenAt tor payload x tw.currentFileIndex tail
  fresh : ∀ p ∈ tor.placed, 0 < p.size → tw.currentFileIndex = Int32.ofNat p.index → seen p.start

section Steps

variable {tor : TorrentT} {payload : Bytes} {closed : List Entry} {x : Nat} {seen : Nat → Prop}
  {tw tw' : TarWriter} {p : Placed FileT}

theorem StreamAt.mono {seen' : Nat → Prop} (h : StreamAt tor payload closed x seen tw)
    (hseen : ∀ y, seen y → seen' y) : StreamAt tor payload closed x seen' tw :=
  ⟨h.stream, fun p hp hpos hcurrent => hseen _ (h.fresh p hp hpos hcurrent)⟩

/-- Between files it does not matter where the archive stands. -/
theorem StreamAt.move {x' : Nat} (h : StreamAt tor payload closed x seen tw)
    (hx : ¬ InsideFile tor x) (hx' : ¬ InsideFile tor x') :
    StreamAt tor payload closed x' seen tw := by
  obtain ⟨⟨parts, tail, hstream, hparts, hopen⟩, hfresh⟩ := h
  cases hopen with
  | file time hp hcut hcurrent => exact absurd ⟨_, hp, hcut⟩ hx
  | none => exact ⟨⟨parts, [], hstream, hparts, .none hx'⟩, hfresh⟩

theorem index_lt (htor : Archivable tor) (hp : p ∈ tor.placed) : p.index < 2 ^ 32 - 1 := by
  have := htor.files_lt
  have := (place_bounds hp).2.1
  omega

theorem eq_of_index_eq (htor : Archivable tor) {q : Placed FileT} (hp : p ∈ tor.placed)
    (hq : q ∈ tor.placed) (heq : Int32.ofNat p.index = Int32.ofNat q.index) : p = q := by
  have hp' := index_lt htor hp
  have hq' := index_lt htor hq
  refine place_index_inj hp hq ?_
  have hbits := congrArg (fun n : Int32 => n.toBitVec.toNat) heq
  simp only [Int32.toBitVec_ofNat', BitVec.toNat_ofNat] at hbits
  omega

theorem size_eq (hp : p ∈ tor.placed) : p.size = p.item.length.toNat :=
  (place_bounds hp).2.2.2.2

/-- The switch to the file at the position: its header is written unless it is the current
file. -/
theorem StreamAt.enter (h : StreamAt tor payload closed x seen tw)
    (hp : p ∈ tor.placed) (hle : p.start ≤ x) (hlt : x < p.stop)
    (hnew : x = p.start → ¬ seen x) (henter : enterFile tw p.index p.item = some tw') :
    ∃ parts time, Streaming tor (parts.flatten ++
        ((tarHeader (joinPath p.item.path) p.item.length time).bytes ++ part payload p.start x)) tw' ∧
      List.Forall₂ Encodes parts closed ∧ tw'.currentFileIndex = Int32.ofNat p.index ∧
      (p.start < x → seen p.start) := by
  have hpos : 0 < p.size := by
    unfold Placed.stop at hlt
    omega
  obtain ⟨⟨parts, tail, hstream, hparts, hopen⟩, hfresh⟩ := h
  obtain ⟨hdr, hstream', hcurrent', hhdr⟩ := hstream.enter henter
  cases hopen with
  | @file q time hq hcut hcurrent =>
    -- The open file is `p` itself, so no header is written.
    obtain rfl := place_unique hp hq hle hlt (Nat.le_of_lt hcut.1) hcut.2
    rcases hhdr with ⟨_, rfl, _⟩ | ⟨hnot, _⟩
    · rw [List.append_nil] at hstream'
      exact ⟨parts, time, hstream', hparts, hcurrent', fun _ => hfresh p hp hpos hcurrent⟩
    · exact absurd hcurrent hnot
  | none hcut =>
    -- Between files the archive stands at the start of `p`, whose header is new.
    obtain heq : x = p.start := by
      by_contra hne
      exact hcut ⟨p, hp, by omega, hlt⟩
    rcases hhdr with ⟨hcurrent, _⟩ | ⟨_, _, rfl, _⟩
    · exact absurd (heq ▸ hfresh p hp hpos hcurrent) (hnew heq)
    · have hempty : part payload p.start x = [] := by
        rw [part, heq, Nat.sub_self, List.take_zero]
      refine ⟨parts, tw.clock.headD 0, ?_, hparts, hcurrent', fun hlt => by omega⟩
      rw [hempty, List.append_nil]
      rwa [List.append_nil] at hstream'

/-- The header, the data and the padding of a file. -/
theorem encodes_file (hp : p ∈ tor.placed) (hlt : p.item.length.toNat < 2 ^ 32)
    (hstop : p.stop ≤ payload.length) (time : UInt64) {n : Nat} (hn : n < 512)
    (halign : (512 + p.size + n) % 512 = 0) :
    Encodes ((tarHeader (joinPath p.item.path) p.item.length time).bytes ++
      (part payload p.start p.stop ++ List.replicate n 0)) (fileEntry payload p) := by
  have hsize := size_eq hp
  have hlength : (part payload p.start p.stop).length = p.size := by
    rw [length_part hstop, Placed.stop, Nat.add_sub_cancel_left]
  refine ⟨_, _, ?_, rfl, ?_⟩
  · rw [readHeader_tarHeader _ _ hlt, fileEntry]
    dsimp only
    rw [hlength, hsize]
  · show (part payload p.start p.stop).length + _ = roundUp (part payload p.start p.stop).length
    rw [hlength, List.length_replicate, roundUp]
    omega

/-- The bytes `x .. b` of the file at the position `x`, and padding if they complete it. -/
theorem StreamAt.fragment (htor : Archivable tor) (h : StreamAt tor payload closed x seen tw)
    (hp : p ∈ tor.placed) (hle : p.start ≤ x) {b : Nat} (hlt : x < b) (hb : b ≤ p.stop)
    (hstop : p.stop ≤ payload.length) (hnew : x = p.start → ¬ seen x)
    (henter : enterFile tw p.index p.item = some tw') (n : UInt64) :
    StreamAt tor payload (closed ++ if b = p.stop then [fileEntry payload p] else []) b
      (fun y => seen y ∨ (x ≤ y ∧ y < b))
      (if b = p.stop then writePadding { tw'.put (part payload x b) with fileBytesWritten := n }
        else { tw'.put (part payload x b) with fileBytesWritten := n }) := by
  obtain ⟨parts, time, hstream, hparts, hcurrent, hseen⟩ := h.enter hp hle (by omega) hnew henter
  have hput : Streaming tor (parts.flatten ++
      ((tarHeader (joinPath p.item.path) p.item.length time).bytes ++ part payload p.start b))
      { tw'.put (part payload x b) with fileBytesWritten := n } := by
    have := hstream.put (part payload x b)
    rw [List.append_assoc, List.append_assoc, part_append hle (Nat.le_of_lt hlt)] at this
    exact ⟨this.tor, this.out, this.total⟩
  have hfresh : ∀ q ∈ tor.placed, 0 < q.size → Int32.ofNat p.index = Int32.ofNat q.index →
      seen q.start ∨ (x ≤ q.start ∧ q.start < b) := by
    intro q hq _ heq
    obtain rfl := eq_of_index_eq htor hp hq heq
    rcases Nat.lt_or_ge p.start x with hbefore | hat
    · exact .inl (hseen hbefore)
    · exact .inr ⟨hat, by omega⟩
  split
  · next hend =>
    -- The file is complete: the padding closes its entry.
    subst hend
    obtain ⟨k, hk, halign, hpad, hcurrent', _⟩ := hput.writePadding
    have hsize : p.stop = p.start + p.size := rfl
    have hheader := (sized_tarHeader (joinPath p.item.path) p.item.length time).length_bytes
    have hmult := length_flatten_mod hparts
    simp only [List.length_append, hheader, length_part hstop] at halign
    have hfile := encodes_file hp (htor.length_lt _ (item_mem_of_mem_place hp)) hstop time hk
      (by omega)
    refine ⟨⟨parts ++ [_], [], ?_, List.rel_append hparts (.cons hfile .nil), .none ?_⟩, ?_⟩
    · rw [List.flatten_append, List.flatten_singleton, List.append_nil]
      rwa [List.append_assoc, List.append_assoc] at hpad
    · rintro ⟨q, hq, hcut⟩
      exact (not_cuts_end hp hq (by omega)).2 hcut
    · rw [hcurrent']
      exact fun q hq hpos heq => hfresh q hq hpos (hcurrent.symm.trans heq)
  · next hend =>
    rw [List.append_nil]
    have hcut : p.Cuts b := ⟨by omega, by omega⟩
    exact ⟨⟨parts, _, hput, hparts, .file time hp hcut hcurrent⟩,
      fun q hq hpos heq => hfresh q hq hpos (hcurrent.symm.trans heq)⟩

end Steps

/-! ## One piece -/

/-- The range `lo .. hi` contains the last position of a file that is not empty. -/
def closes (lo hi : Nat) (p : Placed FileT) : Bool :=
  decide (p.start < p.stop ∧ lo < p.stop ∧ p.stop ≤ hi)

/-- The position in `lo .. hi` next to `x`. -/
def clamp (lo hi x : Nat) : Nat := min hi (max lo x)

theorem part_part {payload : Bytes} {lo hi x b : Nat} (hx : lo ≤ x) (hb : b ≤ hi) :
    ((part payload lo hi).drop (x - lo)).take (b - x) = part payload x b := by
  rw [part, part, List.drop_take, List.take_take, List.drop_drop]
  congr 1
  · omega
  · congr 1
    omega

/-- The bytes `lo .. hi` of the payload go to the archive as a part of a file. -/
def writeFragment (payload : Bytes) (p : Placed FileT) (lo hi : Nat) (tw : TarWriter) :
    Option TarWriter :=
  if lo < hi then
    (enterFile tw p.index p.item).map fun tw =>
      let tw := { tw.put (part payload lo hi) with
        fileBytesWritten := tw.fileBytesWritten + UInt64.ofNat (hi - lo) }
      if hi = p.stop then writePadding tw else tw
  else some tw

/-- The body of the loop of `tar_writer_write`, in unbounded arithmetic. -/
theorem writeFilePart_eq (payload : Bytes) (pieceStart pieceEnd : UInt64) (p : Placed FileT)
    (tw : TarWriter) {fileStart : UInt64} (hstart : fileStart.toNat = p.start)
    (hsize : p.item.length.toNat = p.size) (hlt : p.stop < 2 ^ 64) :
    writeFilePart pieceStart pieceEnd (part payload pieceStart.toNat pieceEnd.toNat) p.index
        p.item fileStart tw =
      writeFragment payload p (max pieceStart.toNat p.start) (min pieceEnd.toNat p.stop) tw := by
  have hstop : (fileStart + p.item.length).toNat = p.stop := by
    rw [toNat_add_of_lt (by rwa [hstart, hsize]), hstart, hsize]
    rfl
  rw [writeFilePart_overlap, writeFragment]
  split
  · next o ho =>
    obtain ⟨hover, hfile, hpiece, hbytes⟩ := overlap_some ho
    rw [hstart] at hfile hpiece hbytes hover
    rw [hstop] at hover hbytes
    have hdata : o.data (part payload pieceStart.toNat pieceEnd.toNat) =
        part payload (max pieceStart.toNat p.start) (min pieceEnd.toNat p.stop) := by
      rw [Overlap.data, hpiece, hbytes, part_part (by omega) (by omega)]
    have hcount : o.bytes = UInt64.ofNat
        (min pieceEnd.toNat p.stop - max pieceStart.toNat p.start) := by
      rw [← hbytes, UInt64.ofNat_toNat]
    have hlast : o.inFile + o.bytes = p.item.length ↔ min pieceEnd.toNat p.stop = p.stop := by
      have hstop' : p.stop = p.start + p.size := rfl
      rw [← UInt64.toNat_inj, toNat_add_of_lt (by omega), hfile, hbytes, hsize]
      omega
    rw [if_pos hover, hdata, hcount]
    simp only [← hcount, hlast]
  · next ho =>
    have hover := overlap_none ho
    rw [hstart, hstop] at hover
    rw [if_neg (Nat.not_lt.mpr hover)]

section Piece

variable {tor : TorrentT} {payload : Bytes} {seen : Nat → Prop} {pieceStart pieceEnd : UInt64}

/-- One file: the archive moves over the part of the file that is in the piece. -/
theorem writeFilePart_at (htor : Archivable tor) (hlt : pieceStart.toNat < pieceEnd.toNat)
    (hnew : ∀ y, pieceStart.toNat ≤ y → y < pieceEnd.toNat → ¬ seen y)
    (hpayload : payload.length < 2 ^ 64) {p : Placed FileT} (hp : p ∈ tor.placed)
    (hstop : p.stop ≤ payload.length) {fileStart : UInt64} (hstart : fileStart.toNat = p.start)
    {closed : List Entry} {tw tw' : TarWriter}
    (h : StreamAt tor payload closed (clamp pieceStart.toNat pieceEnd.toNat p.start)
      (fun y => seen y ∨ (pieceStart.toNat ≤ y ∧ y < clamp pieceStart.toNat pieceEnd.toNat p.start))
      tw)
    (hwrite : writeFilePart pieceStart pieceEnd (part payload pieceStart.toNat pieceEnd.toNat)
      p.index p.item fileStart tw = some tw') :
    StreamAt tor payload
      (closed ++ if closes pieceStart.toNat pieceEnd.toNat p then [fileEntry payload p] else [])
      (clamp pieceStart.toNat pieceEnd.toNat p.stop)
      (fun y => seen y ∨ (pieceStart.toNat ≤ y ∧ y < clamp pieceStart.toNat pieceEnd.toNat p.stop))
      tw' := by
  have hsize : p.stop = p.start + p.item.length.toNat := by rw [Placed.stop, size_eq hp]
  rw [writeFilePart_eq payload pieceStart pieceEnd p tw hstart (size_eq hp).symm (by omega),
    writeFragment] at hwrite
  generalize pieceStart.toNat = lo at *
  generalize pieceEnd.toNat = hi at *
  by_cases hover : max lo p.start < min hi p.stop
  · rw [if_pos hover] at hwrite
    obtain ⟨tw1, henter, rfl⟩ := Option.map_eq_some_iff.mp hwrite
    have hx : clamp lo hi p.start = max lo p.start := by unfold clamp; omega
    have hb : clamp lo hi p.stop = min hi p.stop := by unfold clamp; omega
    have hcloses : closes lo hi p = decide (min hi p.stop = p.stop) := by
      rw [closes]
      congr 1
      exact propext ⟨fun ⟨_, _, _⟩ => by omega, fun _ => ⟨by omega, by omega, by omega⟩⟩
    rw [hb, hcloses]
    rw [hx] at h
    have hstep := h.fragment htor hp (by omega) hover (by omega) hstop (fun _ hseen => by
      rcases hseen with hseen | ⟨_, hself⟩
      · exact hnew _ (by omega) (by omega) hseen
      · omega) henter (tw1.fileBytesWritten + UInt64.ofNat (min hi p.stop - max lo p.start))
    simp only [decide_eq_true_eq]
    refine hstep.mono fun y hy => ?_
    rcases hy with (hy | hy) | hy
    · exact .inl hy
    · exact .inr ⟨hy.1, by omega⟩
    · exact .inr ⟨by omega, hy.2⟩
  · rw [if_neg hover] at hwrite
    cases hwrite
    have hx : clamp lo hi p.start = clamp lo hi p.stop := by unfold clamp; omega
    have hcloses : closes lo hi p = false := decide_eq_false fun ⟨_, _, _⟩ => by omega
    rw [hcloses, ← hx]
    simpa using h

/-- The loop over the files. -/
theorem writeFileParts_at (htor : Archivable tor) (hlt : pieceStart.toNat < pieceEnd.toNat)
    (hnew : ∀ y, pieceStart.toNat ≤ y → y < pieceEnd.toNat → ¬ seen y)
    (hpayload : payload.length < 2 ^ 64) (l : List FileT) :
    ∀ {i o : Nat} {fileStart : UInt64} {closed : List Entry} {tw tw' : TarWriter},
    (∀ p ∈ place (fun f => f.length.toNat) i o l, p ∈ tor.placed) → fileStart.toNat = o →
    o + (l.map fun f => f.length.toNat).sum ≤ payload.length →
    StreamAt tor payload closed (clamp pieceStart.toNat pieceEnd.toNat o)
      (fun y => seen y ∨ (pieceStart.toNat ≤ y ∧ y < clamp pieceStart.toNat pieceEnd.toNat o)) tw →
    writeFileParts pieceStart pieceEnd (part payload pieceStart.toNat pieceEnd.toNat) i fileStart
      l tw = some tw' →
    StreamAt tor payload
      (closed ++ ((place (fun f => f.length.toNat) i o l).filter
        (closes pieceStart.toNat pieceEnd.toNat)).map (fileEntry payload))
      (clamp pieceStart.toNat pieceEnd.toNat (o + (l.map fun f => f.length.toNat).sum))
      (fun y => seen y ∨ (pieceStart.toNat ≤ y ∧ y < clamp pieceStart.toNat pieceEnd.toNat
        (o + (l.map fun f => f.length.toNat).sum))) tw' := by
  induction l with
  | nil =>
    intro i o fileStart closed tw tw' _ _ _ h hwrite
    cases hwrite
    simpa [place] using h
  | cons f l ih =>
    intro i o fileStart closed tw tw' hplaced hstart hsum h hwrite
    simp only [List.map_cons, List.sum_cons] at hsum ⊢
    obtain ⟨tw1, hpart, hwrite⟩ := Option.bind_eq_some_iff.mp hwrite
    have hp := hplaced _ List.mem_cons_self
    have hstep := writeFilePart_at htor hlt hnew hpayload hp
      (show o + f.length.toNat ≤ payload.length by omega) hstart h hpart
    have hstart' : (fileStart + f.length).toNat = o + f.length.toNat := by
      rw [toNat_add_of_lt (by omega), hstart]
    have hrest := ih (fun p hp => hplaced p (List.mem_cons_of_mem _ hp)) hstart'
      (by rw [Nat.add_assoc]; exact hsum) hstep hwrite
    rw [place, List.filter_cons, ← Nat.add_assoc]
    split
    · next hcloses =>
      rw [if_pos hcloses, List.append_assoc] at hrest
      exact hrest
    · next hcloses =>
      rw [if_neg hcloses, List.append_nil] at hrest
      exact hrest

/-- The entries of the files that a piece completes. -/
def closedBy (tor : TorrentT) (payload : Bytes) (i : UInt32) : List Entry :=
  (tor.placed.filter (closes (i.toNat * tor.pieceLength.toNat)
    (i.toNat * tor.pieceLength.toNat + (pieceSize tor i).toNat))).map (fileEntry payload)

/-- `tar_writer_write` of a piece where the archive stands. -/
theorem tarWriterWrite_at (htor : Archivable tor) (hgeo : Layout tor payload) {i : UInt32}
    (hi : i < tor.numPieces) {closed : List Entry} {tw tw' : TarWriter}
    (hnew : ∀ y, i.toNat * tor.pieceLength.toNat ≤ y →
      y < i.toNat * tor.pieceLength.toNat + (pieceSize tor i).toNat → ¬ seen y)
    (h : StreamAt tor payload closed (i.toNat * tor.pieceLength.toNat) seen tw)
    (hwrite : tarWriterWrite tw i (pieceOf tor payload i) (pieceSize tor i) = some tw') :
    StreamAt tor payload (closed ++ closedBy tor payload i)
      (i.toNat * tor.pieceLength.toNat + (pieceSize tor i).toNat)
      (fun y => seen y ∨ (i.toNat * tor.pieceLength.toNat ≤ y ∧
        y < i.toNat * tor.pieceLength.toNat + (pieceSize tor i).toNat)) tw' := by
  have hsize := toNat_pieceSize hgeo.pieceLength_pos hi
  have hpos := hgeo.pieceSize_pos hi
  have hend : i.toNat * tor.pieceLength.toNat + tor.sizeOf i.toNat ≤ payload.length :=
    hgeo.tiles.end_le_total (UInt32.lt_iff_toNat_lt.mp hi)
  have hlen := hgeo.length_payload
  have hlt := tor.totalLength.toNat_lt
  have hsum := hgeo.sum_lengths
  obtain ⟨_, _, hstream, _, _⟩ := h.stream
  rw [tarWriterWrite, hstream.tor] at hwrite
  have hdata : pieceOf tor payload i = part payload (i.toNat * tor.pieceLength.toNat)
      (i.toNat * tor.pieceLength.toNat + (pieceSize tor i).toNat) := by
    rw [pieceOf, part, Nat.add_sub_cancel_left]
  have hstart := toNat_pieceStart i tor.pieceLength
  have hstop := toNat_pieceEnd i tor.pieceLength (pieceSize tor i)
  rw [closedBy]
  rw [hdata] at hwrite
  generalize i.toUInt64 * tor.pieceLength.toUInt64 + (pieceSize tor i).toUInt64 = pieceStop at *
  generalize i.toUInt64 * tor.pieceLength.toUInt64 = pieceStart at *
  rw [← hsize, ← hstop] at hend
  rw [← hstop, ← hstart] at hwrite hnew ⊢
  rw [← hstart] at h hstop
  have hfirst : clamp pieceStart.toNat pieceStop.toNat 0 = pieceStart.toNat := by
    unfold clamp
    omega
  have hlast : clamp pieceStart.toNat pieceStop.toNat
      (0 + (tor.files.map fun f => f.length.toNat).sum) = pieceStop.toNat := by
    unfold clamp
    omega
  have hwalk := writeFileParts_at htor (by omega) hnew (by omega) tor.files (fun p hp => hp) rfl
    (by omega) (by rw [hfirst]; exact h.mono fun y hy => .inl hy) hwrite
  rwa [hlast] at hwalk

end Piece

end CourseWork.Torrent
