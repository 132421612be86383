import CourseWork.Torrent.OutputCalls
import CourseWork.Torrent.TarArchive

/-!
# Archives from pieces in order

Writing all pieces in the order of their indices is writing the files one after the other,
each in one go: where a piece ends inside of a file, the next one continues it.
-/

namespace CourseWork.Torrent
open CLib Ustar Tiling

/-! ## One file after the other -/

section Fragments

variable {payload : Bytes} {p : Placed FileT} {tw tw' : TarWriter}

theorem enterFile_limits {i : Nat} {f : FileT} (h : enterFile tw i f = some tw')
    (hlimits : tw.out.limits = []) :
    tw'.out.limits = [] ∧ tw'.tor = tw.tor ∧ tw'.currentFileIndex = Int32.ofNat i := by
  unfold enterFile at h
  split at h
  · split at h
    · cases h
      refine ⟨?_, rfl, rfl⟩
      show tw.out.limits.tail = []
      rw [hlimits, List.tail_nil]
    · exact nomatch h
  · next hcurrent =>
    cases h
    exact ⟨hlimits, rfl, (not_not.mp hcurrent).symm⟩

theorem enterFile_current {i : Nat} {f : FileT} (h : tw.currentFileIndex = Int32.ofNat i) :
    enterFile tw i f = some tw := by
  rw [enterFile, if_neg (not_not_intro h.symm)]

theorem put_put (h : tw.out.limits = []) (a b : Bytes) : (tw.put a).put b = tw.put (a ++ b) := by
  have hout : (tw.out.fwrite a).fwrite b = tw.out.fwrite (a ++ b) := by
    simp only [OutStream.fwrite, h, List.headD_nil, List.tail_nil, List.take_length,
      List.append_assoc]
  have htotal : tw.totalWritten + UInt64.ofNat a.length + UInt64.ofNat b.length =
      tw.totalWritten + UInt64.ofNat (a ++ b).length := by
    rw [List.length_append, UInt64.ofNat_add, UInt64.add_assoc]
  simp only [TarWriter.put, hout, htotal]

/-- Two fragments of a file of which the second continues the first. -/
theorem writeFragment_append (h : tw.out.limits = []) {lo mid hi : Nat} (h1 : lo < mid)
    (h2 : mid < p.stop) (h3 : mid ≤ hi) :
    (writeFragment payload p lo mid tw).bind (writeFragment payload p mid hi) =
      writeFragment payload p lo hi tw := by
  rcases Nat.eq_or_lt_of_le h3 with rfl | h3
  · rw [show writeFragment payload p mid mid = some from
      funext fun tw => if_neg (Nat.lt_irrefl mid)]
    exact Option.bind_fun_some _
  · have hmid : ¬ mid = p.stop := by omega
    rw [writeFragment, writeFragment, if_pos h1, if_pos (Nat.lt_trans h1 h3)]
    cases henter : enterFile tw p.index p.item with
    | none => rfl
    | some tw1 =>
      obtain ⟨hlimits, _, hcurrent⟩ := enterFile_limits henter h
      have hcount : tw1.fileBytesWritten + UInt64.ofNat (mid - lo) + UInt64.ofNat (hi - mid) =
          tw1.fileBytesWritten + UInt64.ofNat (hi - lo) := by
        rw [UInt64.add_assoc, ← UInt64.ofNat_add]
        congr 2
        omega
      have hput := put_put hlimits (part payload lo mid) (part payload mid hi)
      rw [part_append (Nat.le_of_lt h1) (Nat.le_of_lt h3)] at hput
      have hwriter : { (tw1.put (part payload lo mid)).put (part payload mid hi) with
            fileBytesWritten := tw1.fileBytesWritten + UInt64.ofNat (mid - lo) +
              UInt64.ofNat (hi - mid) } =
          { tw1.put (part payload lo hi) with
            fileBytesWritten := tw1.fileBytesWritten + UInt64.ofNat (hi - lo) } := by
        rw [hput, hcount]
      -- The file is the current one now, so it gets no second header.
      rw [Option.map_some, Option.bind_some, Option.map_some, writeFragment, if_pos h3]
      dsimp only
      rw [if_neg hmid]
      refine (congrArg (Option.map _) (enterFile_current (by exact hcurrent))).trans ?_
      exact congrArg (fun tw => some (if hi = p.stop then writePadding tw else tw)) hwriter

theorem writeFragment_keeps {lo hi : Nat} (h : writeFragment payload p lo hi tw = some tw')
    (hlimits : tw.out.limits = []) : tw'.out.limits = [] ∧ tw'.tor = tw.tor := by
  unfold writeFragment at h
  split at h
  · obtain ⟨tw1, henter, rfl⟩ := Option.map_eq_some_iff.mp h
    obtain ⟨hlimits1, htor, _⟩ := enterFile_limits henter hlimits
    have hput : ∀ (tw : TarWriter) (data : Bytes), tw.out.limits = [] →
        (tw.put data).out.limits = [] := by
      intro tw data h
      show tw.out.limits.tail = []
      rw [h, List.tail_nil]
    dsimp only
    split
    · unfold writePadding
      dsimp only
      split
      · exact ⟨hput _ _ (hput _ _ hlimits1), htor⟩
      · exact ⟨hput _ _ hlimits1, htor⟩
    · exact ⟨hput _ _ hlimits1, htor⟩
  · cases h
    exact ⟨hlimits, rfl⟩

/-- The parts of some files that lie in `lo .. hi`, one after the other. -/
def writeRange (payload : Bytes) (lo hi : Nat) : List (Placed FileT) → TarWriter → Option TarWriter
  | [], tw => some tw
  | p :: ps, tw =>
    (writeFragment payload p (max lo p.start) (min hi p.stop) tw).bind (writeRange payload lo hi ps)

theorem writeRange_keeps {lo hi : Nat} : ∀ {ps : List (Placed FileT)} {tw tw' : TarWriter},
    writeRange payload lo hi ps tw = some tw' → tw.out.limits = [] →
    tw'.out.limits = [] ∧ tw'.tor = tw.tor
  | [], _, _, h, hlimits => by
    cases h
    exact ⟨hlimits, rfl⟩
  | p :: ps, tw, tw', h, hlimits => by
    obtain ⟨tw1, hfirst, hrest⟩ := Option.bind_eq_some_iff.mp h
    obtain ⟨hlimits1, htor1⟩ := writeFragment_keeps hfirst hlimits
    obtain ⟨hlimits', htor'⟩ := writeRange_keeps hrest hlimits1
    exact ⟨hlimits', htor'.trans htor1⟩

/-- Files behind the range get nothing. -/
theorem writeRange_of_le {lo hi : Nat} : ∀ {ps : List (Placed FileT)},
    (∀ p ∈ ps, hi ≤ p.start) → ∀ tw, writeRange payload lo hi ps tw = some tw
  | [], _, _ => rfl
  | p :: ps, h, tw => by
    have hp := h p List.mem_cons_self
    rw [writeRange, writeFragment, if_neg (by omega), Option.bind_some]
    exact writeRange_of_le (fun q hq => h q (List.mem_cons_of_mem _ hq)) tw

/-- Two ranges of which the second continues the first. -/
theorem writeRange_append {lo mid hi : Nat} (h1 : lo ≤ mid) (h2 : mid ≤ hi) (l : List FileT) :
    ∀ {i o : Nat} {tw : TarWriter}, tw.out.limits = [] →
    (writeRange payload lo mid (place (fun f => f.length.toNat) i o l) tw).bind
        (writeRange payload mid hi (place (fun f => f.length.toNat) i o l)) =
      writeRange payload lo hi (place (fun f => f.length.toNat) i o l) tw := by
  induction l with
  | nil => exact fun _ => rfl
  | cons f l ih =>
    intro i o tw hlimits
    have hbehind : ∀ q ∈ place (fun f => f.length.toNat) (i + 1) (o + f.length.toNat) l,
        o + f.length.toNat ≤ q.start := fun q hq => (place_bounds hq).2.2.1
    have hrest := fun tw1 : TarWriter => @ih (i + 1) (o + f.length.toNat) tw1
    rw [place]
    have hstart : (⟨i, o, f.length.toNat, f⟩ : Placed FileT).start = o := rfl
    have hstop : (⟨i, o, f.length.toNat, f⟩ : Placed FileT).stop = o + f.length.toNat := rfl
    generalize (⟨i, o, f.length.toNat, f⟩ : Placed FileT) = p at hstart hstop ⊢
    generalize place (fun f => f.length.toNat) (i + 1) (o + f.length.toNat) l = ps at *
    rw [← hstop] at hbehind
    rcases Nat.lt_or_ge mid p.stop with hcut | hdone
    · -- The first range ends in front of the files behind `p`.
      have hnone : writeRange payload lo mid ps = some := funext (writeRange_of_le fun q hq => by
        have := hbehind q hq
        omega)
      have hfile : (writeFragment payload p (max lo p.start) (min mid p.stop) tw).bind
          (writeFragment payload p (max mid p.start) (min hi p.stop)) =
            writeFragment payload p (max lo p.start) (min hi p.stop) tw := by
        rcases Nat.lt_or_ge (max lo p.start) mid with hlt | hge
        · rw [show min mid p.stop = mid by omega, show max mid p.start = mid by omega]
          exact writeFragment_append hlimits hlt hcut (by omega)
        · rw [show max mid p.start = max lo p.start by omega, writeFragment,
            if_neg (by omega), Option.bind_some]
      show ((writeFragment payload p (max lo p.start) (min mid p.stop) tw).bind
        (writeRange payload lo mid ps)).bind (fun tw =>
          (writeFragment payload p (max mid p.start) (min hi p.stop) tw).bind
            (writeRange payload mid hi ps)) = _
      rw [hnone, Option.bind_fun_some, ← Option.bind_assoc, hfile, writeRange]
      refine Option.bind_congr fun tw1 htw1 => ?_
      rw [← hrest tw1 (writeFragment_keeps htw1 hlimits).1, hnone, Option.bind_some]
    · -- The file is complete after the first range.
      have hnone : ∀ tw1, writeRange payload mid hi (p :: ps) tw1 =
          writeRange payload mid hi ps tw1 := by
        intro tw1
        rw [writeRange, writeFragment, if_neg (by omega), Option.bind_some]
      rw [funext hnone, writeRange, writeRange, Option.bind_assoc,
        show min mid p.stop = min hi p.stop by omega]
      refine Option.bind_congr fun tw1 htw1 => ?_
      exact hrest tw1 (writeFragment_keeps htw1 hlimits).1

/-- The loop of `tar_writer_write` over the files. -/
theorem writeFileParts_eq {pieceStart pieceEnd : UInt64} (l : List FileT) :
    ∀ {i o : Nat} {fileStart : UInt64} {tw : TarWriter}, fileStart.toNat = o →
    o + (l.map fun f => f.length.toNat).sum < 2 ^ 64 →
    writeFileParts pieceStart pieceEnd (part payload pieceStart.toNat pieceEnd.toNat) i fileStart
        l tw =
      writeRange payload pieceStart.toNat pieceEnd.toNat (place (fun f => f.length.toNat) i o l)
        tw := by
  induction l with
  | nil => exact fun _ _ => rfl
  | cons f l ih =>
    intro i o fileStart tw hstart hsum
    rw [List.map_cons, List.sum_cons] at hsum
    have hstop : (fileStart + f.length).toNat = o + f.length.toNat := by
      rw [toNat_add_of_lt (by omega), hstart]
    have hfile := writeFilePart_eq payload pieceStart pieceEnd ⟨i, o, f.length.toNat, f⟩ tw hstart
      rfl (show o + f.length.toNat < 2 ^ 64 by omega)
    rw [writeFileParts, place, writeRange]
    refine (congrArg (Option.bind · _) hfile).trans (Option.bind_congr fun tw1 _ => ?_)
    exact ih hstop (by omega)

end Fragments

/-! ## All pieces -/

/-- `tar_writer_write` of the pieces of a payload, one after the other. -/
def tarPieces (tor : TorrentT) (payload : Bytes) : List UInt32 → TarWriter → Option TarWriter
  | [], tw => some tw
  | i :: order, tw =>
    (tarWriterWrite tw i (pieceOf tor payload i) (pieceSize tor i)).bind
      (tarPieces tor payload order)

section Pieces

variable {tor : TorrentT} {payload : Bytes} {tw : TarWriter}

theorem tarPieces_append (order order' : List UInt32) : ∀ tw : TarWriter,
    tarPieces tor payload (order ++ order') tw =
      (tarPieces tor payload order tw).bind (tarPieces tor payload order') := by
  induction order with
  | nil => exact fun _ => rfl
  | cons i order ih =>
    intro tw
    rw [List.cons_append, tarPieces, tarPieces, Option.bind_assoc]
    exact Option.bind_congr fun tw1 _ => ih tw1

theorem tarWriterWrite_eq (hgeo : Layout tor payload) {k : Nat} (hk : k < tor.numPieces.toNat)
    (htor : tw.tor = tor) :
    tarWriterWrite tw (UInt32.ofNat k) (pieceOf tor payload (UInt32.ofNat k))
        (pieceSize tor (UInt32.ofNat k)) =
      writeRange payload (k * tor.pieceLength.toNat)
        (k * tor.pieceLength.toNat + tor.sizeOf k) tor.placed tw := by
  obtain ⟨hk', hlt⟩ := pieceIndex_lt hk
  have hsize := toNat_pieceSize hgeo.pieceLength_pos hlt
  have hsum := hgeo.sum_lengths
  have htotal := tor.totalLength.toNat_lt
  have hstart := toNat_pieceStart (UInt32.ofNat k) tor.pieceLength
  have hstop := toNat_pieceEnd (UInt32.ofNat k) tor.pieceLength (pieceSize tor (UInt32.ofNat k))
  rw [hsize, hk'] at hstop
  rw [hk'] at hstart
  have hdata : pieceOf tor payload (UInt32.ofNat k) = part payload (k * tor.pieceLength.toNat)
      (k * tor.pieceLength.toNat + tor.sizeOf k) := by
    rw [pieceOf, hsize, hk', part, Nat.add_sub_cancel_left]
  rw [tarWriterWrite, htor, hdata, ← hstop, ← hstart]
  exact writeFileParts_eq tor.files rfl (by omega)

/-- All pieces in order are all files in order. -/
theorem tarPieces_eq (hgeo : Layout tor payload) (htor : tw.tor = tor)
    (hlimits : tw.out.limits = []) :
    tarPieces tor payload (pieceIndices tor) tw =
      writeRange payload 0 payload.length tor.placed tw := by
  have htiles := hgeo.tiles
  have hone : ∀ k tw1, tarPieces tor payload [k] tw1 =
      tarWriterWrite tw1 k (pieceOf tor payload k) (pieceSize tor k) :=
    fun k tw1 => Option.bind_fun_some _
  have hinit : ∀ k, k < tor.numPieces.toNat →
      tarPieces tor payload ((List.range (k + 1)).map UInt32.ofNat) tw =
        writeRange payload 0 (k * tor.pieceLength.toNat + tor.sizeOf k) tor.placed tw := by
    intro k hk
    induction k with
    | zero =>
      have hfirst := tarWriterWrite_eq hgeo hk htor
      rw [Nat.zero_mul] at hfirst ⊢
      exact (hone _ _).trans hfirst
    | succ k ih =>
      rw [List.range_succ, List.map_append, tarPieces_append, ih (by omega), htiles.next k hk]
      refine Eq.trans ?_ (writeRange_append (Nat.zero_le _) (Nat.le_add_right _ _) tor.files
        hlimits)
      refine Option.bind_congr fun tw1 htw1 => (hone _ _).trans ?_
      exact tarWriterWrite_eq hgeo hk ((writeRange_keeps htw1 hlimits).2.trans htor)
  rw [pieceIndices]
  cases hn : tor.numPieces.toNat with
  | zero =>
    have hempty := htiles.empty hn
    rw [hempty, writeRange_of_le fun _ _ => Nat.zero_le _]
    rfl
  | succ n =>
    rw [hinit n (by omega), htiles.last n hn.symm]

end Pieces

/-! ## Whole files -/

/-- What a file that is not empty adds to the archive: data and padding behind a header. The
header is missing where the writer takes the file for the one before it. -/
structure FileChunk (payload : Bytes) (p : Placed FileT) (hdr chunk : Bytes) : Prop where
  chunk_eq : ∃ n, n < 512 ∧ (hdr.length + p.size + n) % 512 = 0 ∧
    chunk = hdr ++ (part payload p.start p.stop ++ List.replicate n 0)
  header : hdr = [] ∨ (joinPath p.item.path).length < pathLen ∧
    ∃ time, hdr = (tarHeader (joinPath p.item.path) p.item.length time).bytes

section Files

variable {tor : TorrentT} {payload bytes : Bytes} {tw tw' : TarWriter} {p : Placed FileT}

/-- A whole file between two others: perhaps a header, the data, and padding. -/
theorem Streaming.file (h : Streaming tor bytes tw) (halign : bytes.length % 512 = 0)
    (hpos : 0 < p.size) (hstop : p.stop ≤ payload.length)
    (hwrite : writeFragment payload p p.start p.stop tw = some tw') :
    ∃ hdr n, Entered p.index p.item tw tw' hdr ∧ n < 512 ∧ (p.size + n) % 512 = 0 ∧
      Streaming tor (bytes ++ (hdr ++ (part payload p.start p.stop ++ List.replicate n 0))) tw' ∧
      (bytes ++ (hdr ++ (part payload p.start p.stop ++ List.replicate n 0))).length % 512 = 0 ∧
      tw'.currentFileIndex = Int32.ofNat p.index := by
  have hsize : p.stop = p.start + p.size := rfl
  rw [writeFragment, if_pos (by omega)] at hwrite
  obtain ⟨tw1, henter, rfl⟩ := Option.map_eq_some_iff.mp hwrite
  obtain ⟨hdr, hstream, hcurrent, hhdr⟩ := h.enter henter
  have hput := hstream.put (part payload p.start p.stop)
  have hput' : Streaming tor (bytes ++ hdr ++ part payload p.start p.stop)
      { tw1.put (part payload p.start p.stop) with
        fileBytesWritten := tw1.fileBytesWritten + UInt64.ofNat (p.stop - p.start) } :=
    ⟨hput.tor, hput.out, hput.total⟩
  obtain ⟨n, hn, hblock, hpad, hcurrent', hclock⟩ := hput'.writePadding
  have hheader : hdr.length % 512 = 0 := by
    rcases hhdr with ⟨_, rfl, _⟩ | ⟨_, _, rfl, _⟩
    · rfl
    · rw [(sized_tarHeader _ _ _).length_bytes]
  simp only [List.length_append, length_part hstop] at hblock
  dsimp only
  rw [if_pos rfl]
  refine ⟨hdr, n, ?_, hn, by omega, ?_, ?_, hcurrent'.trans hcurrent⟩
  · rwa [Entered, hclock]
  · rwa [List.append_assoc, List.append_assoc] at hpad
  · simp only [List.length_append, length_part hstop, List.length_replicate]
    omega

/-- The header of a file is missing where the writer takes the file for the current one. -/
theorem Entered.chunk {n : Nat} {hdr : Bytes} (h : Entered p.index p.item tw tw' hdr)
    (hn : n < 512) (hblock : (p.size + n) % 512 = 0) :
    FileChunk payload p hdr (hdr ++ (part payload p.start p.stop ++ List.replicate n 0)) ∧
      (hdr = [] → tw.currentFileIndex = Int32.ofNat p.index) := by
  rcases h with ⟨hsame, rfl, _⟩ | ⟨_, hfits, rfl, _⟩
  · exact ⟨⟨⟨n, hn, by rw [List.length_nil]; omega, rfl⟩, .inl rfl⟩, fun _ => hsame⟩
  · refine ⟨⟨⟨n, hn, ?_, rfl⟩, .inr ⟨hfits, _, rfl⟩⟩, fun hnil => ?_⟩
    · rw [(sized_tarHeader _ _ _).length_bytes]
      omega
    · exact absurd hnil (tarHeader_ne_nil _ _ _)

theorem ofNat_ne_of_lt {i k : Nat} (h : i < k) (hk : k < i + 2 ^ 32) :
    Int32.ofNat i ≠ Int32.ofNat k := by
  intro heq
  have hbits := congrArg (fun n : Int32 => n.toBitVec.toNat) heq
  simp only [Int32.toBitVec_ofNat', BitVec.toNat_ofNat] at hbits
  omega

/-- All files: each that is not empty adds its part, and if none is empty, no header is
missing. -/
theorem writeRange_files (l : List FileT) : ∀ {i o : Nat} {bytes : Bytes} {tw tw' : TarWriter},
    o + (l.map fun f => f.length.toNat).sum ≤ payload.length →
    Streaming tor bytes tw → bytes.length % 512 = 0 →
    writeRange payload 0 payload.length (place (fun f => f.length.toNat) i o l) tw = some tw' →
    ∃ parts, List.Forall₂ (fun p x => FileChunk payload p x.1 x.2)
        ((place (fun f => f.length.toNat) i o l).filter fun p => decide (0 < p.size)) parts ∧
      Streaming tor (bytes ++ (parts.map Prod.snd).flatten) tw' ∧
      (bytes ++ (parts.map Prod.snd).flatten).length % 512 = 0 ∧
      ((∀ f ∈ l, 0 < f.length.toNat) → tw.currentFileIndex ≠ Int32.ofNat i →
        ∀ x ∈ parts, x.1 ≠ []) := by
  induction l with
  | nil =>
    intro i o bytes tw tw' _ h halign hwrite
    cases hwrite
    refine ⟨[], .nil, ?_, ?_, fun _ _ x hx => absurd hx List.not_mem_nil⟩
    · rwa [List.map_nil, List.flatten_nil, List.append_nil]
    · rwa [List.map_nil, List.flatten_nil, List.append_nil]
  | cons f l ih =>
    intro i o bytes tw tw' hsum h halign hwrite
    rw [List.map_cons, List.sum_cons] at hsum
    obtain ⟨tw1, hfile, hrest⟩ := Option.bind_eq_some_iff.mp hwrite
    have hstop : (⟨i, o, f.length.toNat, f⟩ : Placed FileT).stop = o + f.length.toNat := rfl
    have hsum' : o + f.length.toNat + (l.map fun f => f.length.toNat).sum ≤ payload.length := by
      omega
    dsimp only at hfile
    rw [Nat.max_eq_right (Nat.zero_le o), Nat.min_eq_right (by omega)] at hfile
    rw [place, List.filter_cons]
    by_cases hpos : 0 < f.length.toNat
    · obtain ⟨hdr, n, hentered, hn, hblock, hstream, halign1, hcurrent⟩ :=
        h.file halign (p := ⟨i, o, f.length.toNat, f⟩) hpos (by omega) hfile
      obtain ⟨hchunk, hsame⟩ : FileChunk payload _ _ _ ∧ _ := hentered.chunk hn hblock
      obtain ⟨parts, hparts, hstream', halign', hheaders⟩ :=
        ih hsum' hstream halign1 hrest
      rw [if_pos (decide_eq_true hpos)]
      refine ⟨(hdr, _) :: parts, .cons hchunk hparts, ?_, ?_, fun hall hnot x hx => ?_⟩
      · rwa [List.map_cons, List.flatten_cons, ← List.append_assoc]
      · rwa [List.map_cons, List.flatten_cons, ← List.append_assoc]
      · rcases List.mem_cons.mp hx with rfl | hx
        · exact fun hnil => hnot (hsame hnil)
        · refine hheaders (fun g hg => hall g (List.mem_cons_of_mem _ hg)) ?_ x hx
          rw [hcurrent]
          exact ofNat_ne_of_lt (Nat.lt_succ_self i) (by show i + 1 < i + 2 ^ 32; omega)
    · rw [if_neg (by simpa using hpos)]
      rw [writeFragment, if_neg (by omega)] at hfile
      cases hfile
      obtain ⟨parts, hparts, hstream', halign', _⟩ := ih hsum' h halign hrest
      exact ⟨parts, hparts, hstream', halign',
        fun hall => absurd (hall f List.mem_cons_self) hpos⟩

/-- With short paths nothing is undefined. -/
theorem writeRange_isSome (payload : Bytes) (lo hi : Nat) : ∀ (ps : List (Placed FileT))
    (tw : TarWriter),
    (∀ p ∈ ps, (joinPath p.item.path).length < pathLen) →
    ∃ tw', writeRange payload lo hi ps tw = some tw'
  | [], tw, _ => ⟨tw, rfl⟩
  | p :: ps, tw, h => by
    have hfile : ∃ tw1, writeFragment payload p (max lo p.start) (min hi p.stop) tw = some tw1 := by
      rw [writeFragment]
      split
      · have henter : ∃ tw1, enterFile tw p.index p.item = some tw1 := by
          rw [enterFile, if_pos (h p List.mem_cons_self)]
          split
          · exact ⟨_, rfl⟩
          · exact ⟨_, rfl⟩
        obtain ⟨tw1, henter⟩ := henter
        exact ⟨_, by rw [henter, Option.map_some]⟩
      · exact ⟨tw, rfl⟩
    obtain ⟨tw1, hfile⟩ := hfile
    obtain ⟨tw', hrest⟩ := writeRange_isSome payload lo hi ps tw1
      fun q hq => h q (List.mem_cons_of_mem _ hq)
    exact ⟨tw', Option.bind_eq_some_iff.mpr ⟨tw1, hfile, hrest⟩⟩

/-- The archive that `tar_writer_write` and `tar_writer_close` make of the pieces in order;
`none` if their behaviour is undefined. -/
def tarArchive (tor : TorrentT) (payload : Bytes) (clock : List UInt64) : Option Bytes :=
  (tarPieces tor payload (pieceIndices tor) (tarWriterOpen ⟨[], []⟩ clock tor)).map fun tw =>
    (tarWriterClose tw).out.bytes

/-- It consists of the parts of the files that are not empty. -/
theorem tarArchive_files (hgeo : Layout tor payload) {clock : List UInt64} {archive : Bytes}
    (h : tarArchive tor payload clock = some archive) :
    ∃ parts, List.Forall₂ (fun p x => FileChunk payload p x.1 x.2)
        (tor.placed.filter fun p => decide (0 < p.size)) parts ∧
      archive = (parts.map Prod.snd).flatten ++ endMark ∧
      ((∀ f ∈ tor.files, 0 < f.length.toNat) → ∀ x ∈ parts, x.1 ≠ []) := by
  obtain ⟨tw, hpieces, rfl⟩ := Option.map_eq_some_iff.mp h
  rw [tarPieces_eq hgeo rfl rfl] at hpieces
  have hsum := hgeo.sum_lengths
  have hlength := hgeo.length_payload
  obtain ⟨parts, hparts, hstream, halign, hheaders⟩ := writeRange_files tor.files
    (by omega) (show Streaming tor [] _ from ⟨rfl, rfl, rfl⟩) rfl hpieces
  exact ⟨parts, hparts, hstream.close halign, fun hall =>
    hheaders hall (show (-1 : Int32) ≠ Int32.ofNat 0 by decide)⟩

theorem tarArchive_isSome (clock : List UInt64) (hgeo : Layout tor payload)
    (h : ∀ f ∈ tor.files, (joinPath f.path).length < pathLen) :
    ∃ archive, tarArchive tor payload clock = some archive := by
  obtain ⟨tw, hrange⟩ := writeRange_isSome payload 0 payload.length tor.placed
    (tarWriterOpen ⟨[], []⟩ clock tor)
    fun p hp => h p.item (item_mem_of_mem_place hp)
  exact ⟨_, by rw [tarArchive, tarPieces_eq hgeo rfl rfl, hrange, Option.map_some]⟩

end Files

end CourseWork.Torrent
