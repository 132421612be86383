import CourseWork.Lib.Ustar
import CourseWork.Torrent.Tar

/-!
# Archive headers

What `write_header` writes is the ustar header of a regular file, with the first 99 bytes
of the path as its name, and with the size of the file if that fits 32 bits.
-/

namespace CourseWork.Torrent
open CLib Ustar

/-! ## Number fields -/

theorem length_octToStr (val : UInt64) {size : Nat} (h : 0 < size) :
    (octToStr val size).length = size := by
  rw [octToStr, List.length_append, List.length_replicate, List.length_take]
  omega

/-- The field holds the number, as long as it leaves room for a terminator. -/
theorem octal_octToStr (val : UInt64) (size : Nat) (h : 3 ≤ size)
    (hval : val.toUInt32.toNat < 8 ^ (size - 1)) :
    octal (octToStr val size) = some val.toUInt32.toNat := by
  have hlength : (Numeral.padded 8 (size - 2) val.toUInt32.toNat).length ≤ size - 1 := by
    have := Numeral.length_print_le (b := 8) (by decide) (by omega) hval
    rw [Numeral.padded, List.length_append, List.length_replicate]
    omega
  have hvalue := Numeral.value_padded (b := 8) (by decide) (by decide) (size - 2)
    val.toUInt32.toNat
  have hdigit := fun c => Numeral.isDigit_of_mem_padded (b := 8) (by decide) (by decide)
    (w := size - 2) (n := val.toUInt32.toNat) (c := c)
  have hne : Numeral.padded 8 (size - 2) val.toUInt32.toNat ≠ [] :=
    List.append_ne_nil_of_right_ne_nil _ (Numeral.print_ne_nil _)
  unfold octToStr
  generalize Numeral.padded 8 (size - 2) val.toUInt32.toNat = digits at *
  -- The blank is cut off if the digits leave no room for it.
  have hcut : ∃ blanks : Bytes, (∀ c ∈ blanks, isTerminator c = true) ∧
      blanks.length ≤ 1 ∧ (digits ++ [32]).take (size - 1) = digits ++ blanks ∧
      digits.length + blanks.length ≤ size - 1 := by
    rcases Nat.lt_or_ge digits.length (size - 1) with hlt | hge
    · refine ⟨[32], fun c hc => ?_, Nat.le_refl _, List.take_of_length_le ?_, hlt⟩
      · rw [List.mem_singleton.mp hc]
        rfl
      · rw [List.length_append, List.length_singleton]
        exact hlt
    · obtain heq : digits.length = size - 1 := Nat.le_antisymm hlength hge
      refine ⟨[], fun _ hc => absurd hc List.not_mem_nil, Nat.zero_le _, ?_, Nat.le_of_eq heq⟩
      rw [← heq, List.take_left, List.append_nil]
  obtain ⟨blanks, hblanks, _, htake, hroom⟩ := hcut
  dsimp only
  rw [htake, List.append_assoc, octal_append hne hdigit ?_ ?_, hvalue]
  · refine List.append_ne_nil_of_right_ne_nil _ fun hnil => ?_
    have := congrArg List.length hnil
    rw [List.length_replicate, List.length_append, List.length_nil] at this
    omega
  · intro c hc
    rcases List.mem_append.mp hc with hc | hc
    · exact hblanks c hc
    · rw [(List.mem_replicate.mp hc).2]
      rfl

/-! ## The fields of a header -/

/-- The lengths of the fields in `tar_header_t`. -/
structure TarHeader.Sized (hdr : TarHeader) : Prop where
  name : hdr.name.length = 100
  mode : hdr.mode.length = 8
  uid : hdr.uid.length = 8
  gid : hdr.gid.length = 8
  size : hdr.size.length = 12
  mtime : hdr.mtime.length = 12
  chksum : hdr.chksum.length = 8
  magic : hdr.magic.length = 6
  version : hdr.version.length = 2

section Fields

variable {hdr : TarHeader}

theorem TarHeader.Sized.length_bytes (h : hdr.Sized) : hdr.bytes.length = 512 := by
  simp only [TarHeader.bytes, List.length_append, List.length_replicate, List.length_singleton,
    h.name, h.mode, h.uid, h.gid, h.size, h.mtime, h.chksum, h.magic, h.version]

theorem TarHeader.Sized.fields (h : hdr.Sized) :
    field hdr.bytes 0 100 = hdr.name ∧ field hdr.bytes 100 8 = hdr.mode ∧
    field hdr.bytes 108 8 = hdr.uid ∧ field hdr.bytes 116 8 = hdr.gid ∧
    field hdr.bytes 124 12 = hdr.size ∧ field hdr.bytes 136 12 = hdr.mtime ∧
    field hdr.bytes 148 8 = hdr.chksum ∧ field hdr.bytes 156 1 = [hdr.typeflag] ∧
    field hdr.bytes 257 6 = hdr.magic ∧ field hdr.bytes 263 2 = hdr.version ∧
    field hdr.bytes 345 155 = List.replicate 155 0 := by
  simp only [TarHeader.bytes, List.append_assoc]
  simp only [field_head, field_skip, h.name, h.mode, h.uid, h.gid, h.size, h.mtime, h.chksum,
    h.magic, h.version, List.length_singleton, List.length_replicate, Nat.reduceLeDiff,
    Nat.reduceSub, true_and]
  rfl

/-- The sum over a header is taken with blanks in the checksum field. -/
theorem TarHeader.Sized.checksum_bytes (h : hdr.Sized) :
    checksum hdr.bytes =
      ({ hdr with chksum := List.replicate 8 32 }.bytes.map UInt8.toNat).sum := by
  have hfront : (hdr.name ++ hdr.mode ++ hdr.uid ++ hdr.gid ++ hdr.size ++ hdr.mtime).length =
      148 := by
    simp only [List.length_append, h.name, h.mode, h.uid, h.gid, h.size, h.mtime]
  have hsplit : ∀ chksum : Bytes, { hdr with chksum := chksum }.bytes =
      hdr.name ++ hdr.mode ++ hdr.uid ++ hdr.gid ++ hdr.size ++ hdr.mtime ++ (chksum ++
        ([hdr.typeflag] ++ List.replicate 100 0 ++ hdr.magic ++ hdr.version ++
          List.replicate 247 0)) := by
    intro chksum
    simp only [TarHeader.bytes, List.append_assoc]
  have hbytes : hdr.bytes = _ := hsplit hdr.chksum
  rw [checksum, hbytes, hsplit (List.replicate 8 32)]
  generalize hdr.name ++ hdr.mode ++ hdr.uid ++ hdr.gid ++ hdr.size ++ hdr.mtime = front at *
  rw [← hfront, List.take_left, show 156 = front.length + hdr.chksum.length by
    rw [hfront, h.chksum], ← List.drop_drop, List.drop_left, List.drop_left, List.append_assoc]

end Fields

/-! ## The header that is written -/

theorem sum_toNat_le (bs : Bytes) : (bs.map UInt8.toNat).sum ≤ 255 * bs.length := by
  induction bs with
  | nil => exact Nat.le_refl _
  | cons c bs ih =>
    have hc := c.toNat_lt
    rw [List.map_cons, List.sum_cons, List.length_cons]
    omega

theorem toNat_foldl_add (bs : Bytes) : ∀ sum : UInt32, sum.toNat + 255 * bs.length < 2 ^ 32 →
    (bs.foldl (fun sum c => sum + c.toUInt32) sum).toNat =
      sum.toNat + (bs.map UInt8.toNat).sum := by
  induction bs with
  | nil => exact fun _ _ => rfl
  | cons c bs ih =>
    intro sum hlt
    have hc := c.toNat_lt
    rw [List.length_cons] at hlt
    have hadd : (sum + c.toUInt32).toNat = sum.toNat + c.toNat := by
      rw [UInt32.toNat_add, UInt8.toNat_toUInt32]
      exact Nat.mod_eq_of_lt (by omega)
    rw [List.foldl_cons, ih _ (by omega), hadd, List.map_cons, List.sum_cons, Nat.add_assoc]

/-- `calculate_checksum` of a header does not wrap. -/
theorem toNat_calculateChecksum {bs : Bytes} (h : bs.length = 512) :
    (calculateChecksum bs).toNat = (bs.map UInt8.toNat).sum := by
  rw [calculateChecksum, toNat_foldl_add bs 0 (by rw [h]; decide)]
  exact Nat.zero_add _

theorem length_nameField (path : Bytes) : (nameField path).length = 100 := by
  rw [nameField, List.length_append, List.length_replicate, List.length_take]
  omega

theorem text_nameField (path : Bytes) : text (nameField path) = cstr (path.take 99) := by
  have hlength : (path.take 99).length ≤ 99 := List.length_take_le _ _
  rw [nameField, text, cstr]
  generalize path.take 99 = name at *
  -- The zero behind the name ends it.
  have hpad : List.replicate (100 - name.length) (0 : UInt8) =
      0 :: List.replicate (99 - name.length) 0 := by
    rw [← List.replicate_succ]
    congr 1
    omega
  rw [hpad, List.takeWhile_append, List.takeWhile_cons_of_neg (by decide), List.append_nil]
  split
  · next hall => exact ((List.takeWhile_prefix _).eq_of_length hall).symm
  · rfl

theorem sized_tarHeader (path : Bytes) (size time : UInt64) :
    (tarHeader path size time).Sized where
  name := length_nameField path
  mode := length_octToStr _ (by decide)
  uid := length_octToStr _ (by decide)
  gid := length_octToStr _ (by decide)
  size := length_octToStr _ (by decide)
  mtime := length_octToStr _ (by decide)
  chksum := length_octToStr _ (by decide)
  magic := rfl
  version := rfl

theorem sized_blankHeader (path : Bytes) (size time : UInt64) :
    (blankHeader path size time).Sized where
  name := length_nameField path
  mode := length_octToStr _ (by decide)
  uid := length_octToStr _ (by decide)
  gid := length_octToStr _ (by decide)
  size := length_octToStr _ (by decide)
  mtime := length_octToStr _ (by decide)
  chksum := rfl
  magic := rfl
  version := rfl

theorem tarHeader_ne_nil (path : Bytes) (size time : UInt64) :
    (tarHeader path size time).bytes ≠ [] := by
  intro hnil
  have hlength := (sized_tarHeader path size time).length_bytes
  rw [hnil] at hlength
  exact nomatch hlength

/-- `write_header` writes the header of a regular file, with the size modulo `2 ^ 32`. -/
theorem readHeader_tarHeader_mod (path : Bytes) (size time : UInt64) :
    readHeader (tarHeader path size time).bytes =
      some (cstr (path.take 99), size.toUInt32.toNat) := by
  have h := sized_tarHeader path size time
  obtain ⟨hname, hmode, huid, hgid, hfsize, hmtime, hchksum, htype, hmagic, hversion, hpre⟩ :=
    h.fields
  have hoctal : ∀ val : UInt64, octal (octToStr val 12) = some val.toUInt32.toNat := fun val =>
    octal_octToStr val 12 (by decide) (Nat.lt_trans val.toUInt32.toNat_lt (by decide))
  have hsum : octal (field (tarHeader path size time).bytes 148 8) =
      some (checksum (tarHeader path size time).bytes) := by
    have hblank := (sized_blankHeader path size time).length_bytes
    have hcalc := toNat_calculateChecksum hblank
    have hle := sum_toNat_le (blankHeader path size time).bytes
    rw [hblank, ← hcalc] at hle
    rw [hchksum, h.checksum_bytes]
    show octal (octToStr (calculateChecksum (blankHeader path size time).bytes).toUInt64 8) =
      some ((blankHeader path size time).bytes.map UInt8.toNat).sum
    rw [← hcalc, octal_octToStr _ 8 (by decide)]
    · rw [UInt32.toUInt32_toUInt64]
    · rw [UInt32.toUInt32_toUInt64]
      exact Nat.lt_of_le_of_lt hle (by decide)
  have hheader : IsHeader (tarHeader path size time).bytes := by
    refine ⟨h.length_bytes, hmagic, hversion, htype, hsum, ?_, ?_, ?_, ?_⟩
    · rw [hmode]
      exact congrArg Option.isSome (octal_octToStr 420 8 (by decide) (by decide))
    · rw [huid]
      exact congrArg Option.isSome (octal_octToStr 0 8 (by decide) (by decide))
    · rw [hgid]
      exact congrArg Option.isSome (octal_octToStr 0 8 (by decide) (by decide))
    · rw [hmtime]
      exact congrArg Option.isSome (hoctal time)
  rw [readHeader, if_pos hheader, hfsize, headerName, hpre, hname]
  show (octal (octToStr size 12)).map (fun size => (text (nameField path), size)) = _
  rw [hoctal, text_nameField]
  rfl

/-- With the size itself, if it fits. -/
theorem readHeader_tarHeader (path : Bytes) {size : UInt64} (time : UInt64)
    (hsize : size.toNat < 2 ^ 32) :
    readHeader (tarHeader path size time).bytes = some (cstr (path.take 99), size.toNat) := by
  rw [readHeader_tarHeader_mod, UInt64.toNat_toUInt32, Nat.mod_eq_of_lt hsize]

/-! ## Sizes -/

/-- A block is the header of a regular file of this name and size. -/
structure HeaderOf (path : Bytes) (size : Nat) (block : Bytes) : Prop where
  length : block.length = 512
  chksum : octal (field block 148 8) = some (checksum block)
  read : readHeader block = some (path, size)

/-- A short path is kept as it is. -/
theorem cstr_take_of_length_lt {path : Bytes} (hnul : 0 ∉ path) (hlength : path.length < 100) :
    cstr (path.take 99) = path := by
  rw [List.take_of_length_le (by omega), cstr, List.takeWhile_eq_self_iff]
  intro c hc
  exact bne_iff_ne.mpr fun h => hnul (h ▸ hc)

/-- What `write_header` writes is the header of the file exactly if the size fits 32 bits. -/
theorem writeHeader_headerOf_iff (tw : TarWriter) {path : Bytes} (hnul : 0 ∉ path)
    (hlength : path.length < 100) (size : UInt64) :
    ∃ block, (writeHeader tw path size).out = tw.out.fwrite block ∧
      (HeaderOf path size.toNat block ↔ size.toNat < 2 ^ 32) := by
  have hread := readHeader_tarHeader_mod path size (tw.clock.headD 0)
  rw [cstr_take_of_length_lt hnul hlength, UInt64.toNat_toUInt32] at hread
  refine ⟨_, rfl, fun h => ?_, fun hsize => ?_⟩
  · have hmod := (Prod.mk.inj (Option.some.inj (hread.symm.trans h.read))).2
    rw [← hmod]
    exact Nat.mod_lt _ (by decide)
  · rw [Nat.mod_eq_of_lt hsize] at hread
    exact ⟨(sized_tarHeader path size _).length_bytes, (readHeader_isHeader hread).chksum, hread⟩

/-- A torrent with one file of one byte. -/
def oneFile : TorrentT where
  announce := none
  comment := none
  creationDate := 0
  createdBy := none
  infoHash := []
  name := some (ascii "a")
  pieceLength := 1
  numPieces := 1
  pieces := []
  files := [⟨[ascii "a"], 1⟩]
  totalLength := 1

/-- The largest size that fits. -/
theorem writeHeader_headerOf_iff_largest :
    ∃ block, (writeHeader (tarWriterOpen ⟨[], []⟩ [] oneFile) (ascii "a") 4294967295).out =
      (tarWriterOpen ⟨[], []⟩ [] oneFile).out.fwrite block ∧
      HeaderOf (ascii "a") 4294967295 block := by
  have hnul : 0 ∉ ascii "a" := by decide
  obtain ⟨block, hout, hiff⟩ := writeHeader_headerOf_iff (tarWriterOpen ⟨[], []⟩ [] oneFile) hnul
    (by decide) 4294967295
  exact ⟨block, hout, hiff.mpr (by decide)⟩

/-- The header of a file of 4 GiB says that the file is empty. -/
theorem writeHeader_wraps :
    ∃ path size, 0 ∉ path ∧ path.length < 100 ∧ UInt64.toNat size < 8 ^ 11 ∧
      ∀ tw : TarWriter, ∃ block, (writeHeader tw path size).out = tw.out.fwrite block ∧
        readHeader block = some (path, 0) ∧ ¬HeaderOf path size.toNat block := by
  refine ⟨ascii "a", 4294967296, by decide, by decide, by decide, fun tw => ?_⟩
  have hread := readHeader_tarHeader_mod (ascii "a") 4294967296 (tw.clock.headD 0)
  refine ⟨_, rfl, hread, fun h => ?_⟩
  have hsize := (Prod.mk.inj (Option.some.inj (hread.symm.trans h.read))).2
  exact absurd hsize (by decide)

end CourseWork.Torrent
