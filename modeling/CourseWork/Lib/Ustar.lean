import CourseWork.Lib.Numeral

/-!
# Ustar archives

A reader for archives of regular files in the ustar format: headers of 512 bytes with a
checksum, the data of each file padded to whole blocks, and two zero blocks at the end.
What consists of such parts is read back as its entries (`read_flatten`).
-/

namespace Ustar

/-- A regular file in an archive. -/
structure Entry where
  name : List UInt8
  data : List UInt8
  deriving DecidableEq

/-! ## Headers -/

/-- The bytes of a field. -/
def field (block : List UInt8) (offset length : Nat) : List UInt8 :=
  (block.drop offset).take length

/-- A text field, up to its terminator. -/
def text (f : List UInt8) : List UInt8 := f.takeWhile (· != 0)

/-- The terminators of a number. -/
def isTerminator (c : UInt8) : Bool := c == 32 || c == 0

/-- A number field: octal digits, and terminators up to its end. -/
def octal (f : List UInt8) : Option Nat :=
  let digits := f.takeWhile (Numeral.isDigit 8)
  let rest := f.dropWhile (Numeral.isDigit 8)
  if digits ≠ [] ∧ rest ≠ [] ∧ rest.all isTerminator = true then some (Numeral.value 8 digits)
  else none

/-- The sum of the bytes of a header, with blanks in place of the checksum. -/
def checksum (block : List UInt8) : Nat :=
  ((block.take 148 ++ List.replicate 8 32 ++ block.drop 156).map UInt8.toNat).sum

/-- What makes 512 bytes the header of a regular file. -/
structure IsHeader (block : List UInt8) : Prop where
  length : block.length = 512
  magic : field block 257 6 = [117, 115, 116, 97, 114, 0]
  version : field block 263 2 = [48, 48]
  typeflag : field block 156 1 = [48]
  chksum : octal (field block 148 8) = some (checksum block)
  mode : (octal (field block 100 8)).isSome = true
  uid : (octal (field block 108 8)).isSome = true
  gid : (octal (field block 116 8)).isSome = true
  mtime : (octal (field block 136 12)).isSome = true

instance (block : List UInt8) : Decidable (IsHeader block) :=
  decidable_of_iff (block.length = 512 ∧ field block 257 6 = [117, 115, 116, 97, 114, 0] ∧
      field block 263 2 = [48, 48] ∧ field block 156 1 = [48] ∧
      octal (field block 148 8) = some (checksum block) ∧
      (octal (field block 100 8)).isSome = true ∧ (octal (field block 108 8)).isSome = true ∧
      (octal (field block 116 8)).isSome = true ∧ (octal (field block 136 12)).isSome = true)
    ⟨fun ⟨h1, h2, h3, h4, h5, h6, h7, h8, h9⟩ => ⟨h1, h2, h3, h4, h5, h6, h7, h8, h9⟩,
      fun ⟨h1, h2, h3, h4, h5, h6, h7, h8, h9⟩ => ⟨h1, h2, h3, h4, h5, h6, h7, h8, h9⟩⟩

/-- The name in a header, behind the directory in the prefix field. -/
def headerName (block : List UInt8) : List UInt8 :=
  match text (field block 345 155) with
  | [] => text (field block 0 100)
  | dir => dir ++ 47 :: text (field block 0 100)

/-- The name and the size that a header gives. -/
def readHeader (block : List UInt8) : Option (List UInt8 × Nat) :=
  if IsHeader block then (octal (field block 124 12)).map fun size => (headerName block, size)
  else none

/-- A field at the front. -/
theorem field_head {a : List UInt8} (b : List UInt8) {length : Nat} (h : a.length = length) :
    field (a ++ b) 0 length = a := by
  rw [field, List.drop_zero, ← h, List.take_left]

/-- A field behind another one. -/
theorem field_skip {a : List UInt8} (b : List UInt8) {offset : Nat} (h : a.length ≤ offset)
    (length : Nat) : field (a ++ b) offset length = field b (offset - a.length) length := by
  rw [field, List.drop_append, List.drop_of_length_le h, List.nil_append, field]

/-- Digits behind which there are only terminators. -/
theorem octal_append {digits rest : List UInt8} (hdigits : digits ≠ [])
    (hd : ∀ c ∈ digits, Numeral.isDigit 8 c = true) (hrest : rest ≠ [])
    (hr : ∀ c ∈ rest, isTerminator c = true) :
    octal (digits ++ rest) = some (Numeral.value 8 digits) := by
  obtain ⟨c, cs, rfl⟩ := List.exists_cons_of_ne_nil hrest
  have hc : ¬ Numeral.isDigit 8 c = true := by
    have := hr c List.mem_cons_self
    simp only [isTerminator, Bool.or_eq_true, beq_iff_eq] at this
    rcases this with rfl | rfl
    · decide
    · decide
  rw [octal, List.takeWhile_append_of_pos hd, List.dropWhile_append_of_pos hd,
    List.takeWhile_cons_of_neg hc, List.dropWhile_cons_of_neg hc, List.append_nil]
  exact if_pos ⟨hdigits, hrest, List.all_eq_true.mpr hr⟩

/-! ## Archives -/

/-- A size rounded up to whole blocks. -/
def roundUp (size : Nat) : Nat := (size + 511) / 512 * 512

/-- The two zero blocks at the end. -/
def endMark : List UInt8 := List.replicate 1024 0

/-- The first entry of an archive, and what follows it. -/
def readEntry (archive : List UInt8) : Option (Entry × List UInt8) :=
  match readHeader (archive.take 512) with
  | none => none
  | some (name, size) =>
    let body := archive.drop 512
    if roundUp size ≤ body.length then some (⟨name, body.take size⟩, body.drop (roundUp size))
    else none

/-- The entries of an archive, at most as many as the first argument says. -/
def readEntries : Nat → List UInt8 → Option (List Entry)
  | 0, archive => if archive = endMark then some [] else none
  | n + 1, archive =>
    if archive = endMark then some []
    else
      match readEntry archive with
      | none => none
      | some (e, rest) => (readEntries n rest).map (e :: ·)

/-- The entries of an archive; the number of its bytes bounds their number. -/
def read (archive : List UInt8) : Option (List Entry) := readEntries archive.length archive

/-- The part of an archive for an entry: a header, the data, and padding. -/
def Encodes (part : List UInt8) (e : Entry) : Prop :=
  ∃ header padding, readHeader header = some (e.name, e.data.length) ∧
    part = header ++ (e.data ++ padding) ∧
    e.data.length + padding.length = roundUp e.data.length

theorem readHeader_isHeader {block name : List UInt8} {size : Nat}
    (h : readHeader block = some (name, size)) : IsHeader block := by
  unfold readHeader at h
  split at h
  · next hheader => exact hheader
  · exact nomatch h

theorem Encodes.length_pos {part : List UInt8} {e : Entry} (h : Encodes part e) :
    0 < part.length := by
  obtain ⟨header, padding, hheader, rfl, _⟩ := h
  rw [List.length_append, (readHeader_isHeader hheader).length]
  omega

/-- A part consists of whole blocks. -/
theorem Encodes.length_mod {part : List UInt8} {e : Entry} (h : Encodes part e) :
    part.length % 512 = 0 := by
  obtain ⟨header, padding, hheader, rfl, hlength⟩ := h
  rw [List.length_append, List.length_append, hlength, (readHeader_isHeader hheader).length,
    roundUp]
  omega

theorem length_flatten_mod {parts : List (List UInt8)} {es : List Entry}
    (h : List.Forall₂ Encodes parts es) : parts.flatten.length % 512 = 0 := by
  induction h with
  | nil => rfl
  | cons hpart _ ih =>
    have := hpart.length_mod
    rw [List.flatten_cons, List.length_append]
    omega

/-- What begins with a header is no end mark. -/
theorem ne_endMark_of_isHeader {archive : List UInt8} (h : IsHeader (archive.take 512)) :
    archive ≠ endMark := by
  rintro rfl
  exact absurd h.magic (by decide)

theorem Encodes.isHeader {part : List UInt8} {e : Entry} (h : Encodes part e)
    (rest : List UInt8) : IsHeader ((part ++ rest).take 512) := by
  obtain ⟨header, padding, hheader, rfl, _⟩ := h
  have hok := readHeader_isHeader hheader
  rwa [List.append_assoc, ← hok.length, List.take_left]

theorem Encodes.readEntry {part : List UInt8} {e : Entry} (h : Encodes part e)
    (rest : List UInt8) : readEntry (part ++ rest) = some (e, rest) := by
  obtain ⟨header, padding, hheader, rfl, hlength⟩ := h
  have hsize := (readHeader_isHeader hheader).length
  rw [Ustar.readEntry, List.append_assoc, ← hsize, List.take_left, List.drop_left, hheader]
  dsimp only
  rw [← hlength, ← List.length_append, List.drop_left, List.append_assoc, List.take_left]
  exact if_pos (by simp only [List.length_append]; omega)

theorem readEntries_of_readEntry {archive rest : List UInt8} {e : Entry}
    (hheader : IsHeader (archive.take 512)) (h : Ustar.readEntry archive = some (e, rest)) (n : Nat) :
    readEntries (n + 1) archive = (readEntries n rest).map (e :: ·) := by
  rw [readEntries, if_neg (ne_endMark_of_isHeader hheader), h]

/-- What does not begin with a header is no archive. -/
theorem readEntries_of_not_isHeader {archive : List UInt8} (hmark : archive ≠ endMark)
    (h : ¬ IsHeader (archive.take 512)) : ∀ n, readEntries n archive = none
  | 0 => if_neg hmark
  | n + 1 => by
    have hheader : readHeader (archive.take 512) = none := by
      rw [readHeader, if_neg h]
    have hentry : Ustar.readEntry archive = none := by
      rw [Ustar.readEntry, hheader]
    rw [readEntries, if_neg hmark, hentry]

theorem readEntries_flatten {parts : List (List UInt8)} {es : List Entry}
    (h : List.Forall₂ Encodes parts es) :
    ∀ n, es.length ≤ n → readEntries n (parts.flatten ++ endMark) = some es := by
  induction h with
  | nil =>
    intro n _
    cases n <;> exact if_pos rfl
  | @cons part e parts es hpart _ ih =>
    intro n hn
    cases n with
    | zero => exact absurd hn (by simp)
    | succ n =>
      rw [List.flatten_cons, List.append_assoc,
        readEntries_of_readEntry (hpart.isHeader _) (hpart.readEntry _),
        ih n (Nat.le_of_succ_le_succ hn)]
      rfl

/-- An archive is read back as the entries of its parts. -/
theorem read_flatten {parts : List (List UInt8)} {es : List Entry}
    (h : List.Forall₂ Encodes parts es) : read (parts.flatten ++ endMark) = some es := by
  refine readEntries_flatten h _ ?_
  rw [List.length_append]
  refine Nat.le_trans ?_ (Nat.le_add_right _ _)
  induction h with
  | nil => exact Nat.zero_le _
  | cons hpart _ ih =>
    have := hpart.length_pos
    rw [List.flatten_cons, List.length_append, List.length_cons]
    omega

end Ustar
