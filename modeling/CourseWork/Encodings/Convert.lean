import CourseWork.Encodings.Utf8

/-!
# The converter

The conversion of a file from KOI8-R, CP1251 or ISO 8859-5 to UTF-8. A table lookup outside of
its table is undefined, and then the program has no result.
-/

namespace CourseWork.Encodings
open CLib

/-! ## Tables -/

/-- `cp1251_to_unicode`, for the bytes from `0x80` on. -/
def cp1251ToUnicode : List UInt16 := [
  0x0402, 0x0403, 0x201A, 0x0453, 0x201E, 0x2026, 0x2020, 0x2021,
  0x20AC, 0x2030, 0x0409, 0x2039, 0x040A, 0x040C, 0x040B, 0x040F,
  0x0452, 0x2018, 0x2019, 0x201C, 0x201D, 0x2022, 0x2013, 0x2014,
  0x0000, 0x2122, 0x0459, 0x203A, 0x045A, 0x045C, 0x045B, 0x045F,
  0x00A0, 0x040E, 0x045E, 0x0408, 0x00A4, 0x0490, 0x00A6, 0x00A7,
  0x0401, 0x00A9, 0x0404, 0x00AB, 0x00AC, 0x00AD, 0x00AE, 0x0407,
  0x00B0, 0x00B1, 0x0406, 0x0456, 0x0491, 0x00B5, 0x00B6, 0x00B7,
  0x0451, 0x2116, 0x0454, 0x00BB, 0x0458, 0x0405, 0x0455, 0x0457,
  0x0410, 0x0411, 0x0412, 0x0413, 0x0414, 0x0415, 0x0416, 0x0417,
  0x0418, 0x0419, 0x041A, 0x041B, 0x041C, 0x041D, 0x041E, 0x041F,
  0x0420, 0x0421, 0x0422, 0x0423, 0x0424, 0x0425, 0x0426, 0x0427,
  0x0428, 0x0429, 0x042A, 0x042B, 0x042C, 0x042D, 0x042E, 0x042F,
  0x0430, 0x0431, 0x0432, 0x0433, 0x0434, 0x0435, 0x0436, 0x0437,
  0x0438, 0x0439, 0x043A, 0x043B, 0x043C, 0x043D, 0x043E, 0x043F,
  0x0440, 0x0441, 0x0442, 0x0443, 0x0444, 0x0445, 0x0446, 0x0447,
  0x0448, 0x0449, 0x044A, 0x044B, 0x044C, 0x044D, 0x044E, 0x044F]

/-- `koi8r_to_unicode`, for the bytes from `0x80` on. -/
def koi8rToUnicode : List UInt16 := [
  0x2500, 0x2502, 0x250C, 0x2510, 0x2514, 0x2518, 0x251C, 0x2524,
  0x252C, 0x2534, 0x253C, 0x2580, 0x2584, 0x2588, 0x258C, 0x2590,
  0x2591, 0x2592, 0x2593, 0x2320, 0x25A0, 0x2219, 0x221A, 0x2248,
  0x2264, 0x2265, 0x00A0, 0x2321, 0x00B0, 0x00B2, 0x00B7, 0x00F7,
  0x2550, 0x2551, 0x2552, 0x0451, 0x2553, 0x2554, 0x2555, 0x2556,
  0x2557, 0x2558, 0x2559, 0x255A, 0x255B, 0x255C, 0x255D, 0x255E,
  0x255F, 0x2560, 0x2561, 0x0401, 0x2562, 0x2563, 0x2564, 0x2565,
  0x2566, 0x2567, 0x2568, 0x2569, 0x256A, 0x256B, 0x256C, 0x00A9,
  0x044E, 0x0430, 0x0431, 0x0446, 0x0434, 0x0435, 0x0444, 0x0433,
  0x0445, 0x0438, 0x0439, 0x043A, 0x043B, 0x043C, 0x043D, 0x043E,
  0x043F, 0x044F, 0x0440, 0x0441, 0x0442, 0x0443, 0x0436, 0x0432,
  0x044C, 0x044B, 0x0437, 0x0448, 0x044D, 0x0449, 0x0447, 0x044A,
  0x042E, 0x0410, 0x0411, 0x0426, 0x0414, 0x0415, 0x0424, 0x0413,
  0x0425, 0x0418, 0x0419, 0x041A, 0x041B, 0x041C, 0x041D, 0x041E,
  0x041F, 0x042F, 0x0420, 0x0421, 0x0422, 0x0423, 0x0416, 0x0412,
  0x042C, 0x042B, 0x0417, 0x0428, 0x042D, 0x0429, 0x0427, 0x042A]

/-- `iso8859_5_to_unicode`, for the bytes from `0xA0` on. -/
def iso88595ToUnicode : List UInt16 := [
  0x00A0, 0x0401, 0x0402, 0x0403, 0x0404, 0x0405, 0x0406, 0x0407,
  0x0408, 0x0409, 0x040A, 0x040B, 0x040C, 0x00AD, 0x040E, 0x040F,
  0x0410, 0x0411, 0x0412, 0x0413, 0x0414, 0x0415, 0x0416, 0x0417,
  0x0418, 0x0419, 0x041A, 0x041B, 0x041C, 0x041D, 0x041E, 0x041F,
  0x0420, 0x0421, 0x0422, 0x0423, 0x0424, 0x0425, 0x0426, 0x0427,
  0x0428, 0x0429, 0x042A, 0x042B, 0x042C, 0x042D, 0x042E, 0x042F,
  0x0430, 0x0431, 0x0432, 0x0433, 0x0434, 0x0435, 0x0436, 0x0437,
  0x0438, 0x0439, 0x043A, 0x043B, 0x043C, 0x043D, 0x043E, 0x043F,
  0x0440, 0x0441, 0x0442, 0x0443, 0x0444, 0x0445, 0x0446, 0x0447,
  0x0448, 0x0449, 0x044A, 0x044B, 0x044C, 0x044D, 0x044E, 0x044F,
  0x2116, 0x0451, 0x0452, 0x0453, 0x0454, 0x0455, 0x0456, 0x0457,
  0x0458, 0x0459, 0x045A, 0x045B, 0x045C, 0x00A7, 0x045E, 0x045F]

/-- `table[k]`, which is undefined outside of the table. -/
def tableAt (table : List UInt16) (k : Int) : Option UInt16 :=
  if k < 0 then none else table[k.toNat]?

/-- `map_koi8r`. -/
def mapKoi8r (ch : UInt8) : Option UInt16 := tableAt koi8rToUnicode ch.toNat

/-- `map_cp1251`. -/
def mapCp1251 (ch : UInt8) : Option UInt16 := tableAt cp1251ToUnicode ch.toNat

/-- `map_iso8859_5`. -/
def mapIso88595 (ch : UInt8) : Option UInt16 := tableAt iso88595ToUnicode (ch.toNat - 32)

/-- `check_encoding`; NULL is `none`. -/
def checkEncoding (encoding : Bytes) : Option (UInt8 → Option UInt16) :=
  if encoding = ascii "koi8r" then some mapKoi8r
  else if encoding = ascii "cp1251" then some mapCp1251
  else if encoding = ascii "8859-5" then some mapIso88595
  else none

/-! ## The program -/

/-- The code point of a byte of the file. -/
def codepointOf (getUnicode : UInt8 → Option UInt16) (ch : UInt8) : Option UInt32 :=
  if ch < 0x80 then some ch.toUInt32 else (getUnicode (ch - 0x80)).map UInt16.toUInt32

/-- The loop over the file: what is written. -/
def convertLoop (getUnicode : UInt8 → Option UInt16) : Bytes → Option Bytes
  | [] => some []
  | ch :: rest => do
    let codepoint ← codepointOf getUnicode ch
    let written ← convertLoop getUnicode rest
    return utf8Bytes codepoint ++ written

/-- What a run leaves: its status, the text that it prints, and the content of the output file,
if that was opened. -/
structure Exit where
  status : Nat
  stdout : Bytes
  output : Option Bytes
  deriving DecidableEq

/-- `main`. The input file has the given content, or cannot be opened; the output file, which is
another one, can be opened or not. -/
def main (argv : List Bytes) (input : Option Bytes) (outputOpens : Bool) : Option Exit :=
  match argv, input with
  | [_, _, outFile, encoding], some content =>
    if !outputOpens then
      some ⟨1, ascii "Failed to open " ++ outFile ++ ascii " for writing!\n", none⟩
    else
      match checkEncoding encoding with
      | none =>
        some ⟨1, ascii "Wrong encoding specified " ++ encoding ++
          ascii "\nUse [koi8r|cp1251|8859-5]", some []⟩
      | some getUnicode => (convertLoop getUnicode content).map fun written =>
        ⟨0, [], some written⟩
  | [_, inFile, _, _], none =>
    some ⟨1, ascii "Failed to open " ++ inFile ++ ascii " for reading!\n", none⟩
  | _, _ =>
    some ⟨1, ascii "USAGE: " ++ argv.headD [] ++
      ascii " <in-file> <out-file> [koi8r|cp1251| 8859-5]\n" ++
      ascii "example: .\\main koi8.txt out-koi8.txt koi8r\n", none⟩

/-! ## Code points -/

/-- The encodings that the program supports. -/
inductive Encoding where
  | koi8r
  | cp1251
  | iso88595
  deriving DecidableEq

/-- The argument for an encoding. -/
def Encoding.name : Encoding → Bytes
  | .koi8r => ascii "koi8r"
  | .cp1251 => ascii "cp1251"
  | .iso88595 => ascii "8859-5"

/-- The first byte of the table. -/
def Encoding.first : Encoding → Nat
  | .koi8r => 0x80
  | .cp1251 => 0x80
  | .iso88595 => 0xA0

def Encoding.table : Encoding → List UInt16
  | .koi8r => koi8rToUnicode
  | .cp1251 => cp1251ToUnicode
  | .iso88595 => iso88595ToUnicode

/-- The character of a byte: itself, its entry in the table, or the replacement character where
the table has none. -/
def Encoding.character (e : Encoding) (ch : UInt8) : Char :=
  if ch.toNat < 0x80 then Char.ofNat ch.toNat
  else if ch.toNat < e.first then Char.ofNat 0xFFFD
  else Char.ofNat (e.table.getD (ch.toNat - e.first) 0).toNat

/-- The function that `check_encoding` returns. -/
def Encoding.mapping : Encoding → UInt8 → Option UInt16
  | .koi8r => mapKoi8r
  | .cp1251 => mapCp1251
  | .iso88595 => mapIso88595

/-- The supported encodings are those that are accepted. -/
theorem checkEncoding_eq_some_iff {encoding : Bytes} {getUnicode : UInt8 → Option UInt16} :
    checkEncoding encoding = some getUnicode ↔
      ∃ e : Encoding, e.name = encoding ∧ e.mapping = getUnicode := by
  unfold checkEncoding
  constructor
  · intro h
    split at h
    · next heq => exact ⟨.koi8r, heq.symm, Option.some.inj h⟩
    · split at h
      · next heq => exact ⟨.cp1251, heq.symm, Option.some.inj h⟩
      · split at h
        · next heq => exact ⟨.iso88595, heq.symm, Option.some.inj h⟩
        · cases h
  · rintro ⟨e, rfl, rfl⟩
    cases e with
    | koi8r => rfl
    | cp1251 => rfl
    | iso88595 => rfl

section Bytes

variable {e : Encoding} {ch : UInt8}

/-- Every table has an entry for each byte from its first one on. -/
theorem length_table (e : Encoding) : e.table.length + e.first = 0x100 := by
  cases e with
  | koi8r => decide +kernel
  | cp1251 => decide +kernel
  | iso88595 => decide +kernel

/-- No entry is a surrogate. -/
theorem lt_of_mem_table (e : Encoding) : ∀ v ∈ e.table, v.toNat < 0xD800 := by
  have hall : e.table.all (·.toNat < 0xD800) = true := by
    cases e with
    | koi8r => decide +kernel
    | cp1251 => decide +kernel
    | iso88595 => decide +kernel
  exact fun v hv => of_decide_eq_true (List.all_eq_true.mp hall v hv)

theorem mapping_eq (e : Encoding) (ch : UInt8) :
    e.mapping ch = tableAt e.table (ch.toNat + 0x80 - e.first) := by
  cases e with
  | koi8r =>
    show tableAt koi8rToUnicode ch.toNat = tableAt koi8rToUnicode (ch.toNat + 128 - 128)
    rw [Int.add_sub_cancel]
  | cp1251 =>
    show tableAt cp1251ToUnicode ch.toNat = tableAt cp1251ToUnicode (ch.toNat + 128 - 128)
    rw [Int.add_sub_cancel]
  | iso88595 =>
    show tableAt iso88595ToUnicode (ch.toNat - 32) =
      tableAt iso88595ToUnicode (ch.toNat + 128 - 160)
    rw [show (ch.toNat : Int) + 128 - 160 = ch.toNat - 32 by omega]

/-- The lookup for a byte from `0x80` on is in the table, unless the byte is before the first
one of the table. -/
theorem mapping_sub (h : 0x80 ≤ ch.toNat) : e.mapping (ch - 0x80) =
    if ch.toNat < e.first then none else some (e.table.getD (ch.toNat - e.first) 0) := by
  have hlength := length_table e
  have hch := ch.toNat_lt
  have hsub : (ch - 0x80).toNat = ch.toNat - 0x80 :=
    UInt8.toNat_sub_of_le _ _ (UInt8.le_iff_toNat_le.mpr h)
  have hindex : ((ch.toNat - 0x80 : Nat) : Int) + 0x80 - e.first = ch.toNat - e.first := by
    omega
  rw [mapping_eq, hsub, hindex, tableAt]
  by_cases hfirst : ch.toNat < e.first
  · rw [if_pos hfirst, if_pos (by omega)]
  · have hlt : ch.toNat - e.first < e.table.length := by omega
    rw [if_neg hfirst, if_neg (by omega), show ((ch.toNat : Int) - e.first).toNat =
      ch.toNat - e.first by omega, List.getD_eq_getElem?_getD, List.getElem?_eq_getElem hlt]
    rfl

/-- A number that is not a surrogate, as a character. -/
theorem utf8Bytes_ofNat {v : UInt32} (h : v.toNat < 0xD800) :
    utf8Bytes v = String.utf8EncodeChar (Char.ofNat v.toNat) := by
  have hval : (Char.ofNat v.toNat).val = v := by
    rw [Char.ofNat, dif_pos (.inl h)]
    exact UInt32.toNat_inj.mp rfl
  have hbytes := (utf8Bytes_eq_iff (Char.ofNat v.toNat)).mpr (by rw [hval]; omega)
  rwa [hval] at hbytes

/-- A byte before the first one of the table, and not below `0x80`. -/
def Encoding.Undefined (e : Encoding) (ch : UInt8) : Prop := 0x80 ≤ ch.toNat ∧ ch.toNat < e.first

instance (e : Encoding) (ch : UInt8) : Decidable (e.Undefined ch) :=
  inferInstanceAs (Decidable (_ ∧ _))

theorem codepointOf_undefined (h : e.Undefined ch) : codepointOf e.mapping ch = none := by
  have hhigh : ¬ch < 0x80 := fun hlt => Nat.not_lt.mpr h.1 (UInt8.lt_iff_toNat_lt.mp hlt)
  rw [codepointOf, if_neg hhigh, mapping_sub h.1, if_pos h.2]
  rfl

/-- Any other byte is written as its character. -/
theorem codepointOf_defined (h : ¬e.Undefined ch) :
    ∃ v, codepointOf e.mapping ch = some v ∧
      utf8Bytes v = String.utf8EncodeChar (e.character ch) := by
  rw [codepointOf, Encoding.character]
  by_cases hlow : ch.toNat < 0x80
  · rw [if_pos (UInt8.lt_iff_toNat_lt.mpr hlow), if_pos hlow]
    refine ⟨_, rfl, ?_⟩
    have hbytes := utf8Bytes_ofNat (v := ch.toUInt32) (by rw [UInt8.toNat_toUInt32]; omega)
    rwa [UInt8.toNat_toUInt32] at hbytes
  · have hfirst : ¬ch.toNat < e.first := fun hlt => h ⟨Nat.not_lt.mp hlow, hlt⟩
    have hlength := length_table e
    have hch := ch.toNat_lt
    have hlt : ch.toNat - e.first < e.table.length := by omega
    have hentry : e.table.getD (ch.toNat - e.first) 0 ∈ e.table := by
      rw [List.getD_eq_getElem?_getD, List.getElem?_eq_getElem hlt]
      exact List.getElem_mem hlt
    rw [if_neg fun hlt => hlow (UInt8.lt_iff_toNat_lt.mp hlt), if_neg hlow, if_neg hfirst,
      mapping_sub (Nat.not_lt.mp hlow), if_neg hfirst]
    refine ⟨_, rfl, ?_⟩
    exact utf8Bytes_ofNat (lt_of_mem_table e _ hentry)

end Bytes

/-! ## Files -/

/-- The loop writes the characters of the file if each of its bytes has one. -/
theorem convertLoop_defined {e : Encoding} : ∀ {content : Bytes},
    (∀ ch ∈ content, ¬e.Undefined ch) → convertLoop e.mapping content =
      some ((content.map e.character).flatMap String.utf8EncodeChar)
  | [], _ => rfl
  | ch :: rest, h => by
    obtain ⟨hch, hrest⟩ := List.forall_mem_cons.mp h
    obtain ⟨v, hv, hbytes⟩ := codepointOf_defined hch
    rw [convertLoop, hv, convertLoop_defined hrest, List.map_cons, List.flatMap_cons, ← hbytes]
    rfl

/-- A byte without an entry is looked up outside of the table. -/
theorem convertLoop_undefined {e : Encoding} : ∀ {content : Bytes},
    (∃ ch ∈ content, e.Undefined ch) → convertLoop e.mapping content = none
  | ch :: rest, h => by
    unfold convertLoop
    by_cases hch : e.Undefined ch
    · rw [codepointOf_undefined hch]
      rfl
    · obtain ⟨v, hv, _⟩ := codepointOf_defined hch
      obtain ⟨c, hc, hundefined⟩ := h
      rcases List.mem_cons.mp hc with rfl | hc
      · exact absurd hundefined hch
      · rw [hv, convertLoop_undefined ⟨c, hc, hundefined⟩]
        rfl

theorem main_accepted (e : Encoding) (program inFile outFile content : Bytes) :
    main [program, inFile, outFile, e.name] (some content) true =
      (convertLoop e.mapping content).map fun written => ⟨0, [], some written⟩ := by
  have haccepted : checkEncoding e.name = some e.mapping :=
    checkEncoding_eq_some_iff.mpr ⟨e, rfl, rfl⟩
  simp only [main, haccepted]
  rfl

theorem undefined_iff {e : Encoding} {ch : UInt8} :
    e.Undefined ch ↔ e = .iso88595 ∧ 0x80 ≤ ch.toNat ∧ ch.toNat < 0xA0 := by
  have hnone : ∀ n : Nat, ¬(0x80 ≤ n ∧ n < 0x80) := fun n h => absurd h.2 (Nat.not_lt.mpr h.1)
  cases e with
  | koi8r => exact iff_of_false (hnone _) fun h => Encoding.noConfusion h.1
  | cp1251 => exact iff_of_false (hnone _) fun h => Encoding.noConfusion h.1
  | iso88595 => exact (and_iff_right rfl).symm

/-- For a supported encoding the program writes one character for each byte of the input, by the
table, exactly if the encoding is not ISO 8859-5 or no byte is in `0x80 .. 0x9F`. -/
theorem convert_iff (e : Encoding) (program inFile outFile content : Bytes) :
    (∃ output, main [program, inFile, outFile, e.name] (some content) true =
        some ⟨0, [], some output⟩ ∧
      output.toByteArray.utf8Decode? = some (content.map e.character).toArray) ↔
    (e = .iso88595 → ∀ ch ∈ content, ch.toNat < 0x80 ∨ 0xA0 ≤ ch.toNat) := by
  rw [main_accepted]
  constructor
  · rintro ⟨output, hrun, _⟩ rfl ch hch
    by_contra hnot
    have hundefined : Encoding.iso88595.Undefined ch := undefined_iff.mpr ⟨rfl, by omega⟩
    rw [convertLoop_undefined ⟨ch, hch, hundefined⟩] at hrun
    cases hrun
  · intro h
    have hdefined : ∀ ch ∈ content, ¬e.Undefined ch := by
      intro ch hch hundefined
      obtain ⟨he, hbyte⟩ := undefined_iff.mp hundefined
      have hch := h he ch hch
      omega
    rw [convertLoop_defined hdefined]
    exact ⟨_, rfl, utf8Decode_eq_some_iff.mpr rfl⟩

/-- The byte `0x80` is looked up before the table of ISO 8859-5, and the program has no
result. -/
theorem convert_reads_before_table :
    ¬∃ output, main [ascii "main", ascii "in", ascii "out", Encoding.iso88595.name] (some [0x80])
        true = some ⟨0, [], some output⟩ ∧
      output.toByteArray.utf8Decode? =
        some (([0x80] : Bytes).map Encoding.iso88595.character).toArray := by
  have hrun : main [ascii "main", ascii "in", ascii "out", Encoding.iso88595.name] (some [0x80])
      true = none := by
    decide +kernel
  rintro ⟨output, hsome, _⟩
  rw [hrun] at hsome
  cases hsome

end CourseWork.Encodings
