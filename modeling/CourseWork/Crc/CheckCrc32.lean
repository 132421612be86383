import CourseWork.Crc.Crc32

/-!
# check_crc32

The program that prints the CRC-32 of a file. It maps the file piece by piece. What the
system calls return is given from outside, the file does not change while it is read.
-/

namespace CourseWork.Crc

open CLib

/-! ## The system -/

/-- What `fstat` finds, with the content; `st_size` is its length. -/
structure Stat where
  isRegular : Bool
  content : Bytes

/-- What the system calls return. -/
structure System where
  /-- A file that can be opened, with `none` where `fstat` fails. -/
  openFile : Bytes → Option (Option Stat)
  /-- `sysconf(_SC_PAGE_SIZE)`. -/
  pageSize : Int64
  /-- Whether `mmap` fails at an offset. -/
  mmapFails : Nat → Bool
  /-- Whether `munmap` fails at an offset. -/
  munmapFails : Nat → Bool
  closeFails : Bool

/-- The messages on `stderr`. -/
inductive Message where
  | usage
  | openError
  | statError
  | notAFile
  | mmapError
  | munmapWarning
  | closeError
  deriving DecidableEq

/-- The end of the program: what it has printed, and whether it was a success. -/
structure Outcome where
  stdout : Bytes
  stderr : List Message
  success : Bool

/-! ## Output -/

/-- A hexadecimal digit. -/
def hexDigit (n : Nat) : UInt8 := UInt8.ofNat (if n < 10 then 48 + n else 87 + n)

/-- The digits of `%08x`. -/
def hex8 (n : UInt32) : Bytes :=
  (List.range 8).map fun i => hexDigit (n.toNat / 16 ^ (7 - i) % 16)

/-- `printf("%08x\n", crc)`. -/
def printCrc (crc : UInt32) : Bytes := hex8 crc ++ [10]

/-! ## The program -/

/-- The size of a chunk: at least a megabyte and a page, in whole pages. -/
def chunkSize (pageSize : Int64) : Nat :=
  let pageSize := (if pageSize = -1 then 4096 else pageSize).toUInt64
  let chunkSize : UInt64 := if pageSize > 1024 * 1024 then pageSize else 1024 * 1024
  ((chunkSize + pageSize - 1) &&& ~~~(pageSize - 1)).toNat

/-- `mmap` for reading; no bytes cannot be mapped. -/
def mmap (system : System) (content : Bytes) (mapSize offset : Nat) : Option Bytes :=
  if mapSize = 0 || system.mmapFails offset then none
  else some ((content.drop offset).take mapSize)

theorem mmap_eq_some {system : System} {content mapped : Bytes} {mapSize offset : Nat}
    (h : mmap system content mapSize offset = some mapped) :
    mapSize ≠ 0 ∧ mapped = (content.drop offset).take mapSize := by
  rw [mmap] at h
  split at h
  · cases h
  · next hok =>
    refine ⟨fun hzero => hok ?_, (Option.some.inj h).symm⟩
    rw [hzero]
    rfl

/-- What the loop leaves: the remainder, the offset, `success` and its messages. -/
structure Mapped where
  crc : UInt32
  offset : Nat
  success : Bool
  stderr : List Message

/-- `map_size`: a chunk, or what remains of the file. -/
def mapSize (content : Bytes) (chunkSize offset : Nat) : Nat :=
  let remaining := content.length - offset
  if remaining < chunkSize then remaining else chunkSize

/-- The loop over the chunks. -/
def mapLoop (system : System) (content : Bytes) (chunkSize offset : Nat) (crc : UInt32)
    (success : Bool) : Mapped :=
  if _h : offset < content.length then
    let mapSize := mapSize content chunkSize offset
    match _hmap : mmap system content mapSize offset with
    | none => ⟨crc, offset, false, [.mmapError]⟩
    | some mapped =>
      let rest := mapLoop system content chunkSize (offset + mapSize) (updateCrc32 crc mapped) true
      if system.munmapFails offset then { rest with stderr := .munmapWarning :: rest.stderr }
      else rest
  else ⟨crc, offset, success, []⟩
termination_by content.length - offset
decreasing_by
  have hsize := (mmap_eq_some _hmap).1
  omega

/-- What follows the checks of a regular file. -/
def checkFile (system : System) (content : Bytes) : Outcome :=
  if content.length = 0 then ⟨printCrc 0, [], true⟩
  else
    let mapped := mapLoop system content (chunkSize system.pageSize) 0 0xffffffff false
    let stderr := mapped.stderr ++ if system.closeFails then [.closeError] else []
    if !mapped.success && mapped.offset < content.length then ⟨[], stderr, false⟩
    else ⟨printCrc (mapped.crc ^^^ 0xffffffff), stderr, true⟩

/-- `main`. -/
def main (system : System) (argv : List Bytes) : Outcome :=
  if argv.length ≠ 2 then ⟨[], [.usage], false⟩
  else
    match system.openFile (argv.getD 1 []) with
    | none => ⟨[], [.openError], false⟩
    | some none => ⟨[], [.statError], false⟩
    | some (some stat) =>
      if stat.isRegular then checkFile system stat.content else ⟨[], [.notAFile], false⟩

/-! ## What is printed -/

/-- The value of a hexadecimal digit. -/
def hexDigitValue (c : UInt8) : Nat := if c.toNat < 58 then c.toNat - 48 else c.toNat - 87

/-- The value of hexadecimal digits. -/
def hexValue (digits : Bytes) : Nat := digits.foldl (fun n c => 16 * n + hexDigitValue c) 0

theorem hexDigitValue_hexDigit : ∀ d < 16, hexDigitValue (hexDigit d) = d := by decide

/-- The eight digits read back as the number. -/
theorem hexValue_hex8 (n : UInt32) : hexValue (hex8 n) = n.toNat := by
  have hdigit : ∀ k, hexDigitValue (hexDigit (n.toNat / k % 16)) = n.toNat / k % 16 := fun k =>
    hexDigitValue_hexDigit _ (Nat.mod_lt _ (by decide))
  have hquotient : ∀ k, n.toNat / 16 ^ (k + 1) = n.toNat / 16 ^ k / 16 := fun k => by
    rw [Nat.pow_succ, Nat.div_div_eq_div_mul]
  have hlt := n.toNat_lt
  have hrange : List.range 8 = [0, 1, 2, 3, 4, 5, 6, 7] := by decide
  simp only [hexValue, hex8, hrange, List.map_cons, List.map_nil, List.foldl_cons, List.foldl_nil,
    hdigit, Nat.reduceSub]
  rw [hquotient 6, hquotient 5, hquotient 4, hquotient 3, hquotient 2, hquotient 1, hquotient 0,
    Nat.pow_zero, Nat.div_one]
  omega

theorem mapSize_le {content : Bytes} {chunkSize offset : Nat} (h : offset < content.length) :
    offset + mapSize content chunkSize offset ≤ content.length := by
  rw [mapSize]
  split <;> omega

/-- The loop has taken the bytes up to its last offset, and before the end of the file it
stops only without success. -/
theorem mapLoop_taken (system : System) (content : Bytes) (chunkSize offset : Nat) (crc : UInt32)
    (success : Bool) :
    ∃ taken rest, content.drop offset = taken ++ rest ∧
      (mapLoop system content chunkSize offset crc success).crc = updateCrc32 crc taken ∧
      (mapLoop system content chunkSize offset crc success).offset = offset + taken.length ∧
      (rest ≠ [] → (mapLoop system content chunkSize offset crc success).success = false) := by
  rw [mapLoop]
  split
  · next hlt =>
    dsimp only
    split
    · next => exact ⟨[], content.drop offset, rfl, rfl, rfl, fun _ => rfl⟩
    · next mapped hmap =>
      obtain ⟨hsize, rfl⟩ := mmap_eq_some hmap
      have hfits : offset + mapSize content chunkSize offset ≤ content.length := mapSize_le hlt
      obtain ⟨taken, rest, hsplit, hcrc, hoffset, hsuccess⟩ :=
        mapLoop_taken system content chunkSize (offset + mapSize content chunkSize offset)
          (updateCrc32 crc ((content.drop offset).take (mapSize content chunkSize offset))) true
      refine ⟨(content.drop offset).take (mapSize content chunkSize offset) ++ taken, rest, ?_, ?_,
        ?_, ?_⟩
      · rw [List.append_assoc, ← hsplit, ← List.drop_drop, List.take_append_drop]
      · rw [updateCrc32_append, ← hcrc]
        split <;> rfl
      · rw [List.length_append, List.length_take, List.length_drop, Nat.min_eq_left (by omega),
          ← Nat.add_assoc, ← hoffset]
        split <;> rfl
      · intro hrest
        rw [← hsuccess hrest]
        split <;> rfl
  · next hend =>
    have hall : content.drop offset = [] := List.drop_eq_nil_of_le (Nat.not_lt.mp hend)
    exact ⟨[], [], by rw [hall]; rfl, rfl, rfl, fun h => absurd rfl h⟩
termination_by content.length - offset
decreasing_by omega

/-- Where no mapping fails, chunks of any size but 0 lead to the end of the file. -/
theorem mapLoop_complete {system : System} (hmmap : ∀ offset, system.mmapFails offset = false)
    (content : Bytes) {chunkSize : Nat} (hsize : 0 < chunkSize) (offset : Nat) (crc : UInt32)
    (success : Bool) :
    content.length ≤ (mapLoop system content chunkSize offset crc success).offset := by
  rw [mapLoop]
  split
  · next hlt =>
    have hpos : mapSize content chunkSize offset ≠ 0 := by
      rw [mapSize]
      split <;> omega
    have hmap : mmap system content (mapSize content chunkSize offset) offset =
        some ((content.drop offset).take (mapSize content chunkSize offset)) := by
      rw [mmap, hmmap, Bool.or_false, if_neg (by simpa using hpos)]
    dsimp only
    split
    · next hnone =>
      rw [hmap] at hnone
      cases hnone
    · next mapped _ =>
      have hrest := mapLoop_complete hmmap content hsize
        (offset + mapSize content chunkSize offset) (updateCrc32 crc mapped) true
      split <;> exact hrest
  · next hend => exact Nat.not_lt.mp hend
termination_by content.length - offset
decreasing_by omega

/-- A number without bits outside of a mask is not larger than the mask. -/
theorem le_of_and_not {x m : UInt64} (h : x &&& ~~~m = 0) : x.toNat ≤ m.toNat := by
  have hx : x &&& m = x := by
    apply UInt64.toBitVec_inj.mp
    have hbits := congrArg UInt64.toBitVec h
    rw [UInt64.toBitVec_and, UInt64.toBitVec_not] at hbits
    rw [UInt64.toBitVec_and]
    apply BitVec.eq_of_getLsbD_eq
    intro i hi
    have hbit := congrArg (fun y => y.getLsbD i) hbits
    simp only [BitVec.getLsbD_and, BitVec.getLsbD_not, hi, decide_true, Bool.true_and] at hbit ⊢
    revert hbit
    cases x.toBitVec.getLsbD i <;> cases m.toBitVec.getLsbD i <;> simp
  rw [← hx, UInt64.toNat_and]
  exact Nat.and_le_right

/-- What has the size of a page does not round to 0. -/
theorem round_ne_zero {size page : UInt64} (hpage : 1 ≤ page.toNat) (hle : page ≤ size)
    (hsize : size.toNat < 2 ^ 63) : (size + page - 1) &&& ~~~(page - 1) ≠ 0 := by
  intro hzero
  have hmask := le_of_and_not hzero
  have hone : (1 : UInt64).toNat = 1 := rfl
  rw [UInt64.le_iff_toNat_le] at hle
  have hsum : (size + page).toNat = size.toNat + page.toNat := by
    rw [UInt64.toNat_add]
    omega
  rw [UInt64.toNat_sub_of_le _ _ (UInt64.le_iff_toNat_le.mpr (by omega)),
    UInt64.toNat_sub_of_le _ _ (UInt64.le_iff_toNat_le.mpr (by omega)), hsum] at hmask
  omega

/-- Chunks are not empty. -/
theorem chunkSize_pos {pageSize : Int64} (h : 0 < pageSize ∨ pageSize = -1) :
    0 < chunkSize pageSize := by
  rw [chunkSize]
  generalize hpage : (if pageSize = -1 then 4096 else pageSize) = page
  have hpos : 0 < page := by
    rw [← hpage]
    split
    · decide
    · next hne => exact h.resolve_right hne
  have hnat : page.toUInt64.toNat = page.toInt.toNat :=
    Int64.toNat_toUInt64_of_le (Int64.le_of_lt hpos)
  have hlt := page.toInt_lt
  have hint := Int64.lt_iff_toInt_lt.mp hpos
  rw [Int64.toInt_zero] at hint
  refine Nat.pos_of_ne_zero fun hzero => ?_
  have hzero := UInt64.toNat_inj.mp (hzero.trans UInt64.toNat_zero.symm)
  split at hzero
  · exact round_ne_zero (by omega) (UInt64.le_refl _) (by omega) hzero
  · next hsmall => exact round_ne_zero (by omega) (UInt64.not_lt.mp hsmall) (by decide) hzero

/-! ## The program prints the CRC-32 -/

/-- The line with the CRC-32 of a file. -/
def crcLine (content : Bytes) : Bytes := printCrc ⟨crc32 content⟩

theorem printCrc_eq {crc : UInt32} {content : Bytes} (h : crc.toBitVec = crc32 content) :
    printCrc crc = crcLine content := by
  rw [crcLine, ← h]

/-- A regular file: its CRC-32 is printed, or a mapping has failed and nothing is. -/
theorem checkFile_cases (system : System) (content : Bytes) :
    ((checkFile system content).stdout = crcLine content ∧ (checkFile system content).success = true) ∨
    ((checkFile system content).stdout = [] ∧ (checkFile system content).success = false) := by
  rw [checkFile]
  split
  · next hempty =>
    rw [List.eq_nil_of_length_eq_zero hempty]
    exact .inl ⟨printCrc_eq (by decide), rfl⟩
  · obtain ⟨taken, rest, hsplit, hcrc, hoffset, hsuccess⟩ :=
      mapLoop_taken system content (chunkSize system.pageSize) 0 0xffffffff false
    rw [List.drop_zero] at hsplit
    dsimp only
    by_cases hrest : rest = []
    · rw [hrest, List.append_nil] at hsplit
      rw [Nat.zero_add, ← hsplit] at hoffset
      rw [if_neg (by simp [hoffset]), hcrc, ← hsplit]
      exact .inl ⟨printCrc_eq (updateCrc32_crc32 content), rfl⟩
    · have hlt : taken.length < content.length := by
        rw [hsplit, List.length_append]
        have := List.length_pos_iff.mpr hrest
        omega
      rw [if_pos (by simp [hoffset, hsuccess hrest, hlt])]
      exact .inr ⟨rfl, rfl⟩

theorem checkFile_complete {system : System} (hmmap : ∀ offset, system.mmapFails offset = false)
    (hpage : 0 < system.pageSize ∨ system.pageSize = -1) (content : Bytes) :
    (checkFile system content).stdout = crcLine content ∧
      (checkFile system content).success = true := by
  refine (checkFile_cases system content).resolve_right fun ⟨_, hfail⟩ => ?_
  rw [checkFile] at hfail
  split at hfail
  · cases hfail
  · have hend := mapLoop_complete hmmap content (chunkSize_pos hpage) 0 0xffffffff false
    rw [if_neg (by simp [Nat.not_lt.mpr hend])] at hfail
    cases hfail

/-- `update_crc32` on bytes one after the other is the composition of the updates. The loop
over chunks of any size leaves the CRC-32 of the file, bit by bit. Whatever the program
prints is the CRC-32 of a regular file, and it does print it unless a call fails. -/
theorem check_crc32_exact :
    (∀ (crc : UInt32) (a b : Bytes),
      updateCrc32 crc (a ++ b) = updateCrc32 (updateCrc32 crc a) b) ∧
    (∀ (system : System) (content : Bytes) (chunkSize : Nat), 0 < chunkSize →
      (∀ offset, system.mmapFails offset = false) →
      ((mapLoop system content chunkSize 0 0xffffffff false).crc ^^^ 0xffffffff).toBitVec =
        crc32 content) ∧
    (∀ n : UInt32, hexValue (hex8 n) = n.toNat) ∧
    (∀ (system : System) (argv : List Bytes), (main system argv).stdout ≠ [] →
      ∃ content, system.openFile (argv.getD 1 []) = some (some ⟨true, content⟩) ∧
        (main system argv).stdout = crcLine content ∧ (main system argv).success = true) ∧
    ∀ (system : System) (program file content : Bytes),
      system.openFile file = some (some ⟨true, content⟩) →
      (∀ offset, system.mmapFails offset = false) →
      (0 < system.pageSize ∨ system.pageSize = -1) →
      (main system [program, file]).stdout = crcLine content ∧
        (main system [program, file]).success = true := by
  refine ⟨updateCrc32_append, fun system content chunkSize hsize hmmap => ?_, hexValue_hex8,
    fun system argv hout => ?_, fun system program file content hopen hmmap hpage => ?_⟩
  · obtain ⟨taken, rest, hsplit, hcrc, hoffset, _⟩ :=
      mapLoop_taken system content chunkSize 0 0xffffffff false
    have hend := mapLoop_complete hmmap content hsize 0 0xffffffff false
    rw [List.drop_zero] at hsplit
    have hrest : rest = [] := by
      have hlength := congrArg List.length hsplit
      rw [List.length_append] at hlength
      exact List.eq_nil_of_length_eq_zero (by omega)
    rw [hrest, List.append_nil] at hsplit
    rw [hcrc, ← hsplit]
    exact updateCrc32_crc32 content
  · rw [main] at hout ⊢
    split at hout
    · exact absurd rfl hout
    · next hargs =>
      rw [if_neg hargs]
      split at hout
      · exact absurd rfl hout
      · exact absurd rfl hout
      · next stat hopen =>
        obtain ⟨isRegular, content⟩ := stat
        cases isRegular with
        | false => exact absurd rfl hout
        | true =>
          refine ⟨content, hopen, ?_⟩
          exact (checkFile_cases system content).resolve_right fun hnone => hout hnone.1
  · rw [main, if_neg (by simp), show [program, file].getD 1 [] = file from rfl, hopen]
    exact checkFile_complete hmmap hpage content

/-- The check value of CRC-32: a file with the digits from 1 to 9. -/
theorem check_crc32_exact_digits :
    (main ⟨fun _ => some (some ⟨true, ascii "123456789"⟩), 4096, fun _ => false, fun _ => false,
      false⟩ [[], []]).stdout = ascii "cbf43926\n" :=
  (check_crc32_exact.2.2.2.2 ⟨fun _ => some (some ⟨true, ascii "123456789"⟩), 4096,
    fun _ => false, fun _ => false, false⟩ [] [] _ rfl (fun _ => rfl) (.inl (by decide))).1.trans
    (by decide +kernel)

end CourseWork.Crc
