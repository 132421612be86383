import CourseWork.Lib.CLib

/-!
# `unicode_to_utf8`

The UTF-8 encoder of the converter against the standard decoding of UTF-8, on lists of Unicode
scalar values.
-/

namespace CourseWork.Encodings
open CLib

/-- `unicode_to_utf8`: the bytes that it writes to `utf8`; it returns their number, and -1
for `none`. -/
def unicodeToUtf8 (codepoint : UInt32) : Option Bytes :=
  if codepoint < 0x80 then some [codepoint.toUInt8]
  else if codepoint < 0x800 then
    some [((0xC0 : UInt32) ||| (codepoint >>> 6)).toUInt8,
      ((0x80 : UInt32) ||| (codepoint &&& 0x3F)).toUInt8]
  else if codepoint < 0x10000 then
    some [((0xE0 : UInt32) ||| (codepoint >>> 12)).toUInt8,
      ((0x80 : UInt32) ||| ((codepoint >>> 6) &&& 0x3F)).toUInt8,
      ((0x80 : UInt32) ||| (codepoint &&& 0x3F)).toUInt8]
  else if codepoint < 0x200000 then
    some [((0xF0 : UInt32) ||| (codepoint >>> 21)).toUInt8,
      ((0x80 : UInt32) ||| ((codepoint >>> 12) &&& 0x3F)).toUInt8,
      ((0x80 : UInt32) ||| ((codepoint >>> 6) &&& 0x3F)).toUInt8,
      ((0x80 : UInt32) ||| (codepoint &&& 0x3F)).toUInt8]
  else none

/-- What the loop behind a call writes to the file. -/
def utf8Bytes (codepoint : UInt32) : Bytes := (unicodeToUtf8 codepoint).getD []

/-! ## Decoding -/

/-- The bytes that decode to a list of characters are their encodings. -/
theorem utf8Decode_eq_some_iff {bytes : Bytes} {cs : List Char} :
    bytes.toByteArray.utf8Decode? = some cs.toArray ↔ bytes = cs.flatMap String.utf8EncodeChar := by
  constructor
  · intro h
    have hencode := ByteArray.utf8Encode_get_utf8Decode? (b := bytes.toByteArray) (h := by
      rw [h]
      rfl)
    simp only [h, Option.get_some] at hencode
    exact (List.toByteArray_inj.mp hencode).symm
  · rintro rfl
    exact List.utf8Decode?_utf8Encode

/-- Two encoders that write equally many bytes for each character write the same for a list
exactly if they do for each of its characters. -/
theorem flatMap_eq_flatMap_iff {f g : Char → Bytes} (h : ∀ c, (f c).length = (g c).length)
    (cs : List Char) : cs.flatMap f = cs.flatMap g ↔ ∀ c ∈ cs, f c = g c := by
  induction cs with
  | nil => exact iff_of_true rfl (List.forall_mem_nil _)
  | cons c cs ih =>
    rw [List.flatMap_cons, List.flatMap_cons, List.forall_mem_cons, ← ih]
    exact ⟨fun heq => List.append_inj heq (h c), fun ⟨hc, hcs⟩ => by rw [hc, hcs]⟩

/-! ## Single characters -/

/-- A marker over low bits. -/
theorem toUInt8_or (mark x : UInt32) (k m : Nat) (hmark : mark.toNat = 2 ^ k * m)
    (hx : x.toNat < 2 ^ k) : (mark ||| x).toUInt8 = UInt8.ofNat (x.toNat + mark.toNat) := by
  apply UInt8.toNat_inj.mp
  rw [UInt32.toNat_toUInt8, UInt32.toNat_or, UInt8.toNat_ofNat', hmark,
    ← Nat.two_pow_add_eq_or_of_lt hx m, Nat.add_comm]

theorem toNat_shiftRight {v : UInt32} {k : UInt32} (hk : k.toNat < 32) :
    (v >>> k).toNat = v.toNat / 2 ^ k.toNat := by
  rw [UInt32.toNat_shiftRight, Nat.mod_eq_of_lt hk, Nat.shiftRight_eq_div_pow]

/-- A continuation byte. -/
theorem continuation (v : UInt32) :
    ((0x80 : UInt32) ||| (v &&& 0x3F)).toUInt8 = UInt8.ofNat (v.toNat % 0x40 + 0x80) := by
  have hlow : (v &&& 0x3F).toNat = v.toNat % 0x40 := by
    rw [UInt32.toNat_and]
    exact Nat.and_two_pow_sub_one_eq_mod v.toNat 6
  rw [toUInt8_or _ _ 6 2 rfl (by omega), hlow]
  rfl

section Characters

variable {c : Char}

theorem toNat_lt_max (c : Char) : c.val.toNat < 0x110000 := by
  rcases c.valid with h | h
  · exact Nat.lt_trans h (by decide)
  · exact h.2

/-- The encoder by classes, in numbers. -/
theorem utf8Bytes_eq (c : Char) : utf8Bytes c.val =
    let v := c.val.toNat
    if v < 0x80 then [UInt8.ofNat v]
    else if v < 0x800 then [UInt8.ofNat (v / 64 + 0xc0), UInt8.ofNat (v % 0x40 + 0x80)]
    else if v < 0x10000 then
      [UInt8.ofNat (v / 4096 + 0xe0), UInt8.ofNat (v / 64 % 0x40 + 0x80),
        UInt8.ofNat (v % 0x40 + 0x80)]
    else
      [UInt8.ofNat 0xf0, UInt8.ofNat (v / 4096 % 0x40 + 0x80),
        UInt8.ofNat (v / 64 % 0x40 + 0x80), UInt8.ofNat (v % 0x40 + 0x80)] := by
  have hmax := toNat_lt_max c
  have h6 : (c.val >>> 6).toNat = c.val.toNat / 64 := toNat_shiftRight (by decide)
  have h12 : (c.val >>> 12).toNat = c.val.toNat / 4096 := toNat_shiftRight (by decide)
  have h21 : (c.val >>> 21).toNat = c.val.toNat / 2097152 := toNat_shiftRight (by decide)
  unfold utf8Bytes unicodeToUtf8
  simp only [UInt32.lt_iff_toNat_lt, UInt32.reduceToNat, continuation, h6, h12]
  by_cases h1 : c.val.toNat < 0x80
  · simp only [if_pos h1, Option.getD_some]
    rfl
  · simp only [if_neg h1]
    by_cases h2 : c.val.toNat < 0x800
    · have hlead := toUInt8_or 0xC0 (c.val >>> 6) 6 3 rfl (by omega)
      simp only [if_pos h2, Option.getD_some, hlead, h6]
      rfl
    · simp only [if_neg h2]
      by_cases h3 : c.val.toNat < 0x10000
      · have hlead := toUInt8_or 0xE0 (c.val >>> 12) 4 14 rfl (by omega)
        simp only [if_pos h3, Option.getD_some, hlead, h12]
        rfl
      · have hlead := toUInt8_or 0xF0 (c.val >>> 21) 3 30 rfl (by omega)
        have hzero : c.val.toNat / 2097152 = 0 := Nat.div_eq_of_lt (by omega)
        have h4 : c.val.toNat < 0x200000 := by omega
        simp only [if_neg h3, if_pos h4, Option.getD_some, hlead, h21, hzero]
        rfl

/-- The standard encoding, with the bounds of the encoder. -/
theorem utf8EncodeChar_eq (c : Char) : String.utf8EncodeChar c =
    let v := c.val.toNat
    if v < 0x80 then [UInt8.ofNat v]
    else if v < 0x800 then [UInt8.ofNat (v / 64 + 0xc0), UInt8.ofNat (v % 0x40 + 0x80)]
    else if v < 0x10000 then
      [UInt8.ofNat (v / 4096 + 0xe0), UInt8.ofNat (v / 64 % 0x40 + 0x80),
        UInt8.ofNat (v % 0x40 + 0x80)]
    else
      [UInt8.ofNat (v / 262144 + 0xf0), UInt8.ofNat (v / 4096 % 0x40 + 0x80),
        UInt8.ofNat (v / 64 % 0x40 + 0x80), UInt8.ofNat (v % 0x40 + 0x80)] := by
  have hmax := toNat_lt_max c
  unfold String.utf8EncodeChar
  dsimp only
  have h5 : c.val.toNat < 0x800 → c.val.toNat / 64 % 0x20 = c.val.toNat / 64 := fun h =>
    Nat.mod_eq_of_lt (by omega)
  have h4 : c.val.toNat < 0x10000 → c.val.toNat / 4096 % 0x10 = c.val.toNat / 4096 := fun h =>
    Nat.mod_eq_of_lt (by omega)
  have h3 : c.val.toNat / 262144 % 0x08 = c.val.toNat / 262144 := Nat.mod_eq_of_lt (by omega)
  refine if_congr Nat.lt_succ_iff.symm rfl ?_
  by_cases h : c.val.toNat < 0x800
  · rw [if_pos h, if_pos (Nat.le_of_lt_succ h), h5 h]
  · rw [if_neg h, if_neg fun hle => h (Nat.lt_succ_of_le hle)]
    by_cases h' : c.val.toNat < 0x10000
    · rw [if_pos h', if_pos (Nat.le_of_lt_succ h'), h4 h']
    · rw [if_neg h', if_neg fun hle => h' (Nat.lt_succ_of_le hle), h3]

theorem length_utf8Bytes (c : Char) :
    (utf8Bytes c.val).length = (String.utf8EncodeChar c).length := by
  rw [utf8Bytes_eq, utf8EncodeChar_eq]
  dsimp only
  split
  · rfl
  · split
    · rfl
    · split
      · rfl
      · rfl

/-- The first of four bytes lacks the bits from `0x40000` on. -/
theorem utf8Bytes_eq_iff (c : Char) :
    utf8Bytes c.val = String.utf8EncodeChar c ↔ c.val.toNat < 0x40000 := by
  have hmax := toNat_lt_max c
  rw [utf8Bytes_eq, utf8EncodeChar_eq]
  dsimp only
  split
  · exact iff_of_true rfl (by omega)
  · split
    · exact iff_of_true rfl (by omega)
    · split
      · exact iff_of_true rfl (by omega)
      · rw [List.cons.injEq, and_iff_left rfl, ← UInt8.toNat_inj, UInt8.toNat_ofNat',
          UInt8.toNat_ofNat']
        omega

end Characters

/-- The bytes for a list of Unicode scalar values decode to that list exactly if all of them
are below `0x40000`. -/
theorem utf8_round_trip_iff (cs : List Char) :
    (cs.flatMap fun c => utf8Bytes c.val).toByteArray.utf8Decode? = some cs.toArray ↔
      ∀ c ∈ cs, c.val.toNat < 0x40000 := by
  rw [utf8Decode_eq_some_iff, flatMap_eq_flatMap_iff length_utf8Bytes]
  exact forall₂_congr fun c _ => utf8Bytes_eq_iff c

/-- `U+40000` is written as `F0 80 80 80`. -/
theorem utf8_loses_bits :
    ([Char.ofNat 0x40000].flatMap fun c => utf8Bytes c.val) = [0xF0, 0x80, 0x80, 0x80] ∧
    ([Char.ofNat 0x40000].flatMap fun c => utf8Bytes c.val).toByteArray.utf8Decode? ≠
      some [Char.ofNat 0x40000].toArray := by
  refine ⟨by decide, ?_⟩
  rw [ne_eq, utf8Decode_eq_some_iff, flatMap_eq_flatMap_iff length_utf8Bytes,
    List.forall_mem_singleton, utf8Bytes_eq_iff]
  decide

end CourseWork.Encodings
