import CourseWork.Lib.Stdio
import Mathlib.Algebra.Order.Field.Rat
import Mathlib.Tactic.NormNum

/-!
# `strtod` in exact arithmetic

The numbers that `strtod` finds in a text, as exact rationals, infinities and NaN, and when it
reports a range error. What `printf` prints for an integer is read back.
-/

namespace CLib

/-! ## Numbers -/

/-- A `double` in exact arithmetic. -/
inductive Number where
  | finite (value : ℚ)
  | infinity (negative : Bool)
  | nan
  deriving DecidableEq

namespace Number

def neg : Number → Number
  | finite q => finite (-q)
  | infinity negative => infinity !negative
  | nan => nan

def add : Number → Number → Number
  | finite p, finite q => finite (p + q)
  | finite _, infinity negative => infinity negative
  | infinity negative, finite _ => infinity negative
  | infinity negative, infinity negative' =>
    if negative = negative' then infinity negative else nan
  | nan, _ => nan
  | _, nan => nan

/-- An infinity times a number. -/
def scaleInfinity (negative : Bool) (q : ℚ) : Number :=
  if q = 0 then nan else infinity (negative ^^ decide (q < 0))

def mul : Number → Number → Number
  | finite p, finite q => finite (p * q)
  | finite p, infinity negative => scaleInfinity negative p
  | infinity negative, finite q => scaleInfinity negative q
  | infinity negative, infinity negative' => infinity (negative ^^ negative')
  | nan, _ => nan
  | _, nan => nan

/-- Division by a positive number. -/
def divNat : Number → Nat → Number
  | finite q, n => finite (q / n)
  | infinity negative, _ => infinity negative
  | nan, _ => nan

/-- `<`, which is false for NaN. -/
def lt : Number → Number → Bool
  | finite p, finite q => p < q
  | finite _, infinity negative => !negative
  | infinity negative, finite _ => negative
  | infinity negative, infinity negative' => negative && !negative'
  | nan, _ => false
  | _, nan => false

end Number

/-! ## Digits -/

/-- `tolower` for ASCII. -/
def toLower (c : UInt8) : UInt8 := if 65 ≤ c && c ≤ 90 then c + 32 else c

/-- A text starts with a word, in any case. -/
def startsWith (word s : Bytes) : Bool := (s.take word.length).map toLower = word

def isHexDigit (c : UInt8) : Bool := Numeral.isDigit 10 c || (97 ≤ toLower c && toLower c ≤ 102)

def hexDigitVal (c : UInt8) : Nat :=
  if Numeral.isDigit 10 c then Numeral.digitVal c else (toLower c).toNat - 87

/-- The value of hexadecimal digits. -/
def hexValue (ds : Bytes) : Nat := ds.foldl (fun acc c => acc * 16 + hexDigitVal c) 0

/-- Digits with an optional point: their value, the number of them behind the point, and their
length. -/
def mantissa (isDigit : UInt8 → Bool) (value : Bytes → Nat) (s : Bytes) :
    Option (Nat × Nat × Nat) :=
  let whole := s.takeWhile isDigit
  let rest := s.drop whole.length
  let fraction := if rest.head? = some 46 then (rest.drop 1).takeWhile isDigit else []
  let point := if rest.head? = some 46 then 1 else 0
  if whole = [] ∧ fraction = [] then none
  else some (value (whole ++ fraction), fraction.length, whole.length + point + fraction.length)

/-- An optional exponent behind a letter: its value and its length. -/
def exponent (letter : UInt8) (s : Bytes) : Int × Nat :=
  if s.head?.map toLower = some letter then
    let (factor, signLength) := sign (s.drop 1)
    let digits := (s.drop (1 + signLength)).takeWhile (Numeral.isDigit 10)
    if digits = [] then (0, 0)
    else (factor * Numeral.value 10 digits, 1 + signLength + digits.length)
  else (0, 0)

/-- A hexadecimal number behind `0x`. -/
def hexNumber (s : Bytes) : Option (ℚ × Nat) :=
  if startsWith (ascii "0x") s then
    (mantissa isHexDigit hexValue (s.drop 2)).map fun (digits, places, length) =>
      let (power, powerLength) := exponent 112 (s.drop (2 + length))
      ((digits : ℚ) * 2 ^ (power - 4 * places), 2 + length + powerLength)
  else none

/-- A decimal number. -/
def decimalNumber (s : Bytes) : Option (ℚ × Nat) :=
  (mantissa (Numeral.isDigit 10) (Numeral.value 10) s).map fun (digits, places, length) =>
    let (power, powerLength) := exponent 101 (s.drop length)
    ((digits : ℚ) * 10 ^ (power - places), length + powerLength)

/-! ## `strtod` -/

/-- The length of `(...)` behind `nan`. -/
def nanSuffix (s : Bytes) : Nat :=
  let chars := (s.drop 1).takeWhile fun c =>
    Numeral.isDigit 10 c || (97 ≤ toLower c && toLower c ≤ 122) || c == 95
  if s.head? = some 40 ∧ (s.drop (1 + chars.length)).head? = some 41 then chars.length + 2 else 0

/-- A number without a sign and its length. -/
def unsignedNumber (s : Bytes) : Option (Number × Nat) :=
  if startsWith (ascii "infinity") s then some (.infinity false, 8)
  else if startsWith (ascii "inf") s then some (.infinity false, 3)
  else if startsWith (ascii "nan") s then some (.nan, 3 + nanSuffix (s.drop 3))
  else ((hexNumber s).or (decimalNumber s)).map fun (value, length) => (.finite value, length)

/-- The nearest `double` would be an infinity. -/
def overflows (q : ℚ) : Bool := 2 ^ 1024 - 2 ^ 970 ≤ |q|

/-- The number is smaller than the normal `double`s, and none of the others. -/
def underflows (q : ℚ) : Bool :=
  q ≠ 0 ∧ |q| < 1 / 2 ^ 1022 - 1 / 2 ^ 1076 ∧ (q * 2 ^ 1074).den ≠ 1

/-- A number in its range, and whether `errno` is set to `ERANGE`. -/
def inRange : Number → Number × Bool
  | .finite q => if overflows q then (.infinity (q < 0), true) else (.finite q, underflows q)
  | value => (value, false)

/-- `strtod`: the value, the offset of `endptr`, and whether `errno` is set to `ERANGE`. -/
def strtod (s : Bytes) : Number × Nat × Bool :=
  let blanks := (s.takeWhile isSpace).length
  let (factor, signLength) := sign (s.drop blanks)
  match unsignedNumber (s.drop (blanks + signLength)) with
  | none => (.finite 0, 0, false)
  | some (value, length) =>
    let (value, erange) := inRange (if factor = -1 then value.neg else value)
    (value, blanks + signLength + length, erange)

/-! ## A number is in its text -/

section Lengths

variable {s : Bytes}

theorem startsWith_length_le {word : Bytes} (h : startsWith word s = true) :
    word.length ≤ s.length := by
  have heq := of_decide_eq_true h
  rw [← heq, List.length_map]
  exact List.length_take_le' _ _

/-- A byte at an offset is in front of the end. -/
theorem lt_length_of_head? {n : Nat} {c : UInt8} (h : (s.drop n).head? = some c) :
    n < s.length := by
  by_contra hle
  rw [List.drop_eq_nil_of_le (not_lt.mp hle)] at h
  cases h

theorem mantissa_length_le {isDigit : UInt8 → Bool} {value : Bytes → Nat}
    {digits places length : Nat} (h : mantissa isDigit value s = some (digits, places, length)) :
    length ≤ s.length := by
  have hwhole := (List.takeWhile_sublist (l := s) isDigit).length_le
  unfold mantissa at h
  dsimp only at h
  by_cases hpoint : (s.drop (s.takeWhile isDigit).length).head? = some 46
  · have hlt := lt_length_of_head? hpoint
    have hfraction := (List.takeWhile_sublist
      (l := s.drop ((s.takeWhile isDigit).length + 1)) isDigit).length_le
    rw [List.length_drop] at hfraction
    rw [if_pos hpoint, if_pos hpoint, List.drop_drop] at h
    split at h
    · cases h
    · obtain ⟨-, hrest⟩ := Prod.mk.inj (Option.some.inj h)
      obtain ⟨-, hlength⟩ := Prod.mk.inj hrest
      omega
  · rw [if_neg hpoint, if_neg hpoint] at h
    split at h
    · cases h
    · obtain ⟨-, hrest⟩ := Prod.mk.inj (Option.some.inj h)
      obtain ⟨-, hlength⟩ := Prod.mk.inj hrest
      rw [List.length_nil] at hlength
      omega

theorem exponent_length_le (letter : UInt8) (s : Bytes) : (exponent letter s).2 ≤ s.length := by
  unfold exponent
  split
  · dsimp only
    split
    · exact Nat.zero_le _
    · next hne =>
      have hdigits := (List.takeWhile_sublist (l := s.drop (1 + (sign (s.drop 1)).2))
        (Numeral.isDigit 10)).length_le
      have hpos := List.length_pos_of_ne_nil hne
      rw [List.length_drop] at hdigits
      dsimp only
      omega
  · exact Nat.zero_le _

theorem nanSuffix_le (s : Bytes) : nanSuffix s ≤ s.length := by
  unfold nanSuffix
  dsimp only
  split
  · next h =>
    have hlt := lt_length_of_head? h.2
    omega
  · exact Nat.zero_le _

theorem hexNumber_length_le {value : ℚ} {length : Nat} (h : hexNumber s = some (value, length)) :
    length ≤ s.length := by
  unfold hexNumber at h
  split at h
  · next hstart =>
    have htwo : 2 ≤ s.length := startsWith_length_le hstart
    obtain ⟨⟨digits, places, read⟩, hmantissa, heq⟩ := Option.map_eq_some_iff.mp h
    have hread := mantissa_length_le hmantissa
    have hpower := exponent_length_le 112 (s.drop (2 + read))
    have hlength : 2 + read + (exponent 112 (s.drop (2 + read))).2 = length :=
      congrArg Prod.snd heq
    rw [List.length_drop] at hread hpower
    omega
  · cases h

theorem decimalNumber_length_le {value : ℚ} {length : Nat}
    (h : decimalNumber s = some (value, length)) : length ≤ s.length := by
  obtain ⟨⟨digits, places, read⟩, hmantissa, heq⟩ := Option.map_eq_some_iff.mp h
  have hread := mantissa_length_le hmantissa
  have hpower := exponent_length_le 101 (s.drop read)
  have hlength : read + (exponent 101 (s.drop read)).2 = length := congrArg Prod.snd heq
  rw [List.length_drop] at hpower
  omega

theorem unsignedNumber_length_le {value : Number} {length : Nat}
    (h : unsignedNumber s = some (value, length)) : length ≤ s.length := by
  unfold unsignedNumber at h
  split_ifs at h with hinfinity hinf hnan
  · cases h
    exact startsWith_length_le hinfinity
  · cases h
    exact startsWith_length_le hinf
  · cases h
    have hthree : 3 ≤ s.length := startsWith_length_le hnan
    have hsuffix := nanSuffix_le (s.drop 3)
    rw [List.length_drop] at hsuffix
    omega
  · obtain ⟨⟨q, read⟩, hnumber, heq⟩ := Option.map_eq_some_iff.mp h
    cases heq
    rcases Option.or_eq_some_iff.mp hnumber with hhex | ⟨-, hdecimal⟩
    · exact hexNumber_length_le hhex
    · exact decimalNumber_length_le hdecimal

/-- `endptr` is in the text. -/
theorem strtod_length_le (s : Bytes) : (strtod s).2.1 ≤ s.length := by
  have hblanks := (List.takeWhile_sublist (l := s) isSpace).length_le
  have hsign := sign_le (s.drop (s.takeWhile isSpace).length)
  rw [List.length_drop] at hsign
  unfold strtod
  dsimp only
  split
  · exact Nat.zero_le _
  · next value length hnumber =>
    have hlength := unsignedNumber_length_le hnumber
    rw [List.length_drop] at hlength
    dsimp only
    omega

end Lengths

/-! ## What was printed is read back -/

/-- No number is found in blanks. -/
theorem strtod_blank {s : Bytes} (h : ∀ c ∈ s, isSpace c = true) :
    strtod s = (.finite 0, 0, false) := by
  have hblanks : s.takeWhile isSpace = s := List.takeWhile_eq_self_iff.mpr h
  have hnone : unsignedNumber [] = none := by decide
  unfold strtod
  simp only [hblanks, List.drop_length]
  rw [List.drop_eq_nil_of_le (Nat.le_add_right _ _), hnone]

section Digits

variable {ds : Bytes} {c : UInt8}

theorem toLower_digit (h : Numeral.isDigit 10 c = true) : toLower c = c := by
  obtain ⟨-, hlt⟩ := Numeral.isDigit_iff.mp h
  have hsmall : ¬65 ≤ c := by
    rw [UInt8.le_iff_toNat_le]
    exact Nat.not_le.mpr (Nat.lt_of_lt_of_le hlt (by decide : 58 ≤ 65))
  rw [toLower, decide_eq_false hsmall]
  rfl

/-- Digits do not start with a word that has a letter in it. -/
theorem startsWith_digits {word : Bytes} (hd : ∀ c ∈ ds, Numeral.isDigit 10 c = true)
    (hc : c ∈ word) (hletter : Numeral.isDigit 10 c = false) : startsWith word ds = false := by
  refine decide_eq_false fun heq => ?_
  rw [← heq] at hc
  obtain ⟨d, hmem, rfl⟩ := List.mem_map.mp hc
  have hdigit := hd d (List.mem_of_mem_take hmem)
  rw [toLower_digit hdigit, hdigit] at hletter
  cases hletter

theorem decimalNumber_digits (hd : ∀ c ∈ ds, Numeral.isDigit 10 c = true) (hne : ds ≠ []) :
    decimalNumber ds = some ((Numeral.value 10 ds : ℚ), ds.length) := by
  have hmantissa : mantissa (Numeral.isDigit 10) (Numeral.value 10) ds =
      some (Numeral.value 10 ds, 0, ds.length) := by
    simp [mantissa, takeWhile_digits hd, hne]
  rw [decimalNumber, hmantissa]
  simp [exponent]

theorem unsignedNumber_digits (hd : ∀ c ∈ ds, Numeral.isDigit 10 c = true) (hne : ds ≠ []) :
    unsignedNumber ds = some (.finite (Numeral.value 10 ds), ds.length) := by
  have hinfinity := startsWith_digits hd (by decide : 105 ∈ ascii "infinity") (by decide)
  have hinf := startsWith_digits hd (by decide : 105 ∈ ascii "inf") (by decide)
  have hnan := startsWith_digits hd (by decide : 97 ∈ ascii "nan") (by decide)
  have hhex := startsWith_digits hd (by decide : 120 ∈ ascii "0x") (by decide)
  rw [unsignedNumber, hinfinity, hinf, hnan, hexNumber, hhex, decimalNumber_digits hd hne]
  rfl

end Digits

/-- Small integers are in the range of `double`. -/
theorem not_overflows {q : ℚ} (h : |q| ≤ 2 ^ 63) : overflows q = false := by
  have hbig : (2 : ℚ) ^ 63 < 2 ^ 970 := pow_lt_pow_right₀ (by norm_num) (by norm_num)
  have hsplit : (2 : ℚ) ^ 1024 = 2 ^ 970 * 2 ^ 54 := by rw [← pow_add]
  refine decide_eq_false (not_le.mpr (lt_of_le_of_lt h ?_))
  rw [hsplit]
  generalize (2 : ℚ) ^ 970 = x at hbig
  norm_num at hbig ⊢
  linarith

/-- Integers are `double`s as far as small numbers matter. -/
theorem not_underflows (n : Int) : underflows n = false := by
  have hcast : (n : ℚ) * 2 ^ 1074 = ((n * 2 ^ 1074 : Int) : ℚ) := by
    rw [Int.cast_mul, Int.cast_pow]
    rfl
  refine decide_eq_false fun hsmall => hsmall.2.2 ?_
  rw [hcast, Rat.den_intCast]

theorem inRange_intCast {n : Int} (h : |n| ≤ 2 ^ 63) :
    inRange (.finite n) = (.finite n, false) := by
  have habs : |(n : ℚ)| ≤ 2 ^ 63 := by exact_mod_cast h
  rw [inRange, not_overflows habs, not_underflows]
  rfl

/-- `strtod` reads a printed integer back. -/
theorem strtod_printInt {n : Int} (h : |n| ≤ 2 ^ 63) :
    strtod (printInt n) = (.finite n, (printInt n).length, false) := by
  have hdigits := isDigit_print (n := n.natAbs)
  have hne : Numeral.print 10 n.natAbs ≠ [] := Numeral.print_ne_nil _
  have hnumber := unsignedNumber_digits hdigits hne
  rw [Numeral.value_print (by decide) (by decide)] at hnumber
  have hblanks := takeWhile_printInt n []
  rw [List.append_nil] at hblanks
  have hrange := inRange_intCast h
  unfold strtod
  unfold printInt at hblanks ⊢
  split at hblanks
  · next hneg =>
    have hvalue : (Number.finite (n.natAbs : ℚ)).neg = .finite n := by
      rw [Number.neg, Nat.cast_natAbs, abs_of_neg hneg, Int.cast_neg, neg_neg]
    rw [if_pos hneg]
    simp only [hblanks, List.length_nil, List.drop_zero, sign_minus, Nat.zero_add,
      List.drop_succ_cons, hnumber, if_pos, hvalue, hrange, List.length_cons]
    rw [Nat.add_comm]
  · next hneg =>
    have hvalue : Number.finite (n.natAbs : ℚ) = .finite n := by
      rw [Nat.cast_natAbs, abs_of_nonneg (not_lt.mp hneg)]
    have hsign := sign_print n.natAbs []
    rw [List.append_nil] at hsign
    have hone : ¬(1 : Int) = -1 := by decide
    rw [if_neg hneg]
    simp only [hblanks, List.length_nil, List.drop_zero, hsign, Nat.zero_add, hnumber, if_neg hone,
      hvalue, hrange]

end CLib
