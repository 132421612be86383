import CourseWork.Lib.Numeral
import Mathlib.Data.List.TakeWhile

/-!
# C library functions on bytes

`memchr`, `strtol` in base 10 on a 64-bit `long`, and NUL-terminated strings. A
pointer into a buffer is represented by the bytes from it to the end of the
buffer, and an offset from such a pointer by a natural number.
-/

namespace CLib

/-- The bytes of a buffer, or of the part of it that starts at a pointer. -/
abbrev Bytes := List UInt8

/-- The bytes of an ASCII literal. -/
def ascii (s : String) : Bytes := s.toList.map fun c => UInt8.ofNat c.toNat

/-- A literal by its characters, which spares its decoding. -/
theorem ascii_ofList (cs : List Char) :
    ascii (String.ofList cs) = cs.map fun c => UInt8.ofNat c.toNat := by
  rw [ascii, String.toList_ofList]

/-! ## Searching and NUL-terminated strings -/

/-- `memchr`: the offset of the first `c`, or `none` for NULL. -/
def memchr (c : UInt8) (s : Bytes) : Option Nat := s.findIdx? (· == c)

/-- The C string at a pointer: the bytes before the first NUL. -/
def cstr (s : Bytes) : Bytes := s.takeWhile (· != 0)

theorem memchr_append {c : UInt8} {t : Bytes} (r : Bytes) (h : c ∉ t) :
    memchr c (t ++ c :: r) = some t.length := by
  rw [memchr, List.findIdx?_eq_some_iff_getElem]
  refine ⟨by simp, by simp, fun j hj => ?_⟩
  rw [List.getElem_append_left hj]
  simp only [beq_iff_eq]
  intro he
  exact h (he ▸ List.getElem_mem hj)

/-- What follows the byte found. -/
theorem drop_delimiter (t : Bytes) (c : UInt8) (r : Bytes) :
    (t ++ c :: r).drop (t.length + 1) = r :=
  List.drop_length_add_append 1

theorem memchr_some {c : UInt8} {s : Bytes} {k : Nat} (h : memchr c s = some k) :
    ∃ t r, s = t ++ c :: r ∧ c ∉ t ∧ t.length = k := by
  rw [memchr, List.findIdx?_eq_some_iff_getElem] at h
  obtain ⟨hk, hc, hlt⟩ := h
  refine ⟨s.take k, s.drop (k + 1), ?_, ?_, by simp; omega⟩
  · have hc' : s[k] = c := by simpa using hc
    rw [← hc', List.getElem_cons_drop, List.take_append_drop]
  · intro hm
    obtain ⟨j, hj, he⟩ := List.getElem_of_mem hm
    have hjk : j < k := by simp at hj; omega
    have := hlt j hjk
    rw [List.getElem_take] at he
    simp [he] at this

/-- The offset of the first occurrence. -/
def search (needle : Bytes) : Bytes → Option Nat
  | [] => if needle = [] then some 0 else none
  | c :: s => if needle <+: c :: s then some 0 else (search needle s).map (· + 1)

/-- `strstr`: the offset of the first occurrence in a C string, or `none` for NULL. -/
def strstr (s needle : Bytes) : Option Nat := search needle (cstr s)

theorem search_le {needle s : Bytes} {k : Nat} (h : search needle s = some k) :
    k + needle.length ≤ s.length := by
  induction s generalizing k with
  | nil =>
    rw [search] at h
    split at h
    · next hnil =>
      cases h
      rw [hnil]
      rfl
    · cases h
  | cons c s ih =>
    rw [search] at h
    split at h
    · next hinitial =>
      cases h
      rw [Nat.zero_add]
      exact hinitial.length_le
    · obtain ⟨k', hk', rfl⟩ := Option.map_eq_some_iff.mp h
      have hle := ih hk'
      rw [List.length_cons]
      omega

/-- An occurrence is still the first one when the text goes on. -/
theorem search_append {needle s : Bytes} {k : Nat} (h : search needle s = some k) (t : Bytes) :
    search needle (s ++ t) = some k := by
  induction s generalizing k with
  | nil =>
    rw [search] at h
    split at h
    · next hnil =>
      cases h
      subst hnil
      cases t with
      | nil => rfl
      | cons c t => exact if_pos List.nil_prefix
    · cases h
  | cons c s ih =>
    rw [search] at h
    split at h
    · next hinitial =>
      cases h
      exact if_pos (hinitial.trans (List.prefix_append _ _))
    · next hinitial =>
      obtain ⟨k', hk', rfl⟩ := Option.map_eq_some_iff.mp h
      have hle := search_le hk'
      -- An earlier occurrence would end in the first text as well.
      have hnot : ¬needle <+: c :: (s ++ t) := fun hlong => hinitial <|
        List.prefix_of_prefix_length_le hlong (List.prefix_append (c :: s) t)
          (by rw [List.length_cons]; omega)
      rw [List.cons_append, search, if_neg hnot, ih hk', Option.map_some]

/-- What is searched for is found exactly if it occurs. -/
theorem search_isSome_iff {needle s : Bytes} : (search needle s).isSome ↔ needle <:+: s := by
  induction s with
  | nil =>
    rw [search, List.infix_nil]
    split
    · next hnil => exact iff_of_true rfl hnil
    · next hnil => exact iff_of_false Bool.false_ne_true hnil
  | cons c s ih =>
    rw [search, List.infix_cons_iff, ← ih]
    split
    · next hinitial => exact iff_of_true rfl (.inl hinitial)
    · next hinitial => rw [Option.isSome_map, or_iff_right hinitial]

theorem cstr_isPrefix (s : Bytes) : cstr s <+: s := List.takeWhile_prefix _

theorem not_mem_cstr (s : Bytes) : 0 ∉ cstr s := fun h =>
  absurd (List.mem_takeWhile_imp h) (by decide)

/-- A NUL ends the string. -/
theorem cstr_append_nul {s : Bytes} (h : 0 ∉ s) (t : Bytes) : cstr (s ++ 0 :: t) = s := by
  rw [cstr, List.takeWhile_append_of_pos, List.takeWhile_cons_of_neg (by decide), List.append_nil]
  intro c hc
  exact bne_iff_ne.mpr fun hnul => h (hnul ▸ hc)

theorem cstr_append_isPrefix (s t : Bytes) : cstr s <+: cstr (s ++ t) := by
  rw [cstr, cstr, List.takeWhile_append]
  split
  · next hall => exact (cstr_isPrefix s).trans (List.prefix_append _ _)
  · exact List.prefix_rfl

/-- Zeros behind the text make no difference. -/
theorem cstr_append_zeros (s : Bytes) (n : Nat) : cstr (s ++ List.replicate n 0) = cstr s := by
  have hzeros : (List.replicate n (0 : UInt8)).takeWhile (· != 0) = [] := by
    cases n with
    | zero => rfl
    | succ n => exact List.takeWhile_cons_of_neg (by decide)
  rw [cstr, cstr, List.takeWhile_append, hzeros, List.append_nil]
  split
  · next hall => exact ((List.takeWhile_prefix _).eq_of_length hall).symm
  · rfl

theorem strstr_append {needle s : Bytes} {k : Nat} (h : strstr s needle = some k) (t : Bytes) :
    strstr (s ++ t) needle = some k := by
  obtain ⟨rest, hrest⟩ := cstr_append_isPrefix s t
  rw [strstr, ← hrest]
  exact search_append h rest

/-! ## `strtol` -/

/-- `isspace` in the C locale. -/
def isSpace (c : UInt8) : Bool := c == 32 || (9 ≤ c && c ≤ 13)

def longMin : Int := -9223372036854775808
def longMax : Int := 9223372036854775807

/-- Out-of-range values saturate. -/
def clampLong (n : Int) : Int := if n < longMin then longMin else if longMax < n then longMax else n

/-- The factor and the length of an optional sign. -/
def sign (s : Bytes) : Int × Nat :=
  if s.head? = some 43 then (1, 1) else if s.head? = some 45 then (-1, 1) else (1, 0)

/-- `strtol (s, &endptr, 10)`: the value and the offset of `endptr`. Blanks and
a sign are skipped; without digits the value is `0` and `endptr` is `s`. -/
def strtol (s : Bytes) : Int × Nat :=
  let blanks := (s.takeWhile isSpace).length
  let sg := sign (s.drop blanks)
  let digits := (s.drop (blanks + sg.2)).takeWhile (Numeral.isDigit 10)
  if digits = [] then (0, 0)
  else (clampLong (sg.1 * Numeral.value 10 digits), blanks + sg.2 + digits.length)

theorem takeWhile_append_stop {p : UInt8 → Bool} {c : UInt8} (t r : Bytes) (hc : p c = false) :
    (t ++ c :: r).takeWhile p = t.takeWhile p := by
  induction t with
  | nil => simp [hc]
  | cons x t ih =>
    rw [List.cons_append, List.takeWhile_cons, List.takeWhile_cons, ih]

/-- A byte at which every part of `strtol` stops. -/
def Stops (c : UInt8) : Prop :=
  isSpace c = false ∧ c ≠ 43 ∧ c ≠ 45 ∧ Numeral.isDigit 10 c = false

instance (c : UInt8) : Decidable (Stops c) := by unfold Stops; infer_instance

theorem sign_append {c : UInt8} (t r : Bytes) (h : Stops c) : sign (t ++ c :: r) = sign t := by
  obtain ⟨_, h1, h2, _⟩ := h
  cases t with
  | nil => simp [sign, h1, h2]
  | cons x t => rfl

theorem sign_le (s : Bytes) : (sign s).2 ≤ s.length := by
  cases s with
  | nil => rfl
  | cons c s =>
    unfold sign
    split
    · simp
    · split <;> simp

/-- `strtol` does not look past a byte that cannot be part of a number. -/
theorem strtol_append {c : UInt8} (t r : Bytes) (h : Stops c) :
    strtol (t ++ c :: r) = strtol t := by
  have hb : (t.takeWhile isSpace).length ≤ t.length := (List.takeWhile_sublist _).length_le
  have hs : (sign (t.drop (t.takeWhile isSpace).length)).2 ≤
      t.length - (t.takeWhile isSpace).length := by
    simpa using sign_le (t.drop (t.takeWhile isSpace).length)
  unfold strtol
  simp only [takeWhile_append_stop t r h.1]
  rw [List.drop_append_of_le_length hb, sign_append _ _ h,
    List.drop_append_of_le_length (by omega), takeWhile_append_stop _ r h.2.2.2]

theorem not_isSpace_digit {c : UInt8} (h : Numeral.isDigit 10 c = true) : isSpace c = false := by
  obtain ⟨h1, h2⟩ := Numeral.isDigit_iff.mp h
  have h32 : c ≠ 32 := by
    rintro rfl
    exact absurd h1 (by decide)
  have h13 : ¬ c ≤ 13 := by
    rw [UInt8.le_iff_toNat_le]
    show ¬ c.toNat ≤ 13
    omega
  simp [isSpace, h32, h13]

theorem sign_digit {c : UInt8} (cs : Bytes) (h : Numeral.isDigit 10 c = true) :
    sign (c :: cs) = (1, 0) := by
  have h43 : c ≠ 43 := by
    rintro rfl
    exact absurd h (by decide)
  have h45 : c ≠ 45 := by
    rintro rfl
    exact absurd h (by decide)
  simp [sign, h43, h45]

theorem sign_minus (s : Bytes) : sign (45 :: s) = (-1, 1) := rfl

theorem takeWhile_digits {ds : Bytes} (hd : ∀ c ∈ ds, Numeral.isDigit 10 c = true) :
    ds.takeWhile (Numeral.isDigit 10) = ds := List.takeWhile_eq_self_iff.mpr hd

/-- On a plain digit string `strtol` reads all of it. -/
theorem strtol_digits {ds : Bytes} (hne : ds ≠ []) (hd : ∀ c ∈ ds, Numeral.isDigit 10 c = true) :
    strtol ds = (clampLong (Numeral.value 10 ds), ds.length) := by
  cases ds with
  | nil => exact absurd rfl hne
  | cons c cs =>
    have hc := hd c (by simp)
    have hb : (c :: cs).takeWhile isSpace = [] := by
      rw [List.takeWhile_cons, not_isSpace_digit hc]
      rfl
    simp only [strtol, hb, List.length_nil, List.drop_zero, sign_digit cs hc, Nat.add_zero,
      takeWhile_digits hd, if_neg hne, Int.one_mul, Nat.zero_add]

/-- On `-` and a digit string `strtol` reads all of it and negates. -/
theorem strtol_neg {ds : Bytes} (hne : ds ≠ []) (hd : ∀ c ∈ ds, Numeral.isDigit 10 c = true) :
    strtol (45 :: ds) = (clampLong (-(Numeral.value 10 ds : Int)), ds.length + 1) := by
  have hb : (45 :: ds).takeWhile isSpace = [] := by
    rw [List.takeWhile_cons]
    rfl
  simp only [strtol, hb, List.length_nil, List.drop_zero, sign_minus, Nat.zero_add,
    List.drop_succ_cons, takeWhile_digits hd, if_neg hne]
  rw [Int.neg_one_mul, Nat.add_comm]

theorem clampLong_eq {n : Int} (h1 : longMin ≤ n) (h2 : n ≤ longMax) : clampLong n = n := by
  unfold clampLong
  rw [if_neg (by omega), if_neg (by omega)]

theorem clampLong_bounds (n : Int) : longMin ≤ clampLong n ∧ clampLong n ≤ longMax := by
  have h : longMin ≤ longMax := by decide
  unfold clampLong
  split
  · exact ⟨Int.le_refl _, h⟩
  · split
    · exact ⟨h, Int.le_refl _⟩
    · omega

theorem strtol_bounds (s : Bytes) : longMin ≤ (strtol s).1 ∧ (strtol s).1 ≤ longMax := by
  unfold strtol
  simp only
  split
  · exact ⟨by decide, by decide⟩
  · exact clampLong_bounds _

/-! ## Byte order -/

/-- The 32-bit number that the first four bytes spell in network order. -/
def ntohl (s : Bytes) : UInt32 :=
  (s.take 4).foldl (fun n c => n * 256 + c.toUInt32) 0

/-- The four bytes of a 32-bit number in network order. -/
def htonl (n : UInt32) : Bytes :=
  [(n >>> 24).toUInt8, (n >>> 16).toUInt8, (n >>> 8).toUInt8, n.toUInt8]

/-- The four bytes of a number spell it. -/
theorem ntohl_htonl (n : UInt32) (s : Bytes) : ntohl (htonl n ++ s) = n := by
  apply UInt32.toNat_inj.mp
  have hn := n.toNat_lt
  simp only [ntohl, htonl, List.cons_append, List.nil_append, List.take_succ_cons, List.take_zero,
    List.foldl_cons, List.foldl_nil, UInt32.toNat_add, UInt32.toNat_mul, UInt8.toNat_toUInt32,
    UInt32.toNat_toUInt8, UInt32.toNat_shiftRight, UInt32.toNat_ofNat, Nat.shiftRight_eq_div_pow,
    Nat.reduceMod, Nat.reducePow, Nat.zero_mul, Nat.zero_mod, Nat.zero_add]
  omega

/-- Four bytes are spelled by their number. -/
theorem htonl_ntohl {s : Bytes} (h : 4 ≤ s.length) : htonl (ntohl s) = s.take 4 := by
  rcases s with _ | ⟨a, _ | ⟨b, _ | ⟨c, _ | ⟨d, rest⟩⟩⟩⟩
  iterate 4 exact absurd h (by simp)
  have ha := a.toNat_lt
  have hb := b.toNat_lt
  have hc := c.toNat_lt
  have hd := d.toNat_lt
  have hvalue : (ntohl (a :: b :: c :: d :: rest)).toNat =
      a.toNat * 2 ^ 24 + b.toNat * 2 ^ 16 + c.toNat * 2 ^ 8 + d.toNat := by
    simp only [ntohl, List.take_succ_cons, List.take_zero, List.foldl_cons, List.foldl_nil,
      UInt32.toNat_add, UInt32.toNat_mul, UInt8.toNat_toUInt32, UInt32.toNat_ofNat,
      Nat.reduceMod, Nat.reducePow, Nat.zero_mul, Nat.zero_mod, Nat.zero_add]
    omega
  have hbyte : ∀ (shift : UInt32) (x : UInt8),
      (ntohl (a :: b :: c :: d :: rest)).toNat / 2 ^ (shift.toNat % 32) % 256 = x.toNat →
      (ntohl (a :: b :: c :: d :: rest) >>> shift).toUInt8 = x := by
    intro shift x hx
    apply UInt8.toNat_inj.mp
    rw [UInt32.toNat_toUInt8, UInt32.toNat_shiftRight, Nat.shiftRight_eq_div_pow]
    exact hx
  have hlow : (ntohl (a :: b :: c :: d :: rest)).toUInt8 = d := by
    apply UInt8.toNat_inj.mp
    rw [UInt32.toNat_toUInt8, hvalue]
    omega
  rw [htonl, hbyte 24 a (by rw [hvalue]; show _ / 2 ^ 24 % 256 = _; omega),
    hbyte 16 b (by rw [hvalue]; show _ / 2 ^ 16 % 256 = _; omega),
    hbyte 8 c (by rw [hvalue]; show _ / 2 ^ 8 % 256 = _; omega), hlow]
  rfl

/-- The 16-bit number that the first two bytes spell in network order. -/
def ntohs (s : Bytes) : UInt16 :=
  (s.take 2).foldl (fun n c => n * 256 + c.toUInt16) 0

/-- The two bytes of a 16-bit number in network order. -/
def htons (n : UInt16) : Bytes := [(n >>> 8).toUInt8, n.toUInt8]

/-- Two bytes are spelled by their number. -/
theorem htons_ntohs {s : Bytes} (h : 2 ≤ s.length) : htons (ntohs s) = s.take 2 := by
  rcases s with _ | ⟨a, _ | ⟨b, rest⟩⟩
  iterate 2 exact absurd h (by simp)
  have ha := a.toNat_lt
  have hb := b.toNat_lt
  have hvalue : (ntohs (a :: b :: rest)).toNat = a.toNat * 2 ^ 8 + b.toNat := by
    simp only [ntohs, List.take_succ_cons, List.take_zero, List.foldl_cons, List.foldl_nil,
      UInt16.toNat_add, UInt16.toNat_mul, UInt8.toNat_toUInt16, UInt16.toNat_ofNat,
      Nat.reduceMod, Nat.reducePow, Nat.zero_mul, Nat.zero_mod, Nat.zero_add]
    omega
  have hhigh : (ntohs (a :: b :: rest) >>> 8).toUInt8 = a := by
    apply UInt8.toNat_inj.mp
    rw [UInt16.toNat_toUInt8, UInt16.toNat_shiftRight, Nat.shiftRight_eq_div_pow, hvalue]
    show _ / 2 ^ 8 % 256 = _
    omega
  have hlow : (ntohs (a :: b :: rest)).toUInt8 = b := by
    apply UInt8.toNat_inj.mp
    rw [UInt16.toNat_toUInt8, hvalue]
    omega
  rw [htons, hhigh, hlow]
  rfl

/-! ## Machine integers -/

/-- A sum that fits does not wrap. -/
theorem toNat_add_of_lt {a b : UInt64} (h : a.toNat + b.toNat < 2 ^ 64) :
    (a + b).toNat = a.toNat + b.toNat := by
  rw [UInt64.toNat_add]
  exact Nat.mod_eq_of_lt h

/-- `a > b ? a : b`. -/
theorem toNat_max (a b : UInt64) : (if a > b then a else b).toNat = max a.toNat b.toNat := by
  split
  · next h =>
    have := UInt64.lt_iff_toNat_lt.mp h
    omega
  · next h =>
    rw [gt_iff_lt, UInt64.lt_iff_toNat_lt] at h
    omega

/-- `a < b ? a : b`. -/
theorem toNat_min (a b : UInt64) : (if a < b then a else b).toNat = min a.toNat b.toNat := by
  split
  · next h =>
    have := UInt64.lt_iff_toNat_lt.mp h
    omega
  · next h =>
    rw [UInt64.lt_iff_toNat_lt] at h
    omega

end CLib
