import Mathlib.Data.Nat.Digits.Lemmas

/-!
# ASCII numerals

Naturals written as ASCII digits in a base `2 ≤ b ≤ 10`, and the value of a
digit string read back. A digit string without a leading zero is the numeral of
its value (`print_value`), so numerals and values determine each other.
-/

namespace Numeral

/-! ## Digits -/

/-- The ASCII byte of the digit `d`. -/
def digitByte (d : Nat) : UInt8 := UInt8.ofNat (48 + d)

/-- `c` is an ASCII digit of base `b`. -/
def isDigit (b : Nat) (c : UInt8) : Bool := 48 ≤ c.toNat && c.toNat < 48 + b

/-- The number a digit byte stands for. -/
def digitVal (c : UInt8) : Nat := c.toNat - 48

theorem isDigit_iff {b : Nat} {c : UInt8} :
    isDigit b c = true ↔ 48 ≤ c.toNat ∧ c.toNat < 48 + b := by
  simp [isDigit]

theorem toNat_digitByte {d : Nat} (h : d < 10) : (digitByte d).toNat = 48 + d := by
  simp only [digitByte, UInt8.toNat_ofNat']
  omega

theorem digitVal_digitByte {d : Nat} (h : d < 10) : digitVal (digitByte d) = d := by
  rw [digitVal, toNat_digitByte h]
  omega

theorem isDigit_digitByte {b d : Nat} (hd : d < b) (hb : b ≤ 10) :
    isDigit b (digitByte d) = true := by
  rw [isDigit_iff, toNat_digitByte (by omega)]
  omega

theorem digitByte_digitVal {b : Nat} {c : UInt8} (hb : b ≤ 10) (h : isDigit b c = true) :
    digitByte (digitVal c) = c := by
  obtain ⟨h1, h2⟩ := isDigit_iff.mp h
  apply UInt8.toNat_inj.mp
  rw [toNat_digitByte (by unfold digitVal; omega), digitVal]
  omega

theorem digitVal_lt {b : Nat} {c : UInt8} (h : isDigit b c = true) : digitVal c < b := by
  obtain ⟨h1, h2⟩ := isDigit_iff.mp h
  unfold digitVal
  omega

theorem digitVal_eq_zero {b : Nat} {c : UInt8} (h : isDigit b c = true) :
    digitVal c = 0 ↔ c = 48 := by
  obtain ⟨h1, _⟩ := isDigit_iff.mp h
  rw [← UInt8.toNat_inj]
  show c.toNat - 48 = 0 ↔ c.toNat = 48
  omega

/-! ## Numerals and their values -/

/-- The value of a digit string, most significant digit first. -/
def value (b : Nat) (ds : List UInt8) : Nat := ds.foldl (fun acc c => acc * b + digitVal c) 0

/-- The numeral of `n` in base `b`, without leading zeros. -/
def print (b n : Nat) : List UInt8 :=
  if n = 0 then [48] else (Nat.digits b n).reverse.map digitByte

/-- The numeral of `n` padded with zeros on the left to at least `w` digits. -/
def padded (b w n : Nat) : List UInt8 :=
  List.replicate (w - (print b n).length) 48 ++ print b n

/-- A digit string is canonical when it is non-empty and has no superfluous leading zero. -/
def Canonical (ds : List UInt8) : Prop := ds = [48] ∨ ∃ c cs, ds = c :: cs ∧ c ≠ 48

theorem value_eq_ofDigits (b : Nat) (ds : List UInt8) :
    value b ds = Nat.ofDigits b (ds.reverse.map digitVal) := by
  rw [Nat.ofDigits_eq_foldr, List.map_reverse, List.foldr_reverse, List.foldl_map, value]
  congr 1
  funext acc c
  simp [Nat.mul_comm, Nat.add_comm]

theorem value_append (b : Nat) (ds es : List UInt8) :
    value b (ds ++ es) = value b ds * b ^ es.length + value b es := by
  simp only [value_eq_ofDigits, List.reverse_append, List.map_append, Nat.ofDigits_append,
    List.length_map, List.length_reverse]
  rw [Nat.mul_comm, Nat.add_comm]

theorem value_cons (b : Nat) (c : UInt8) (ds : List UInt8) :
    value b (c :: ds) = digitVal c * b ^ ds.length + value b ds := by
  have h := value_append b [c] ds
  simpa [value] using h

@[simp] theorem value_replicate_zero (b k : Nat) : value b (List.replicate k 48) = 0 := by
  induction k with
  | zero => rfl
  | succ k ih =>
    rw [List.replicate_succ, value_cons, ih]
    show 0 * _ + 0 = 0
    omega

@[simp] theorem value_zero (b : Nat) : value b [48] = 0 := value_replicate_zero b 1

section Base

variable {b : Nat}

theorem digits_lt_ten (h2 : 2 ≤ b) (h10 : b ≤ 10) {n d : Nat} (h : d ∈ Nat.digits b n) :
    d < 10 := by
  have := Nat.digits_lt_base (by omega : 1 < b) h
  omega

theorem map_digitVal_digitByte (h2 : 2 ≤ b) (h10 : b ≤ 10) (n : Nat) :
    (Nat.digits b n).map (digitVal ∘ digitByte) = Nat.digits b n := by
  conv_rhs => rw [← List.map_id (Nat.digits b n)]
  apply List.map_congr_left
  intro d hd
  exact digitVal_digitByte (digits_lt_ten h2 h10 hd)

/-- Reading a numeral back gives the number. -/
theorem value_print (h2 : 2 ≤ b) (h10 : b ≤ 10) (n : Nat) : value b (print b n) = n := by
  unfold print
  split
  · next h => rw [h, value_zero]
  · rw [value_eq_ofDigits, ← List.map_reverse, List.reverse_reverse, List.map_map,
      map_digitVal_digitByte h2 h10, Nat.ofDigits_digits]

theorem print_ne_nil (n : Nat) : print b n ≠ [] := by
  unfold print
  split
  · simp
  · next h => simpa using Nat.digits_ne_nil_iff_ne_zero.mpr h

theorem isDigit_of_mem_print (h2 : 2 ≤ b) (h10 : b ≤ 10) {n : Nat} {c : UInt8}
    (h : c ∈ print b n) : isDigit b c = true := by
  unfold print at h
  split at h
  · rw [List.mem_singleton] at h
    subst h
    exact isDigit_iff.mpr ⟨Nat.le_refl _, by show 48 < 48 + b; omega⟩
  · simp only [List.mem_map, List.mem_reverse] at h
    obtain ⟨d, hd, rfl⟩ := h
    exact isDigit_digitByte (Nat.digits_lt_base (by omega) hd) h10

theorem canonical_print (h2 : 2 ≤ b) (h10 : b ≤ 10) (n : Nat) : Canonical (print b n) := by
  unfold print
  split
  · exact Or.inl rfl
  · next h =>
    have hne := Nat.digits_ne_nil_iff_ne_zero (b := b).mpr h
    have hlast := Nat.getLast_digit_ne_zero b h
    right
    refine ⟨digitByte ((Nat.digits b n).getLast hne), ((Nat.digits b n).reverse.tail).map digitByte,
      ?_, ?_⟩
    · rw [← List.map_cons, ← List.head_reverse (by simpa using hne), List.cons_head_tail]
    · intro heq
      have h10' := digits_lt_ten h2 h10 (List.getLast_mem hne)
      have := congrArg UInt8.toNat heq
      rw [toNat_digitByte h10'] at this
      have h48 : (48 : UInt8).toNat = 48 := rfl
      omega

/-- A canonical digit string is the numeral of its value. -/
theorem print_value (h2 : 2 ≤ b) (h10 : b ≤ 10) {ds : List UInt8}
    (hd : ∀ c ∈ ds, isDigit b c = true) (hc : Canonical ds) : print b (value b ds) = ds := by
  rcases hc with rfl | ⟨c, cs, rfl, hne⟩
  · rw [value_zero, print, if_pos rfl]
  · have hc0 : digitVal c ≠ 0 := fun h => hne ((digitVal_eq_zero (hd c (by simp))).mp h)
    have hpos : value b (c :: cs) ≠ 0 := by
      rw [value_cons]
      have : 0 < digitVal c * b ^ cs.length :=
        Nat.mul_pos (Nat.pos_of_ne_zero hc0) (Nat.pow_pos (by omega))
      omega
    have hdigits : Nat.digits b (value b (c :: cs)) = (c :: cs).reverse.map digitVal := by
      rw [value_eq_ofDigits]
      apply Nat.digits_ofDigits b (by omega)
      · intro d hmem
        simp only [List.mem_map, List.mem_reverse] at hmem
        obtain ⟨x, hx, rfl⟩ := hmem
        exact digitVal_lt (hd x hx)
      · intro hnil
        simpa [List.reverse_cons] using hc0
    rw [print, if_neg hpos, hdigits, ← List.map_reverse, List.reverse_reverse, List.map_map]
    conv_rhs => rw [← List.map_id (c :: cs)]
    apply List.map_congr_left
    intro x hx
    exact digitByte_digitVal h10 (hd x hx)

theorem length_print_le (h2 : 2 ≤ b) {n w : Nat} (hw : 0 < w) (h : n < b ^ w) :
    (print b n).length ≤ w := by
  unfold print
  split
  · exact hw
  · rw [List.length_map, List.length_reverse]
    exact (Nat.digits_length_le_iff (by omega) n).mpr h

theorem value_padded (h2 : 2 ≤ b) (h10 : b ≤ 10) (w n : Nat) : value b (padded b w n) = n := by
  rw [padded, value_append, value_replicate_zero, value_print h2 h10]
  omega

theorem isDigit_of_mem_padded (h2 : 2 ≤ b) (h10 : b ≤ 10) {w n : Nat} {c : UInt8}
    (h : c ∈ padded b w n) : isDigit b c = true := by
  rw [padded, List.mem_append, List.mem_replicate] at h
  rcases h with ⟨_, rfl⟩ | h
  · exact isDigit_iff.mpr ⟨Nat.le_refl _, by show 48 < 48 + b; omega⟩
  · exact isDigit_of_mem_print h2 h10 h

end Base

example : print 10 1234 = [49, 50, 51, 52] := by decide

end Numeral
