import Mathlib.Logic.Function.Iterate

/-!
# Reflected cyclic redundancy checks

The check of a message bit by bit, with the bits of the remainder in reverse order, and the
same check byte by byte with a table. Moving the remainder on by a bit is linear in the
exclusive or, so eight such moves are those of its low byte, which the table has, and a
shift of the others.
-/

namespace Crc

variable {w : Nat}

/-! ## Bit by bit -/

/-- The remainder moved on by one bit. -/
def shift (poly r : BitVec w) : BitVec w := if r.getLsbD 0 then r >>> 1 ^^^ poly else r >>> 1

/-- The remainder after the eight bits of a byte, the lowest first. -/
def byteStep (poly r : BitVec w) (b : BitVec 8) : BitVec w :=
  (shift poly)^[8] (r ^^^ b.setWidth w)

/-- The check of a message, with the remainder before it and the mask applied to the last
one. -/
def check (poly start mask : BitVec w) (message : List (BitVec 8)) : BitVec w :=
  message.foldl (byteStep poly) start ^^^ mask

/-! ## Linearity -/

theorem shift_xor (poly a b : BitVec w) : shift poly (a ^^^ b) = shift poly a ^^^ shift poly b := by
  simp only [shift, BitVec.getLsbD_xor, BitVec.ushiftRight_xor_distrib]
  cases a.getLsbD 0 <;> cases b.getLsbD 0
  · rfl
  · exact BitVec.xor_assoc _ _ _
  · show a >>> 1 ^^^ b >>> 1 ^^^ poly = a >>> 1 ^^^ poly ^^^ b >>> 1
    ac_rfl
  · -- The polynomial cancels.
    show a >>> 1 ^^^ b >>> 1 = a >>> 1 ^^^ poly ^^^ (b >>> 1 ^^^ poly)
    have hcancel : a >>> 1 ^^^ poly ^^^ (b >>> 1 ^^^ poly) =
        a >>> 1 ^^^ b >>> 1 ^^^ (poly ^^^ poly) := by ac_rfl
    rw [hcancel, BitVec.xor_self, BitVec.xor_zero]

theorem iterate_shift_xor (poly : BitVec w) (n : Nat) (a b : BitVec w) :
    (shift poly)^[n] (a ^^^ b) = (shift poly)^[n] a ^^^ (shift poly)^[n] b := by
  induction n generalizing a b with
  | zero => rfl
  | succ n ih => rw [Function.iterate_succ_apply, shift_xor, ih]; rfl

/-- Bits that are 0 are moved out. -/
theorem iterate_shift_of_low (poly r : BitVec w) :
    ∀ n, (∀ i < n, r.getLsbD i = false) → (shift poly)^[n] r = r >>> n
  | 0, _ => (BitVec.ushiftRight_zero r).symm
  | n + 1, h => by
    have hlow : (r >>> n).getLsbD 0 = false := by simpa using h n (Nat.lt_succ_self n)
    rw [Function.iterate_succ_apply', iterate_shift_of_low poly r n fun i hi =>
      h i (Nat.lt_succ_of_lt hi), shift, hlow, BitVec.shiftRight_add]
    rfl

/-! ## Byte by byte -/

/-- The low byte of a word, as a word. -/
def low (r : BitVec w) : BitVec w := r &&& 255#w

theorem getLsbD_255 (i : Nat) : (255#w).getLsbD i = (decide (i < w) && decide (i < 8)) := by
  rw [BitVec.getLsbD_ofNat, show (255 : Nat) = 2 ^ 8 - 1 from rfl, Nat.testBit_two_pow_sub_one]

/-- A word is its low byte and the others. -/
theorem low_xor (r : BitVec w) : low r ^^^ (r &&& ~~~255#w) = r := by
  apply BitVec.eq_of_getLsbD_eq
  intro i hi
  simp only [low, BitVec.getLsbD_xor, BitVec.getLsbD_and, BitVec.getLsbD_not, hi]
  cases r.getLsbD i <;> cases (255#w).getLsbD i <;> rfl

/-- Eight bits at once. -/
theorem iterate_shift_eight (poly r : BitVec w) :
    (shift poly)^[8] r = (shift poly)^[8] (low r) ^^^ r >>> 8 := by
  have hhigh : ∀ i < 8, (r &&& ~~~255#w).getLsbD i = false := by
    intro i hi
    simp only [BitVec.getLsbD_and, BitVec.getLsbD_not, getLsbD_255, hi]
    by_cases hw : i < w <;> simp [hw]
  have hshift : (r &&& ~~~255#w) >>> 8 = r >>> 8 := by
    apply BitVec.eq_of_getLsbD_eq
    intro i hi
    simp only [BitVec.getLsbD_ushiftRight, BitVec.getLsbD_and, BitVec.getLsbD_not, getLsbD_255]
    by_cases hw : 8 + i < w
    · simp [hw]
    · simp [hw, BitVec.getLsbD_of_ge r (8 + i) (Nat.not_lt.mp hw)]
  calc (shift poly)^[8] r
      = (shift poly)^[8] (low r ^^^ (r &&& ~~~255#w)) := by rw [low_xor]
    _ = (shift poly)^[8] (low r) ^^^ (r &&& ~~~255#w) >>> 8 := by
      rw [iterate_shift_xor, iterate_shift_of_low poly _ 8 hhigh]
    _ = (shift poly)^[8] (low r) ^^^ r >>> 8 := by rw [hshift]

/-- The step with a table of the low bytes. -/
theorem byteStep_eq_table (poly r : BitVec w) (b : BitVec 8) :
    byteStep poly r b = (shift poly)^[8] (low (r ^^^ b.setWidth w)) ^^^ r >>> 8 := by
  have hbyte : b.setWidth w >>> 8 = 0#w := by
    apply BitVec.eq_of_getLsbD_eq
    intro i hi
    rw [BitVec.getLsbD_ushiftRight, BitVec.getLsbD_setWidth, BitVec.getLsbD_of_ge b (8 + i) (by omega),
      Bool.and_false, BitVec.getLsbD_zero]
  rw [byteStep, iterate_shift_eight, BitVec.ushiftRight_xor_distrib, hbyte, BitVec.xor_zero]

end Crc
