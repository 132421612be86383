import CourseWork.Lib.Crc
import Mathlib.Algebra.GroupWithZero.Nat
import Mathlib.Data.List.Basic

/-!
# Burst errors

A check whose polynomial has its highest term tells two messages apart that differ only within
as many consecutive bits as the check has.
-/

namespace Crc

variable {w : Nat}

/-- A bit as the lowest bit of a word. -/
def bit (b : Bool) : BitVec w := if b then 1#w else 0#w

/-- The remainder after one more bit of the message. -/
def bitStep (poly r : BitVec w) (b : Bool) : BitVec w := shift poly (r ^^^ bit b)

/-- The bits of a byte, the lowest first. -/
def byteBits (b : BitVec 8) : List Bool := (List.range 8).map b.getLsbD

/-- The bits of a message in the order in which they are checked. -/
def messageBits (message : List (BitVec 8)) : List Bool := message.flatMap byteBits

/-! ## Bytes as bits -/

section Bytes

theorem getLsbD_bit (b : Bool) (hw : 0 < w) (i : Nat) :
    (bit b : BitVec w).getLsbD i = (decide (i = 0) && b) := by
  cases b with
  | false => rw [bit, if_neg Bool.false_ne_true, BitVec.getLsbD_zero, Bool.and_false]
  | true => rw [bit, if_pos rfl, BitVec.getLsbD_one, Bool.and_true, decide_eq_true hw, Bool.true_and]

/-- The lowest bits of a word. -/
def lowBits (n : Nat) (r : BitVec w) : BitVec w := r &&& BitVec.ofNat w (2 ^ n - 1)

theorem getLsbD_lowBits (n : Nat) (r : BitVec w) (i : Nat) :
    (lowBits n r).getLsbD i = (r.getLsbD i && decide (i < n)) := by
  rw [lowBits, BitVec.getLsbD_and, BitVec.getLsbD_ofNat, Nat.testBit_two_pow_sub_one]
  by_cases hi : i < w
  · rw [decide_eq_true hi, Bool.true_and]
  · rw [BitVec.getLsbD_of_ge r i (Nat.not_lt.mp hi), Bool.false_and, Bool.false_and]

/-- One bit more. -/
theorem lowBits_succ {n : Nat} (hn : n < w) (r : BitVec w) :
    lowBits (n + 1) r = lowBits n r ^^^ bit (r.getLsbD n) <<< n := by
  apply BitVec.eq_of_getLsbD_eq
  intro i hi
  rw [BitVec.getLsbD_xor, getLsbD_lowBits, getLsbD_lowBits, BitVec.getLsbD_shiftLeft,
    getLsbD_bit _ (by omega)]
  rcases Nat.lt_trichotomy i n with hlt | rfl | hgt
  · simp [hlt, Nat.lt_succ_of_lt hlt]
  · simp [hi]
  · simp [show ¬i < n by omega, show ¬i < n + 1 by omega, show i - n ≠ 0 by omega]

/-- The first bits of a word, one after the other or all at once. -/
theorem foldl_bitStep (poly r x : BitVec w) : ∀ {n}, n ≤ w →
    ((List.range n).map x.getLsbD).foldl (bitStep poly) r = (shift poly)^[n] (r ^^^ lowBits n x)
  | 0, _ => by
    have hnone : lowBits 0 x = 0#w := by
      rw [lowBits]
      exact BitVec.and_zero
    rw [hnone, BitVec.xor_zero]
    rfl
  | n + 1, hn => by
    have hout : (shift poly)^[n] (bit (x.getLsbD n) <<< n) = bit (x.getLsbD n) := by
      have hlow : ∀ i < n, (bit (x.getLsbD n) <<< n : BitVec w).getLsbD i = false := by
        intro i hi
        rw [BitVec.getLsbD_shiftLeft, decide_eq_true hi, Bool.not_true, Bool.and_false,
          Bool.false_and]
      rw [iterate_shift_of_low poly _ n hlow]
      apply BitVec.eq_of_getLsbD_eq
      intro i hi
      rw [BitVec.getLsbD_ushiftRight, BitVec.getLsbD_shiftLeft, getLsbD_bit _ (by omega),
        getLsbD_bit _ (by omega)]
      rcases Nat.eq_zero_or_pos i with rfl | hpos
      · simp [show n < w by omega]
      · simp [show i ≠ 0 by omega]
    rw [List.range_succ, List.map_append, List.foldl_append, foldl_bitStep poly r x (by omega),
      lowBits_succ (by omega), Function.iterate_succ_apply', ← BitVec.xor_assoc,
      iterate_shift_xor _ n (r ^^^ lowBits n x), hout]
    rfl

/-- A byte is its bits. -/
theorem byteStep_eq_bits (hw : 8 ≤ w) (poly r : BitVec w) (b : BitVec 8) :
    byteStep poly r b = (byteBits b).foldl (bitStep poly) r := by
  have hbits : byteBits b = (List.range 8).map (b.setWidth w).getLsbD := by
    refine List.map_congr_left fun i hi => ?_
    rw [BitVec.getLsbD_setWidth, decide_eq_true (by rw [List.mem_range] at hi; omega), Bool.true_and]
  have hall : lowBits 8 (b.setWidth w) = b.setWidth w := by
    apply BitVec.eq_of_getLsbD_eq
    intro i hi
    rw [getLsbD_lowBits, BitVec.getLsbD_setWidth]
    by_cases h8 : i < 8
    · rw [decide_eq_true h8, Bool.and_true]
    · rw [BitVec.getLsbD_of_ge b i (Nat.not_lt.mp h8), Bool.and_false, Bool.false_and]
  rw [hbits, foldl_bitStep poly r _ hw, hall, byteStep]

/-- The check of a message is the check of its bits. -/
theorem check_eq_bits (hw : 8 ≤ w) (poly start mask : BitVec w) (message : List (BitVec 8)) :
    check poly start mask message = (messageBits message).foldl (bitStep poly) start ^^^ mask := by
  have hfold : ∀ (message : List (BitVec 8)) (r : BitVec w),
      message.foldl (byteStep poly) r = (messageBits message).foldl (bitStep poly) r := by
    intro message
    induction message with
    | nil => exact fun _ => rfl
    | cons b message ih =>
      intro r
      rw [List.foldl_cons, ih, byteStep_eq_bits hw, messageBits, messageBits, List.flatMap_cons,
        List.foldl_append]
  rw [check, hfold]

end Bytes

/-! ## Errors -/

section Errors

variable {poly : BitVec w}

/-- What two steps differ in. -/
theorem bitStep_xor (poly r s : BitVec w) (a b : Bool) :
    bitStep poly r a ^^^ bitStep poly s b = shift poly ((r ^^^ s) ^^^ bit (a ^^ b)) := by
  have hbit : bit (a ^^ b) = (bit a ^^^ bit b : BitVec w) := by
    cases a <;> cases b <;> simp [bit]
  rw [bitStep, bitStep, ← shift_xor, hbit]
  congr 1
  ac_rfl

/-- A lowest bit is moved out by the highest term. -/
theorem le_toNat_shift (hpoly : poly.msb = true) {r : BitVec w} (h : r.getLsbD 0 = true) :
    2 ^ (w - 1) ≤ (shift poly r).toNat := by
  refine BitVec.toNat_ge_of_msb_true ?_
  rw [shift, if_pos h, BitVec.msb_xor, BitVec.msb_ushiftRight, hpoly]
  rfl

/-- What is small after a shift was small before it. -/
theorem toNat_lt_of_shift (hpoly : poly.msb = true) {r : BitVec w} {n : Nat} (hn : n < w)
    (h : (shift poly r).toNat < 2 ^ n) : r.toNat < 2 ^ (n + 1) := by
  cases hbit : r.getLsbD 0 with
  | true =>
    have hge := le_toNat_shift hpoly hbit
    have hpow : 2 ^ n ≤ 2 ^ (w - 1) := Nat.pow_le_pow_right (by decide) (by omega)
    omega
  | false =>
    rw [shift, hbit, if_neg Bool.false_ne_true, BitVec.toNat_ushiftRight, Nat.shiftRight_eq_div_pow]
      at h
    rw [Nat.pow_succ]
    omega

/-- Words from which equally many bits lead to the same remainder differ only in low bits. -/
theorem toNat_xor_lt (hpoly : poly.msb = true) : ∀ {u v : List Bool} {r s : BitVec w},
    u.length = v.length → u.length ≤ w → u.foldl (bitStep poly) r = v.foldl (bitStep poly) s →
      (r ^^^ s).toNat < 2 ^ u.length
  | [], [], r, s, _, _, h => by
    rw [show r = s from h, BitVec.xor_self]
    exact Nat.one_pos
  | a :: u, b :: v, r, s, hlength, hle, h => by
    have hnext := toNat_xor_lt hpoly (Nat.succ.inj hlength) (Nat.le_of_succ_le hle) h
    rw [bitStep_xor] at hnext
    have hlow := toNat_lt_of_shift hpoly hle hnext
    have hbit : (bit (a ^^ b) : BitVec w).toNat < 2 ^ (u.length + 1) := by
      have hone : (bit (a ^^ b) : BitVec w).toNat ≤ 1 := by
        cases a ^^ b with
        | false => exact Nat.le_trans (Nat.le_of_eq BitVec.toNat_zero) (Nat.zero_le 1)
        | true => exact Nat.mod_le 1 _
      have hpow : 2 ^ 1 ≤ 2 ^ (u.length + 1) := Nat.pow_le_pow_right (by decide) (by omega)
      omega
    have hback : r ^^^ s = (r ^^^ s ^^^ bit (a ^^ b)) ^^^ bit (a ^^ b) := by
      rw [BitVec.xor_assoc (r ^^^ s), BitVec.xor_self, BitVec.xor_zero]
    rw [hback, BitVec.toNat_xor]
    exact Nat.xor_lt_two_pow hlow hbit

/-- Different bits, not more than the word has, lead from one remainder to two. -/
theorem foldl_bitStep_ne (hpoly : poly.msb = true) : ∀ {u v : List Bool} (r : BitVec w),
    u.length = v.length → u.length ≤ w → u ≠ v →
      u.foldl (bitStep poly) r ≠ v.foldl (bitStep poly) r
  | [], [], _, _, _, hne => absurd rfl hne
  | a :: u, b :: v, r, hlength, hle, hne => by
    have hlength' : u.length = v.length := Nat.succ.inj hlength
    rcases eq_or_ne a b with rfl | hab
    · exact foldl_bitStep_ne hpoly (bitStep poly r a) hlength' (Nat.le_of_succ_le hle) fun huv =>
        hne (by rw [huv])
    · intro h
      have hlt := toNat_xor_lt hpoly hlength' (Nat.le_of_succ_le hle) h
      have hbit : (a ^^ b) = true := bne_iff_ne.mpr hab
      rw [bitStep_xor, BitVec.xor_self, BitVec.zero_xor, hbit] at hlt
      have hge : 2 ^ (w - 1) ≤ (shift poly (bit true)).toNat :=
        le_toNat_shift hpoly (by rw [getLsbD_bit _ (by rw [List.length_cons] at hle; omega)]; rfl)
      have hpow : 2 ^ u.length ≤ 2 ^ (w - 1) :=
        Nat.pow_le_pow_right (by decide) (by rw [List.length_cons] at hle; omega)
      omega

/-- Only 0 is shifted to 0. -/
theorem eq_zero_of_shift (hpoly : poly.msb = true) {r : BitVec w} (h : shift poly r = 0#w) :
    r = 0#w := by
  cases hbit : r.getLsbD 0 with
  | true =>
    have hge := le_toNat_shift hpoly hbit
    rw [h, BitVec.toNat_zero] at hge
    exact absurd hge (Nat.not_le.mpr (Nat.two_pow_pos _))
  | false =>
    rw [shift, hbit, if_neg Bool.false_ne_true] at h
    have hhalf := congrArg BitVec.toNat h
    rw [BitVec.toNat_ushiftRight, Nat.shiftRight_eq_div_pow, BitVec.toNat_zero] at hhalf
    have heven : r.toNat % 2 = 0 := by
      rw [BitVec.getLsbD, Nat.testBit_zero, decide_eq_false_iff_not] at hbit
      omega
    refine BitVec.eq_of_toNat_eq ?_
    rw [BitVec.toNat_zero]
    omega

/-- Equal bits keep two remainders apart. -/
theorem foldl_bitStep_inj (hpoly : poly.msb = true) : ∀ (u : List Bool) {r s : BitVec w},
    u.foldl (bitStep poly) r = u.foldl (bitStep poly) s → r = s
  | [], _, _, h => h
  | a :: u, r, s, h => by
    have hnext := foldl_bitStep_inj hpoly u h
    have hzero : bitStep poly r a ^^^ bitStep poly s a = 0#w := by rw [hnext, BitVec.xor_self]
    rw [bitStep_xor, Bool.xor_self, bit, if_neg Bool.false_ne_true, BitVec.xor_zero] at hzero
    exact BitVec.xor_eq_zero_iff.mp (eq_zero_of_shift hpoly hzero)

/-- Two messages whose bits differ, but only within `w` consecutive ones, have different checks. -/
theorem check_ne_of_burst (hw : 8 ≤ w) (hpoly : poly.msb = true) (start mask : BitVec w)
    {x y : List (BitVec 8)} {front u v back : List Bool} (hx : messageBits x = front ++ u ++ back)
    (hy : messageBits y = front ++ v ++ back) (hlength : u.length = v.length) (hle : u.length ≤ w)
    (hne : u ≠ v) : check poly start mask x ≠ check poly start mask y := by
  rw [check_eq_bits hw, check_eq_bits hw, hx, hy]
  simp only [List.foldl_append]
  intro h
  exact foldl_bitStep_ne hpoly _ hlength hle hne
    (foldl_bitStep_inj hpoly back ((BitVec.xor_left_inj mask).mp h))

end Errors

end Crc
