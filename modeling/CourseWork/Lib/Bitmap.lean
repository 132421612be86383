import Mathlib.Data.List.Nodup
import Mathlib.Data.Nat.Bitwise

/-!
# Packed bitmaps

A set of indices packed into bytes, the highest bit of a byte first.
-/

namespace Bitmap

/-- The bit of index `i` in its byte. -/
def mask (i : Nat) : UInt8 := 1 <<< UInt8.ofNat (7 - i % 8)

/-- Whether the bit of index `i` is set. -/
def test (bits : List UInt8) (i : Nat) : Bool := bits.getD (i / 8) 0 &&& mask i != 0

/-- Sets the bit of index `i`; an index behind the end is ignored. -/
def mark (bits : List UInt8) (i : Nat) : List UInt8 :=
  bits.set (i / 8) (bits.getD (i / 8) 0 ||| mask i)

/-- The indices below `n` that are marked. -/
def marked (bits : List UInt8) (n : Nat) : List Nat := (List.range n).filter (test bits)

theorem toNat_mask (i : Nat) : (mask i).toNat = 2 ^ (7 - i % 8) := by
  have h : ∀ k < 8, ((1 : UInt8) <<< UInt8.ofNat k).toNat = 2 ^ k := by decide
  exact h _ (by omega)

theorem test_eq_testBit (bits : List UInt8) (i : Nat) :
    test bits i = (bits.getD (i / 8) 0).toNat.testBit (7 - i % 8) := by
  rw [test, Bool.eq_iff_iff, bne_iff_ne, ne_eq, ← UInt8.toNat_inj, UInt8.toNat_and, toNat_mask,
    Nat.and_two_pow]
  cases (bits.getD (i / 8) 0).toNat.testBit (7 - i % 8) <;> simp

theorem length_mark (bits : List UInt8) (i : Nat) : (mark bits i).length = bits.length :=
  List.length_set

/-- A bit behind the end is not set. -/
theorem lt_of_test {bits : List UInt8} {i : Nat} (h : test bits i = true) :
    i / 8 < bits.length := by
  by_contra hbehind
  rw [test, List.getD_eq_getElem?_getD, List.getElem?_eq_none (Nat.not_lt.mp hbehind),
    Option.getD_none, UInt8.zero_and] at h
  exact absurd h (by decide)

/-- Marking an index marks it. -/
theorem test_mark_self {bits : List UInt8} {i : Nat} (h : i / 8 < bits.length) :
    test (mark bits i) i = true := by
  rw [test_eq_testBit, mark, List.getD_eq_getElem?_getD, List.getElem?_set_self h, Option.getD_some,
    UInt8.toNat_or, Nat.testBit_or, toNat_mask, Nat.testBit_two_pow_self, Bool.or_true]

/-- Marking an index changes no other one. -/
theorem test_mark_ne {bits : List UInt8} {i j : Nat} (h : i ≠ j) :
    test (mark bits i) j = test bits j := by
  rw [test_eq_testBit, test_eq_testBit, mark]
  by_cases hbyte : i / 8 = j / 8
  · by_cases hlt : i / 8 < bits.length
    · rw [← hbyte, List.getD_eq_getElem?_getD, List.getElem?_set_self hlt, Option.getD_some,
        UInt8.toNat_or, Nat.testBit_or, toNat_mask, Nat.testBit_two_pow_of_ne (by omega),
        Bool.or_false]
    · rw [List.set_eq_of_length_le (by omega)]
  · rw [List.getD_eq_getElem?_getD, List.getElem?_set_ne hbyte, ← List.getD_eq_getElem?_getD]

theorem test_replicate_zero (n i : Nat) : test (List.replicate n 0) i = false := by
  rw [test_eq_testBit]
  have hzero : (List.replicate n (0 : UInt8)).getD (i / 8) 0 = 0 := by
    rw [List.getD_eq_getElem?_getD, List.getElem?_replicate]
    split <;> rfl
  rw [hzero]
  exact Nat.zero_testBit _

theorem mem_marked {bits : List UInt8} {n i : Nat} :
    i ∈ marked bits n ↔ i < n ∧ test bits i = true := by
  rw [marked, List.mem_filter, List.mem_range]

theorem length_marked_le (bits : List UInt8) (n : Nat) : (marked bits n).length ≤ n := by
  have h := List.length_filter_le (test bits) (List.range n)
  rwa [List.length_range] at h

theorem marked_replicate_zero (m n : Nat) : marked (List.replicate m 0) n = [] := by
  rw [marked, List.filter_eq_nil_iff]
  intro i _
  rw [test_replicate_zero]
  exact nofun

/-- Marking a new index below `n` adds one to the number of marked ones. -/
theorem length_marked_mark {bits : List UInt8} {n i : Nat} (hi : i < n)
    (hlen : i / 8 < bits.length) (hnew : test bits i = false) :
    (marked (mark bits i) n).length = (marked bits n).length + 1 := by
  have hperm : (marked (mark bits i) n).Perm (i :: marked bits n) := by
    refine (List.perm_ext_iff_of_nodup (List.nodup_range.filter _) ?_).mpr fun j => ?_
    · refine List.nodup_cons.mpr ⟨fun hmem => ?_, List.nodup_range.filter _⟩
      rw [(mem_marked.mp hmem).2] at hnew
      exact nomatch hnew
    · rw [← marked, List.mem_cons, mem_marked, mem_marked]
      by_cases hj : i = j
      · rw [← hj, test_mark_self hlen]
        exact ⟨fun _ => .inl rfl, fun _ => ⟨hi, rfl⟩⟩
      · rw [test_mark_ne hj]
        exact ⟨.inr, fun h => h.resolve_left fun heq => hj heq.symm⟩
  rw [hperm.length_eq, List.length_cons]

/-- All indices below `n` are marked when as many are. -/
theorem test_of_length_marked {bits : List UInt8} {n i : Nat}
    (h : (marked bits n).length = n) (hi : i < n) : test bits i = true := by
  have hall : ∀ j ∈ List.range n, test bits j = true := by
    rw [← List.filter_eq_self, ← marked]
    exact (List.filter_sublist (l := List.range n)).eq_of_length
      (by rw [← marked, h, List.length_range])
  exact hall i (List.mem_range.mpr hi)

end Bitmap
