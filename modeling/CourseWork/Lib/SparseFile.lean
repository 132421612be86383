import Mathlib.Data.List.TakeDrop

/-!
# Files written at arbitrary positions

A file as a list of elements that grows when something is written behind its end, with
a filler for what was never written, and files that agree with a target at the
positions written so far.
-/

namespace SparseFile

variable {α : Type}

/-- Writes `data` at `pos`. A gap behind the old end reads as `z`. Writing nothing does
not extend the file. -/
def writeAt (z : α) (b : List α) (pos : Nat) (data : List α) : List α :=
  if data.isEmpty then b
  else b.take pos ++ (List.replicate (pos - b.length) z ++ (data ++ b.drop (pos + data.length)))

section Write

variable {z : α} {b data : List α} {pos : Nat}

theorem writeAt_nil : writeAt z b pos [] = b := rfl

theorem writeAt_of_ne (h : data ≠ []) : writeAt z b pos data =
    b.take pos ++ (List.replicate (pos - b.length) z ++
      (data ++ b.drop (pos + data.length))) := by
  rw [writeAt, if_neg (by rwa [List.isEmpty_iff])]

theorem length_writeAt (h : data ≠ []) :
    (writeAt z b pos data).length = max b.length (pos + data.length) := by
  rw [writeAt_of_ne h]
  simp only [List.length_append, List.length_take, List.length_replicate, List.length_drop]
  omega

theorem length_writeAt_le : (writeAt z b pos data).length ≤ max b.length (pos + data.length) := by
  by_cases h : data = []
  · rw [h, writeAt_nil]
    exact Nat.le_max_left _ _
  · exact Nat.le_of_eq (length_writeAt h)

/-- Inside the written range the file holds the data. -/
theorem getElem?_writeAt_of_mem {k : Nat} (h1 : pos ≤ k) (h2 : k < pos + data.length) :
    (writeAt z b pos data)[k]? = data[k - pos]? := by
  have hne : data ≠ [] := by
    rintro rfl
    exact absurd h2 (by simp only [List.length_nil]; omega)
  rw [writeAt_of_ne hne, List.getElem?_append_right (by simp only [List.length_take]; omega),
    List.getElem?_append_right
      (by simp only [List.length_take, List.length_replicate]; omega),
    List.getElem?_append_left
      (by simp only [List.length_take, List.length_replicate]; omega)]
  congr 1
  simp only [List.length_take, List.length_replicate]
  omega

/-- Outside of it every element that was there stays. -/
theorem getElem?_writeAt_of_lt {k : Nat} (hk : k < b.length)
    (h : k < pos ∨ pos + data.length ≤ k) : (writeAt z b pos data)[k]? = b[k]? := by
  by_cases hne : data = []
  · rw [hne, writeAt_nil]
  · rw [writeAt_of_ne hne]
    rcases h with h | h
    · rw [List.getElem?_append_left (by simp only [List.length_take]; omega),
        List.getElem?_take_of_lt h]
    · rw [List.getElem?_append_right (by simp only [List.length_take]; omega),
        List.getElem?_append_right
          (by simp only [List.length_take, List.length_replicate]; omega),
        List.getElem?_append_right
          (by simp only [List.length_take, List.length_replicate]; omega),
        List.getElem?_drop]
      congr 1
      simp only [List.length_take, List.length_replicate]
      omega

/-- Outside of it nothing changes, a missing element counted as the filler. -/
theorem getD_writeAt_of_notMem {k : Nat} (h : k < pos ∨ pos + data.length ≤ k) :
    (writeAt z b pos data)[k]?.getD z = b[k]?.getD z := by
  by_cases hk : k < b.length
  · rw [getElem?_writeAt_of_lt hk h]
  · rw [List.getElem?_eq_none (by omega : b.length ≤ k)]
    by_cases hne : data = []
    · rw [hne, writeAt_nil, List.getElem?_eq_none (by omega)]
    · rcases h with h | h
      · rw [writeAt_of_ne hne,
          List.getElem?_append_right (by simp only [List.length_take]; omega),
          List.getElem?_append_left
            (by simp only [List.length_take, List.length_replicate]; omega),
          List.getElem?_replicate_of_lt (by simp only [List.length_take]; omega)]
        rfl
      · rw [List.getElem?_eq_none (by rw [length_writeAt hne]; omega)]

end Write

/-! ## Filling a file -/

/-- The file `b` is a part of `target`, filled in at least at the positions `S`. -/
structure Holds (target b : List α) (S : Nat → Prop) : Prop where
  length_le : b.length ≤ target.length
  agree : ∀ k, S k → k < target.length → b[k]? = target[k]?

theorem Holds.nil (target : List α) : Holds target [] fun _ => False :=
  ⟨Nat.zero_le _, fun _ h => h.elim⟩

theorem Holds.mono {target b : List α} {S T : Nat → Prop} (h : Holds target b S)
    (hTS : ∀ k, k < target.length → T k → S k) : Holds target b T :=
  ⟨h.length_le, fun k hk hlt => h.agree k (hTS k hlt hk) hlt⟩

/-- Writing a part of the target where it belongs adds its range. -/
theorem Holds.write {target b : List α} {S : Nat → Prop} (h : Holds target b S) (z : α)
    {pos n : Nat} (hn : pos + n ≤ target.length) :
    Holds target (writeAt z b pos ((target.drop pos).take n))
      (fun k => S k ∨ pos ≤ k ∧ k < pos + n) := by
  have hlen : ((target.drop pos).take n).length = n := by
    rw [List.length_take, List.length_drop]
    omega
  constructor
  · refine Nat.le_trans length_writeAt_le ?_
    have := h.length_le
    omega
  · intro k hk hlt
    by_cases hin : pos ≤ k ∧ k < pos + n
    · rw [getElem?_writeAt_of_mem hin.1 (by omega), List.getElem?_take_of_lt (by omega),
        List.getElem?_drop]
      congr 1
      omega
    · have hagree := h.agree k (by tauto) hlt
      have hkb : k < b.length := by
        by_contra hge
        rw [List.getElem?_eq_none (by omega), List.getElem?_eq_getElem hlt] at hagree
        exact nomatch hagree
      rw [getElem?_writeAt_of_lt hkb (by omega), hagree]

/-- A file filled in everywhere is the target. -/
theorem Holds.eq {target b : List α} {S : Nat → Prop} (h : Holds target b S)
    (hS : ∀ k, k < target.length → S k) : b = target := by
  apply List.ext_getElem?
  intro k
  by_cases hk : k < target.length
  · exact h.agree k (hS k hk) hk
  · have := h.length_le
    rw [List.getElem?_eq_none (by omega), List.getElem?_eq_none (by omega)]

/-! ## Slices -/

/-- A slice of a slice. -/
theorem slice_slice (l : List α) {a n k m : Nat} (h : k + m ≤ n) :
    (((l.drop a).take n).drop k).take m = (l.drop (a + k)).take m := by
  rw [List.drop_take, List.drop_drop, List.take_take]
  congr 1
  omega

end SparseFile
