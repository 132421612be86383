import Mathlib.Data.List.Rotate

/-!
# Cyclic buffers

A list read and written cyclically: a window that is continued at the beginning of the
list, and a write that is split where the list ends. Writing behind a window extends it.
-/

namespace Cyclic

variable {α : Type*}

/-- `n` items from position `start` on, continued at the beginning. -/
def window (buf : List α) (start n : Nat) : List α := (buf.rotate start).take n

/-- The items are written from position `pos` on, those that do not fit at the
beginning. -/
def put (buf : List α) (pos : Nat) (data : List α) : List α :=
  let first := min data.length (buf.length - pos)
  data.drop first ++ (buf.take pos).drop (data.length - first) ++
    (data.take first ++ buf.drop (pos + first))

section Window

variable {buf : List α} {start n : Nat}

@[simp] theorem window_zero (buf : List α) (start : Nat) : window buf start 0 = [] :=
  List.take_zero

theorem length_window (hn : n ≤ buf.length) : (window buf start n).length = n := by
  rw [window, List.length_take, List.length_rotate]
  exact Nat.min_eq_left hn

/-- A window in two parts, split where the list ends. -/
theorem window_eq_append (hstart : start ≤ buf.length) (hn : n ≤ buf.length) :
    window buf start n = (buf.drop start).take n ++ buf.take (n - (buf.length - start)) := by
  rw [window, List.rotate_eq_drop_append_take hstart, List.take_append, List.length_drop,
    List.take_take, Nat.min_eq_left]
  omega

theorem take_window (k : Nat) : (window buf start n).take k = window buf start (min k n) := by
  rw [window, List.take_take, window]

/-- Without its first items a window starts later. -/
theorem drop_window {k : Nat} (hk : k ≤ n) (hn : n ≤ buf.length) :
    (window buf start n).drop k = window buf (start + k) (n - k) := by
  have hlen : k ≤ (buf.rotate start).length := by
    rw [List.length_rotate]
    exact Nat.le_trans hk hn
  rw [window, window, List.drop_take, ← List.rotate_rotate,
    List.rotate_eq_drop_append_take hlen, List.take_append_of_le_length]
  rw [List.length_drop, List.length_rotate]
  omega

/-- The start of a window counts modulo the length of the list. -/
theorem window_mod (buf : List α) (start n : Nat) :
    window buf (start % buf.length) n = window buf start n := by
  rw [window, List.rotate_mod, window]

end Window

section Put

variable {buf data : List α} {pos : Nat}

theorem length_put (hpos : pos ≤ buf.length) (hdata : data.length ≤ buf.length) :
    (put buf pos data).length = buf.length := by
  simp only [put, List.length_append, List.length_drop, List.length_take]
  omega

/-- Read from where it was written, a list starts with what was written. -/
theorem rotate_put (hpos : pos ≤ buf.length) (hdata : data.length ≤ buf.length) :
    (put buf pos data).rotate pos = data ++ (buf.rotate pos).drop data.length := by
  have hfront : (data.drop (min data.length (buf.length - pos)) ++
      (buf.take pos).drop (data.length - min data.length (buf.length - pos))).length = pos := by
    simp only [List.length_append, List.length_drop, List.length_take]
    omega
  have hrotate := List.rotate_append_length_eq
    (data.drop (min data.length (buf.length - pos)) ++
      (buf.take pos).drop (data.length - min data.length (buf.length - pos)))
    (data.take (min data.length (buf.length - pos)) ++
      buf.drop (pos + min data.length (buf.length - pos)))
  rw [hfront] at hrotate
  rw [put, hrotate, List.rotate_eq_drop_append_take hpos]
  rcases Nat.le_total data.length (buf.length - pos) with h | h
  · rw [Nat.min_eq_left h, Nat.sub_self, List.take_length, List.drop_length, List.nil_append,
      List.drop_zero, List.drop_append_of_le_length (by rw [List.length_drop]; exact h),
      List.drop_drop, List.append_assoc]
  · have hend : buf.drop (pos + (buf.length - pos)) = [] := List.drop_eq_nil_of_le (by omega)
    have hfull : (buf.drop pos).drop data.length = [] :=
      List.drop_eq_nil_of_le (by rw [List.length_drop]; exact h)
    rw [Nat.min_eq_right h, List.drop_append, hend, hfull, List.append_nil, List.nil_append,
      ← List.append_assoc, List.take_append_drop, List.length_drop]

/-- Writing behind a window extends it. -/
theorem window_put {start count : Nat} (hstart : start < buf.length)
    (hcount : count + data.length ≤ buf.length) (hpos : pos = (start + count) % buf.length) :
    window (put buf pos data) start (count + data.length) = window buf start count ++ data := by
  have hlt : pos < buf.length := hpos ▸ Nat.mod_lt _ (Nat.zero_lt_of_lt hstart)
  have hlen := length_put (Nat.le_of_lt hlt) (show data.length ≤ buf.length by omega)
  -- Going on from `pos` for the rest of the list leads back to `start`.
  have hback : (put buf pos data).rotate start =
      ((put buf pos data).rotate pos).rotate (buf.length - count) := by
    have hmod : start % buf.length = (pos + (buf.length - count)) % buf.length := by
      rw [hpos, Nat.mod_add_mod,
        show start + count + (buf.length - count) = start + buf.length by omega, Nat.add_mod_right]
    rw [List.rotate_rotate, ← List.rotate_mod _ start, hlen, hmod, ← hlen, List.rotate_mod]
  have hsplit : buf.rotate pos = (buf.rotate start).drop count ++ window buf start count := by
    rw [hpos, List.rotate_mod, ← List.rotate_rotate, List.rotate_eq_drop_append_take, window]
    rw [List.length_rotate]
    omega
  have hfree : data.length ≤ ((buf.rotate start).drop count).length := by
    rw [List.length_drop, List.length_rotate]
    omega
  rw [window, hback, rotate_put (Nat.le_of_lt hlt) (by omega), hsplit,
    List.drop_append_of_le_length hfree, ← List.append_assoc]
  have hfront : (data ++ ((buf.rotate start).drop count).drop data.length).length =
      buf.length - count := by
    simp only [List.length_append, List.length_drop, List.length_rotate]
    omega
  rw [← hfront, List.rotate_append_length_eq, List.take_append, length_window (by omega),
    Nat.add_sub_cancel_left, List.take_left, List.take_of_length_le]
  rw [length_window (by omega)]
  omega

end Put

end Cyclic
