import CourseWork.Lib.CLib

/-!
# Texts in buffers

`snprintf` into a memory, one text behind the other, and the texts of a list that fit into a
space one after the other.
-/

namespace CLib

/-- `INT_MAX`. -/
def intMax : Nat := 2147483647

/-- The conversion of an `int` to `size_t`. -/
def sizeT (n : Int) : Nat := (n % 18446744073709551616).toNat

/-- The conversion of a `size_t` to `int`. -/
def toInt (n : Nat) : Int := Int.bmod n 4294967296

/-- What `snprintf` writes: a part of the text and a NUL. -/
def snprintfBytes (size : Nat) (text : Bytes) : Bytes :=
  if size = 0 then [] else text.take (size - 1) ++ [0]

/-- `snprintf (mem + pos, size, …)`, which returns the length of the text. It has no result if
that is no `int`, or if it writes behind the memory. -/
def snprintf (mem : Bytes) (pos size : Nat) (text : Bytes) : Option (Bytes × Nat) :=
  let out := snprintfBytes size text
  if text.length ≤ intMax ∧ pos + out.length ≤ mem.length then
    some (mem.take pos ++ out ++ mem.drop (pos + out.length), text.length)
  else none

theorem sizeT_natCast {n : Nat} (h : n < 18446744073709551616) : sizeT n = n := by
  unfold sizeT
  omega

theorem toInt_of_le {n : Nat} (h : n ≤ intMax) : toInt n = n := by
  have hmax : intMax = 2147483647 := rfl
  exact Int.bmod_eq_of_le (by omega) (by omega)

/-! ## A buffer -/

/-- A buffer of `size` bytes at the start of a memory holds the text, and what is behind the
buffer is as it was. -/
structure Filled (start : Bytes) (size : Nat) (text mem : Bytes) : Prop where
  length : mem.length = start.length
  initial : text <+: mem
  fits : text.length ≤ size
  behind : mem.drop size = start.drop size

theorem Filled.nil (start : Bytes) (size : Nat) : Filled start size [] start :=
  ⟨rfl, List.nil_prefix, Nat.zero_le _, rfl⟩

section Buffer

variable {start text mem new : Bytes} {size : Nat}

theorem length_snprintfBytes_le (size : Nat) (text : Bytes) :
    (snprintfBytes size text).length ≤ size := by
  unfold snprintfBytes
  split
  · exact Nat.zero_le _
  · rw [List.length_append, List.length_take, List.length_singleton]
    omega

theorem snprintfBytes_fits (h : text.length < size) : snprintfBytes size text = text ++ [0] := by
  rw [snprintfBytes, if_neg (by omega), List.take_of_length_le (by omega)]

/-- The space that is left is written, and a text that fits is appended. -/
theorem Filled.snprintf (h : Filled start size text mem) (hsize : size ≤ start.length)
    (hnew : new.length ≤ intMax) :
    ∃ mem', CLib.snprintf mem text.length (size - text.length) new = some (mem', new.length) ∧
      Filled start size text mem' ∧
        (new.length < size - text.length →
          Filled start size (text ++ new) mem' ∧ text ++ new ++ [0] <+: mem') := by
  have hlen := h.length
  have hfits := h.fits
  obtain ⟨rest, rfl⟩ := h.initial
  rw [List.length_append] at hlen
  have hout := length_snprintfBytes_le (size - text.length) new
  have hroom : text.length + (snprintfBytes (size - text.length) new).length ≤
      (text ++ rest).length := by
    rw [List.length_append]
    omega
  rw [CLib.snprintf, if_pos ⟨hnew, hroom⟩, List.take_left, List.drop_append]
  have hfits' : new.length < size - text.length →
      snprintfBytes (size - text.length) new = new ++ [0] := snprintfBytes_fits
  generalize snprintfBytes (size - text.length) new = out at *
  rw [List.drop_of_length_le (Nat.le_add_right _ _), List.nil_append, Nat.add_sub_cancel_left]
  -- Behind the buffer are the same bytes as before.
  have hbehind : (text ++ out ++ rest.drop out.length).drop size = start.drop size := by
    rw [← h.behind, List.append_assoc, List.drop_append, List.drop_append, List.drop_append,
      List.drop_drop, List.drop_of_length_le (i := size - text.length) hout, List.nil_append]
    congr 2
    omega
  have hlength : (text ++ out ++ rest.drop out.length).length = start.length := by
    rw [List.length_append, List.length_append, List.length_drop]
    omega
  refine ⟨_, rfl, ⟨hlength, ?_, hfits, hbehind⟩, fun hlt => ?_⟩
  · rw [List.append_assoc]
    exact List.prefix_append _ _
  · obtain rfl := hfits' hlt
    refine ⟨⟨hlength, ?_, ?_, hbehind⟩, ?_⟩
    · rw [← List.append_assoc, List.append_assoc]
      exact List.prefix_append _ _
    · rw [List.length_append]
      omega
    · rw [← List.append_assoc]
      exact List.prefix_append _ _

end Buffer

/-! ## Texts one after the other -/

/-- Each text is shorter than the space that the ones before it leave. -/
def EachFits : Nat → List Bytes → Prop
  | _, [] => True
  | space, t :: ts => t.length < space ∧ EachFits (space - t.length) ts

/-- The texts in front of the first one that does not fit. -/
def fitting : Nat → List Bytes → List Bytes
  | _, [] => []
  | space, t :: ts => if t.length < space then t :: fitting (space - t.length) ts else []

/-- The longest initial part of a list whose texts each fit. -/
structure LongestFitting (space : Nat) (texts part : List Bytes) : Prop where
  initial : part <+: texts
  eachFits : EachFits space part
  longest : ∀ other, other <+: texts → EachFits space other → other <+: part

theorem longestFitting_fitting (space : Nat) (texts : List Bytes) :
    LongestFitting space texts (fitting space texts) := by
  induction texts generalizing space with
  | nil => exact ⟨List.prefix_rfl, trivial, fun _ h _ => h⟩
  | cons t ts ih =>
    unfold fitting
    split
    · next hfits =>
      obtain ⟨hinitial, heach, hlongest⟩ := ih (space - t.length)
      refine ⟨(List.prefix_cons_inj t).mpr hinitial, ⟨hfits, heach⟩, fun other hother hfits' => ?_⟩
      cases other with
      | nil => exact List.nil_prefix
      | cons u us =>
        obtain ⟨rfl, hus⟩ := List.cons_prefix_cons.mp hother
        exact (List.prefix_cons_inj u).mpr (hlongest us hus hfits'.2)
    · next hfits =>
      refine ⟨List.nil_prefix, trivial, fun other hother hfits' => ?_⟩
      cases other with
      | nil => exact List.nil_prefix
      | cons u us =>
        obtain ⟨rfl, _⟩ := List.cons_prefix_cons.mp hother
        exact absurd hfits'.1 hfits

/-! ## Numbers with one decimal -/

/-- `n / d`, rounded to the nearest integer, and to an even one in the middle. -/
def roundHalfEven (n d : Nat) : Nat :=
  if 2 * (n % d) < d ∨ (2 * (n % d) = d ∧ n / d % 2 = 0) then n / d else n / d + 1

/-- The `double` for an integer: 53 binary digits of it. -/
def toDouble (n : Nat) : Nat :=
  if n < 2 ^ 53 then n else roundHalfEven n (2 ^ (n.log2 - 52)) * 2 ^ (n.log2 - 52)

/-- `%.1f` for the quotient of a `double` and a power of two. -/
def printTenths (n d : Nat) : Bytes :=
  let tenths := roundHalfEven (10 * n) d
  Numeral.print 10 (tenths / 10) ++ 46 :: Numeral.print 10 (tenths % 10)

end CLib
