import CourseWork.Lib.CLib

/-!
# Checked memory

The C library functions on a memory of known extent, with every byte that they read. A
read outside of the memory, and a search of negative length, end the run. Where the
functions stay inside they agree with those on lists.
-/

namespace CheckedMemory
open CLib

/-- Why a run has no defined continuation, or why the model has cut it off. -/
inductive Fault where
  | outOfBounds (offset : Nat)
  | negativeLength
  | uninitialised
  | intOverflow
  | fuel
  deriving DecidableEq

/-- A run that may end early. -/
abbrev Checked := Except Fault

/-! ## Reading -/

/-- `*p`, for the offset `p`. -/
def load (mem : Bytes) (p : Nat) : Checked UInt8 :=
  match mem.drop p with
  | [] => .error (.outOfBounds p)
  | c :: _ => .ok c

/-- Compares at most `n` bytes. -/
def searchFrom (c : UInt8) : Nat → Nat → Bytes → Checked (Option Nat)
  | _, 0, _ => .ok none
  | p, _ + 1, [] => .error (.outOfBounds p)
  | p, n + 1, x :: s => if x = c then .ok (some p) else searchFrom c (p + 1) n s

/-- `memchr (p, c, len)`, with the length as the caller has computed it. -/
def memchr (mem : Bytes) (p : Nat) (c : UInt8) (len : Int) : Checked (Option Nat) :=
  if len < 0 then .error .negativeLength else searchFrom c p len.toNat (mem.drop p)

/-- The offset of the first byte that is not of the kind. -/
def skipFrom (kind : UInt8 → Bool) : Nat → Bytes → Checked Nat
  | p, [] => .error (.outOfBounds p)
  | p, c :: s => if kind c then skipFrom kind (p + 1) s else .ok p

/-- Skips bytes of a kind, and reads the one behind them. -/
def skip (kind : UInt8 → Bool) (mem : Bytes) (p : Nat) : Checked Nat := skipFrom kind p (mem.drop p)

/-- `strtol (p, &endptr, 10)`, byte by byte. -/
def strtol (mem : Bytes) (p : Nat) : Checked (Int × Nat) := do
  let blanks ← skip isSpace mem p
  let c ← load mem blanks
  let start := blanks + (sign [c]).2
  let stop ← skip (Numeral.isDigit 10) mem start
  if stop = start then return (0, p)
  else
    let digits := (mem.drop start).take (stop - start)
    return (clampLong ((sign [c]).1 * Numeral.value 10 digits), stop)

/-- The bytes that `memcpy` reads. -/
def copy (mem : Bytes) (p n : Nat) : Checked Bytes :=
  if p + n ≤ mem.length ∨ n = 0 then .ok ((mem.drop p).take n)
  else .error (.outOfBounds (max p mem.length))

section

variable {mem s t : Bytes} {p : Nat} {c : UInt8}

theorem load_eq (h : mem.drop p = c :: s) : load mem p = .ok c := by
  rw [load, h]

theorem searchFrom_eq (c : UInt8) : ∀ (p : Nat) (s t : Bytes),
    searchFrom c p s.length (s ++ t) = .ok ((CLib.memchr c s).map (p + ·))
  | p, [], t => rfl
  | p, x :: s, t => by
    rw [List.length_cons, List.cons_append, searchFrom, CLib.memchr, List.findIdx?_cons]
    by_cases hx : x = c
    · rw [if_pos hx, if_pos (beq_iff_eq.mpr hx)]
      rfl
    · have ih := searchFrom_eq c (p + 1) s t
      rw [if_neg hx, if_neg (by simpa using hx), ih, Option.map_map, CLib.memchr]
      congr 2
      funext k
      show p + 1 + k = p + (k + 1)
      omega

/-- A search inside of the memory. -/
theorem memchr_eq (h : mem.drop p = s ++ t) (c : UInt8) :
    memchr mem p c s.length = .ok ((CLib.memchr c s).map (p + ·)) := by
  rw [memchr, if_neg (by omega), Int.toNat_natCast, h, searchFrom_eq]

theorem skipFrom_eq {kind : UInt8 → Bool} (hc : kind c = false) : ∀ (p : Nat) (t s : Bytes),
    skipFrom kind p (t ++ c :: s) = .ok (p + (t.takeWhile kind).length)
  | p, [], s => by
    rw [List.nil_append, skipFrom, hc]
    rfl
  | p, x :: t, s => by
    have ih := skipFrom_eq hc (p + 1) t s
    rw [List.cons_append, skipFrom]
    cases hx : kind x with
    | true =>
      rw [if_pos rfl, ih, List.takeWhile_cons_of_pos hx, List.length_cons]
      congr 1
      omega
    | false =>
      rw [if_neg Bool.false_ne_true,
        List.takeWhile_cons_of_neg (by rw [hx]; exact Bool.false_ne_true)]
      rfl

theorem skip_eq {kind : UInt8 → Bool} (hc : kind c = false) (h : mem.drop p = t ++ c :: s) :
    skip kind mem p = .ok (p + (t.takeWhile kind).length) := by
  rw [skip, h, skipFrom_eq hc]

/-- The sign is decided by the first byte. -/
theorem sign_head (x : UInt8) (s : Bytes) : sign (x :: s) = sign [x] := rfl

/-- In front of a byte that ends a number, `strtol` stays inside. -/
theorem strtol_eq (hc : Stops c) (h : mem.drop p = t ++ c :: s) :
    strtol mem p = .ok ((CLib.strtol t).1, p + (CLib.strtol t).2) := by
  obtain ⟨u, hu⟩ : ∃ u, u = t.drop (t.takeWhile isSpace).length := ⟨_, rfl⟩
  obtain ⟨x, rest, hx⟩ : ∃ x rest, u ++ c :: s = x :: rest :=
    List.exists_cons_of_ne_nil (List.append_ne_nil_of_right_ne_nil _ (List.cons_ne_nil _ _))
  have hblanks : (t.takeWhile isSpace).length ≤ t.length := (List.takeWhile_sublist _).length_le
  have hdrop : mem.drop (p + (t.takeWhile isSpace).length) = u ++ c :: s := by
    rw [← List.drop_drop, h, List.drop_append_of_le_length hblanks, hu]
  have hload : load mem (p + (t.takeWhile isSpace).length) = .ok x := load_eq (hdrop.trans hx)
  have hsign : sign [x] = sign u := by
    rw [← sign_head x rest, ← hx, sign_append u s hc]
  have hstart : mem.drop (p + (t.takeWhile isSpace).length + (sign u).2) =
      u.drop (sign u).2 ++ c :: s := by
    rw [← List.drop_drop, hdrop, List.drop_append_of_le_length (sign_le u)]
  have hdigits : t.drop ((t.takeWhile isSpace).length + (sign u).2) = u.drop (sign u).2 := by
    rw [hu, List.drop_drop]
  have hstop := skip_eq hc.2.2.2 hstart
  rw [strtol, skip_eq hc.1 h]
  simp only [bind, Except.bind, hload, hsign, hstop]
  rw [CLib.strtol]
  simp only [← hu, hdigits]
  generalize hds : (u.drop (sign u).2).takeWhile (Numeral.isDigit 10) = digits
  by_cases hnil : digits = []
  · rw [if_pos (by rw [hnil]; rfl), if_pos hnil]
    rfl
  · have hpos : 0 < digits.length := List.length_pos_iff.mpr hnil
    obtain ⟨after, hafter⟩ := List.takeWhile_prefix (Numeral.isDigit 10) (l := u.drop (sign u).2)
    rw [hds] at hafter
    rw [if_neg (by omega), if_neg hnil, Nat.add_sub_cancel_left, hstart, ← hafter,
      List.append_assoc, List.take_left]
    simp only [pure, Except.pure, Except.ok.injEq, Prod.mk.injEq, true_and]
    omega

theorem copy_fits {n : Nat} (h : p + n ≤ mem.length) : copy mem p n = .ok ((mem.drop p).take n) :=
  if_pos (.inl h)

theorem copy_eq (h : mem.drop p = s ++ t) : copy mem p s.length = .ok s := by
  have hfits : p + s.length ≤ mem.length ∨ s.length = 0 := by
    have hlength := congrArg List.length h
    rw [List.length_drop, List.length_append] at hlength
    omega
  rw [copy, if_pos hfits, h, List.take_left]

end

end CheckedMemory
