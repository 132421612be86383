import CourseWork.Lib.CLib

/-!
# HTTP responses

What a client makes of the bytes of a response that ends with the connection: the status line,
the fields of the header, and a body of the length that the header tells.
-/

namespace Http
open CLib

/-- A response. -/
structure Message where
  status : Nat
  reason : Bytes
  fields : List (Bytes × Bytes)
  body : Bytes
  deriving DecidableEq

/-! ## Reading -/

/-- A line and what is behind it. -/
def line : Bytes → Option (Bytes × Bytes)
  | 13 :: 10 :: rest => some ([], rest)
  | [] => none
  | c :: rest => (line rest).map fun found => (c :: found.1, found.2)

/-- The status and the reason. -/
def statusLine (s : Bytes) : Option (Nat × Bytes) :=
  let digits := (s.drop 9).takeWhile (Numeral.isDigit 10)
  if s.take 9 = ascii "HTTP/1.1 " ∧ digits.length = 3 ∧ (s.drop 12).head? = some 32 then
    some (Numeral.value 10 digits, s.drop 13)
  else none

/-- A name, a colon, and a value behind spaces. -/
def field (s : Bytes) : Option (Bytes × Bytes) :=
  let name := s.takeWhile (· != 58)
  if name = [] ∨ name.length = s.length then none
  else some (name, (s.drop (name.length + 1)).dropWhile (· == 32))

/-- The fields up to the empty line, and what is behind it. -/
def fields : Nat → Bytes → Option (List (Bytes × Bytes) × Bytes)
  | 0, _ => none
  | n + 1, s =>
    match line s with
    | none => none
    | some ([], rest) => some ([], rest)
    | some (text, rest) =>
      match field text, fields n rest with
      | some f, some (fs, body) => some (f :: fs, body)
      | _, _ => none

/-- `Content-Length`. -/
def contentLength (fs : List (Bytes × Bytes)) : Option Nat :=
  match fs.lookup (ascii "Content-Length") with
  | none => none
  | some value =>
    if value ≠ [] ∧ value.all (Numeral.isDigit 10) then some (Numeral.value 10 value) else none

/-- A whole response: nothing is missing, and nothing is left. -/
def parse (s : Bytes) : Option Message :=
  match line s with
  | none => none
  | some (start, rest) =>
    match statusLine start, fields rest.length rest with
    | some (status, reason), some (fs, body) =>
      if contentLength fs = some body.length then some ⟨status, reason, fs, body⟩ else none
    | _, _ => none

/-! ## Writing -/

/-- A line. -/
def crlf (text : Bytes) : Bytes := text ++ [13, 10]

/-- A field. -/
def fieldLine (f : Bytes × Bytes) : Bytes := crlf (f.1 ++ 58 :: 32 :: f.2)

/-- The bytes in front of the body. -/
def head (m : Message) : Bytes :=
  crlf (ascii "HTTP/1.1 " ++ Numeral.print 10 m.status ++ 32 :: m.reason) ++
    m.fields.flatMap fieldLine ++ crlf []

/-- A value that is read back: the spaces in front of it are not part of it. -/
def PlainValue (s : Bytes) : Prop := 13 ∉ s ∧ s.head? ≠ some 32

instance (s : Bytes) : Decidable (PlainValue s) := inferInstanceAs (Decidable (_ ∧ _))

/-- A name that ends at the first colon of its line. -/
def PlainName (s : Bytes) : Prop := s ≠ [] ∧ 58 ∉ s ∧ 13 ∉ s

instance (s : Bytes) : Decidable (PlainName s) := inferInstanceAs (Decidable (_ ∧ _))

/-- A field that is one line. -/
structure PlainField (f : Bytes × Bytes) : Prop where
  name : PlainName f.1
  value : PlainValue f.2

/-- A response whose lines are lines and whose length is told. -/
structure Message.Plain (m : Message) : Prop where
  status : 100 ≤ m.status ∧ m.status < 1000
  reason : 13 ∉ m.reason
  fields : ∀ f ∈ m.fields, PlainField f
  length : m.fields.lookup (ascii "Content-Length") = some (Numeral.print 10 m.body.length)

section RoundTrip

theorem line_crlf {text : Bytes} (h : 13 ∉ text) (rest : Bytes) :
    line (crlf text ++ rest) = some (text, rest) := by
  induction text with
  | nil => rfl
  | cons c text ih =>
    rw [List.mem_cons, not_or] at h
    obtain ⟨hc, htext⟩ := h
    have hline : line (c :: (crlf text ++ rest)) =
        (line (crlf text ++ rest)).map fun found => (c :: found.1, found.2) := by
      rw [line]
      intro rest' heq
      exact absurd heq.symm hc
    show line (c :: (crlf text ++ rest)) = _
    rw [hline, ih htext]
    rfl

theorem field_text {f : Bytes × Bytes} (h : PlainField f) :
    field (f.1 ++ 58 :: 32 :: f.2) = some f := by
  have hname : (f.1 ++ 58 :: 32 :: f.2).takeWhile (· != 58) = f.1 := by
    rw [takeWhile_append_stop _ _ (by decide), List.takeWhile_eq_self_iff]
    exact fun c hc => bne_iff_ne.mpr fun heq => h.name.2.1 (heq ▸ hc)
  have hvalue : ((f.1 ++ 58 :: 32 :: f.2).drop (f.1.length + 1)).dropWhile (· == 32) = f.2 := by
    have hhead := h.value.2
    rw [drop_delimiter, List.dropWhile_cons_of_pos (by decide)]
    cases hf : f.2 with
    | nil => rfl
    | cons c rest =>
      rw [hf] at hhead
      exact List.dropWhile_cons_of_neg fun heq => hhead (congrArg some (eq_of_beq heq))
  rw [field, hname, if_neg, hvalue]
  rintro (hnil | hlength)
  · exact h.name.1 hnil
  · rw [List.length_append, List.length_cons] at hlength
    omega

theorem fields_flatMap {body : Bytes} : ∀ {fs : List (Bytes × Bytes)} {n : Nat},
    (∀ f ∈ fs, PlainField f) → fs.length < n →
      fields n (fs.flatMap fieldLine ++ (crlf [] ++ body)) = some (fs, body)
  | [], n + 1, _, _ => rfl
  | f :: fs, n + 1, h, hn => by
    obtain ⟨hf, hfs⟩ := List.forall_mem_cons.mp h
    have hline : 13 ∉ f.1 ++ 58 :: 32 :: f.2 := by
      rw [List.mem_append, List.mem_cons, List.mem_cons]
      rintro (hmem | heq | heq | hmem)
      · exact hf.name.2.2 hmem
      · exact absurd heq (by decide)
      · exact absurd heq (by decide)
      · exact hf.value.1 hmem
    rw [List.flatMap_cons, List.append_assoc, fieldLine, fields, line_crlf hline]
    cases htext : f.1 ++ 58 :: 32 :: f.2 with
    | nil => exact absurd htext (by simp)
    | cons c text =>
      dsimp only
      rw [← htext, field_text hf, fields_flatMap hfs (Nat.lt_of_succ_lt_succ hn)]

theorem contentLength_print {fs : List (Bytes × Bytes)} {n : Nat}
    (h : fs.lookup (ascii "Content-Length") = some (Numeral.print 10 n)) :
    contentLength fs = some n := by
  rw [contentLength, h]
  dsimp only
  have hdigits : (Numeral.print 10 n).all (Numeral.isDigit 10) = true :=
    List.all_eq_true.mpr fun c hc => Numeral.isDigit_of_mem_print (by decide) (by decide) hc
  rw [if_pos ⟨Numeral.print_ne_nil n, hdigits⟩, Numeral.value_print (by decide) (by decide)]

theorem statusLine_text {status : Nat} {reason : Bytes} (h : 100 ≤ status ∧ status < 1000) :
    statusLine (ascii "HTTP/1.1 " ++ Numeral.print 10 status ++ 32 :: reason) =
      some (status, reason) := by
  have hversion : (ascii "HTTP/1.1 ").length = 9 := rfl
  have hdigits : ∀ c ∈ Numeral.print 10 status, Numeral.isDigit 10 c = true := fun c hc =>
    Numeral.isDigit_of_mem_print (by decide) (by decide) hc
  have hthree : (Numeral.print 10 status).length = 3 := by
    have hle := Numeral.length_print_le (b := 10) (w := 3) (by decide) (by decide) h.2
    have hlt := (Nat.lt_digits_length_iff (b := 10) (k := 2) (by decide) status).mpr h.1
    rw [Numeral.print, if_neg (by omega), List.length_map, List.length_reverse] at hle ⊢
    omega
  have htake : (Numeral.print 10 status ++ 32 :: reason).takeWhile (Numeral.isDigit 10) =
      Numeral.print 10 status := by
    rw [takeWhile_append_stop _ _ (by decide), List.takeWhile_eq_self_iff]
    exact hdigits
  have hspace : (ascii "HTTP/1.1 " ++ (Numeral.print 10 status ++ 32 :: reason)).drop 12 =
      32 :: reason := by
    rw [← List.append_assoc]
    exact List.drop_left' (by rw [List.length_append, hversion, hthree])
  rw [statusLine, List.append_assoc, List.take_left' hversion, List.drop_left' hversion, htake,
    ← List.drop_drop (i := 1) (j := 12), hspace]
  rw [if_pos ⟨rfl, hthree, rfl⟩, Numeral.value_print (by decide) (by decide)]
  rfl

theorem length_le_flatMap (fs : List (Bytes × Bytes)) :
    fs.length ≤ (fs.flatMap fieldLine).length := by
  induction fs with
  | nil => exact Nat.zero_le _
  | cons f fs ih =>
    rw [List.flatMap_cons, List.length_append, List.length_cons, fieldLine, crlf,
      List.length_append]
    show _ ≤ _ + 2 + _
    omega

/-- A response is read back if its body is there, and missed if more or less is there. -/
theorem parse_head {m : Message} (h : m.Plain) (body : Bytes) :
    parse (head m ++ body) =
      if body.length = m.body.length then some { m with body := body } else none := by
  have hstart : 13 ∉ ascii "HTTP/1.1 " ++ Numeral.print 10 m.status ++ 32 :: m.reason := by
    rw [List.mem_append, List.mem_append, List.mem_cons]
    rintro ((hmem | hmem) | heq | hmem)
    · exact absurd hmem (by decide)
    · exact absurd (Numeral.isDigit_of_mem_print (by decide) (by decide) hmem) (by decide)
    · exact absurd heq (by decide)
    · exact h.reason hmem
  have hcount := length_le_flatMap m.fields
  rw [head, List.append_assoc, List.append_assoc, parse, line_crlf hstart]
  dsimp only
  rw [statusLine_text h.status, fields_flatMap h.fields (by
    rw [List.length_append, List.length_append]
    show _ < _ + (2 + _)
    omega)]
  dsimp only
  rw [contentLength_print h.length]
  simp only [Option.some_inj, eq_comm]

end RoundTrip

end Http
