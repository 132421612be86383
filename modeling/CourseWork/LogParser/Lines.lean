import CourseWork.LogParser.Parser
import CourseWork.Lib.Stdio

/-!
# Fields of a log line

`parse_log_line` on the rendered records of a log. The scanner skips the first word of the
request without looking for the quote that closes the request, so that requests without a space
shift the fields behind them.
-/

namespace CourseWork.LogParser
open CLib

/-! ## Records -/

/-- A record of a log. -/
structure Record where
  ip : Bytes
  user : Bytes
  time : Bytes
  request : Bytes
  status : Bytes
  bytes : Bytes
  referer : Bytes
  rest : Bytes

/-- What stands behind the request: `status bytes "referer"` and the rest. -/
def Record.fields (r : Record) : Bytes :=
  r.status ++ 32 :: (r.bytes ++ 32 :: 34 :: (r.referer ++ 34 :: r.rest))

/-- The line `ip - user [time] "request" status bytes "referer"` and the rest. -/
def Record.line (r : Record) : Bytes :=
  r.ip ++ 32 :: 45 :: 32 :: (r.user ++ 32 :: 91 :: (r.time ++ 93 :: 32 :: 34 ::
    (r.request ++ 34 :: 32 :: r.fields)))

/-- A record whose line is a C string with these fields. -/
structure Record.WellFormed (r : Record) : Prop where
  ip : IsWord r.ip
  user : IsWord r.user
  status : IsWord r.status
  bytes_ne : r.bytes ≠ []
  bytes_digits : ∀ c ∈ r.bytes, Numeral.isDigit 10 c = true
  bytes_lt : Numeral.value 10 r.bytes < 2 ^ 63
  time : 93 ∉ r.time
  request : 34 ∉ r.request
  referer : 34 ∉ r.referer
  nul : 0 ∉ r.line

/-- The referer of the record; dashes stand for none. -/
def Record.refererText (r : Record) : Option Bytes :=
  if r.referer.all (· == 45) then none else some r.referer

/-- The text starts with a word. -/
def StartsWithWord (s : Bytes) : Prop := ∃ c ∈ s.head?, isSpace c = false

/-- The line is parsed as its record says: with the second word of the request, or not at all
if there is none. -/
structure Record.FieldExact (r : Record) : Prop where
  words : ∀ first url more, words r.request = first :: url :: more → StartsWithWord r.request →
    parseLogLine r.line = some ⟨url, Numeral.value 10 r.bytes, r.refererText⟩
  short : (CLib.words r.request).length < 2 → parseLogLine r.line = none

/-! ## Skipping -/

section Skipping

variable {w s : Bytes} {c : UInt8}

theorem skipChars_append (hw : ∀ d ∈ w, isSpace d = false) (hc : isSpace c = true) (s : Bytes) :
    skipChars (w ++ c :: s) = c :: s := by
  rw [skipChars, List.dropWhile_append_of_pos fun d hd => by rw [hw d hd]; rfl,
    List.dropWhile_cons_of_neg (by rw [hc]; exact Bool.false_ne_true)]

theorem skipSpaces_cons (hc : isSpace c = true) (s : Bytes) :
    skipSpaces (c :: s) = skipSpaces s := List.dropWhile_cons_of_pos hc

theorem skipSpaces_of_not (hc : isSpace c = false) (s : Bytes) : skipSpaces (c :: s) = c :: s :=
  List.dropWhile_cons_of_neg (by rw [hc]; exact Bool.false_ne_true)

theorem skipSpaces_word (hw : IsWord w) (s : Bytes) : skipSpaces (w ++ s) = w ++ s := by
  obtain ⟨c, w', rfl⟩ := List.exists_cons_of_ne_nil hw.1
  exact skipSpaces_of_not (hw.2 c List.mem_cons_self) _

/-- Over a word and the space behind it. -/
theorem skip_word (hw : IsWord w) (s : Bytes) :
    skipSpaces (skipChars (w ++ 32 :: s)) = skipSpaces s := by
  rw [skipChars_append hw.2 (by decide), skipSpaces_cons (by decide)]

theorem dropWhile_append_stop {p : UInt8 → Bool} (t r : Bytes) (hc : p c = false) :
    (t ++ c :: r).dropWhile p = t.dropWhile p ++ c :: r := by
  induction t with
  | nil => exact List.dropWhile_cons_of_neg (by rw [hc]; exact Bool.false_ne_true)
  | cons d t ih =>
    rw [List.cons_append, List.dropWhile_cons, List.dropWhile_cons, ih]
    split
    · rfl
    · rfl

theorem ne_of_notMem (h : c ∉ w) : ∀ d ∈ w, (d != c) = true :=
  fun _ hd => bne_iff_ne.mpr (ne_of_mem_of_not_mem hd h)

/-- Up to a byte that is not in the text before it. -/
theorem dropWhile_ne_append (h : c ∉ w) (s : Bytes) :
    (w ++ c :: s).dropWhile (· != c) = c :: s := by
  rw [List.dropWhile_append_of_pos (ne_of_notMem h),
    List.dropWhile_cons_of_neg (by simp)]

theorem takeWhile_ne_append (h : c ∉ w) (s : Bytes) :
    (w ++ c :: s).takeWhile (· != c) = w := by
  rw [List.takeWhile_append_of_pos (ne_of_notMem h),
    List.takeWhile_cons_of_neg (by simp), List.append_nil]

end Skipping

/-! ## Behind the request -/

/-- `parse_log_line` from the request on: `p` is behind its opening quote. -/
def parseRequest (p : Bytes) : Option LogLine :=
  let p := skipSpaces (skipChars p)
  let url := p.takeWhile fun c => !isSpace c && c != 34
  let p := p.dropWhile fun c => !isSpace c && c != 34
  if url = [] then none
  else
    let p := p.dropWhile (· != 34)
    if p = [] then none
    else parseBytes url p.tail

/-- The fields in front of the request are skipped. -/
theorem parseLogLine_line {r : Record} (h : r.WellFormed) :
    parseLogLine r.line = parseRequest (r.request ++ 34 :: 32 :: r.fields) := by
  have hdash : IsWord [45] := ⟨List.cons_ne_nil _ _, List.forall_mem_singleton.mpr rfl⟩
  have hstart : skipSpaces (skipChars (skipSpaces (skipChars (skipSpaces (skipChars r.line))))) =
      91 :: (r.time ++ 93 :: 32 :: 34 :: (r.request ++ 34 :: 32 :: r.fields)) := by
    rw [Record.line, skip_word h.ip, skipSpaces_of_not (by decide),
      show ∀ s : Bytes, 45 :: 32 :: s = [45] ++ 32 :: s from fun _ => rfl, skip_word hdash,
      skipSpaces_word h.user, skip_word h.user, skipSpaces_of_not (by decide)]
  have htime : (91 :: (r.time ++ 93 :: 32 :: 34 :: (r.request ++ 34 :: 32 :: r.fields))).dropWhile
      (· != 93) = 93 :: 32 :: 34 :: (r.request ++ 34 :: 32 :: r.fields) := by
    rw [List.dropWhile_cons_of_pos (by decide), dropWhile_ne_append h.time]
  rw [parseLogLine, hstart]
  simp only [htime]
  rw [if_neg (by simp), if_neg (List.cons_ne_nil _ _), List.tail_cons, skipSpaces_cons (by decide),
    skipSpaces_of_not (by decide), if_neg (by simp)]
  rfl

theorem Record.WellFormed.bytes_word {r : Record} (h : r.WellFormed) : IsWord r.bytes :=
  ⟨h.bytes_ne, fun c hc => not_isSpace_digit (h.bytes_digits c hc)⟩

/-- The digits that are cut off make the number smaller, unless it is 0. -/
theorem value_take (ds : Bytes) (n : Nat) :
    Numeral.value 10 (ds.take n) ≤ Numeral.value 10 ds ∧
      (Numeral.value 10 (ds.take n) = Numeral.value 10 ds ↔
        ds.length ≤ n ∨ Numeral.value 10 ds = 0) := by
  have hsplit : Numeral.value 10 ds = Numeral.value 10 (ds.take n) * 10 ^ (ds.drop n).length +
      Numeral.value 10 (ds.drop n) := by
    rw [← Numeral.value_append, List.take_append_drop]
  rcases Nat.lt_or_ge n ds.length with hlt | hge
  · obtain ⟨k, hk⟩ : ∃ k, (ds.drop n).length = k + 1 :=
      Nat.exists_eq_add_of_le' (by rw [List.length_drop]; omega)
    have hpow : 0 < 10 ^ k := Nat.pow_pos (by decide)
    have hlong : 10 * Numeral.value 10 (ds.take n) ≤
        Numeral.value 10 (ds.take n) * 10 ^ (k + 1) := by
      rw [Nat.pow_succ, Nat.mul_comm 10, ← Nat.mul_assoc]
      exact Nat.mul_le_mul_right 10 (Nat.le_mul_of_pos_right _ hpow)
    rw [hk] at hsplit
    refine ⟨by omega, fun heq => .inr (by omega), fun h => ?_⟩
    rcases h with h | h
    · omega
    · omega
  · rw [List.take_of_length_le hge]
    exact ⟨Nat.le_refl _, fun _ => .inl hge, fun _ => rfl⟩

/-- Behind the closing quote the fields are read. Only the first digits of the bytes count. -/
theorem parseBytes_fields {r : Record} (h : r.WellFormed) (url : Bytes) :
    parseBytes url (32 :: r.fields) =
      some ⟨url, Numeral.value 10 (r.bytes.take (bytesLen - 1)), r.refererText⟩ := by
  have hstart : skipSpaces (skipChars (skipSpaces (32 :: r.fields))) =
      r.bytes ++ 32 :: 34 :: (r.referer ++ 34 :: r.rest) := by
    rw [skipSpaces_cons (by decide), Record.fields, skipSpaces_word h.status, skip_word h.status,
      skipSpaces_word h.bytes_word]
  have hword : (r.bytes ++ 32 :: 34 :: (r.referer ++ 34 :: r.rest)).takeWhile (!isSpace ·) =
      r.bytes := by
    rw [List.takeWhile_append_of_pos fun c hc => by rw [h.bytes_word.2 c hc]; rfl,
      List.takeWhile_cons_of_neg (by decide), List.append_nil]
  have hnext : skipSpaces (skipChars (r.bytes ++ 32 :: 34 :: (r.referer ++ 34 :: r.rest))) =
      34 :: (r.referer ++ 34 :: r.rest) := by
    rw [skip_word h.bytes_word, skipSpaces_of_not (by decide)]
  have hne : r.bytes.take (bytesLen - 1) ≠ [] := by
    obtain ⟨c, cs, hcs⟩ := List.exists_cons_of_ne_nil h.bytes_ne
    rw [hcs]
    exact List.cons_ne_nil _ _
  have hvalue : (strtol (r.bytes.take (bytesLen - 1))).1 =
      Numeral.value 10 (r.bytes.take (bytesLen - 1)) := by
    have hle := (value_take r.bytes (bytesLen - 1)).1
    have hlt := h.bytes_lt
    rw [strtol_digits hne fun c hc => h.bytes_digits c (List.mem_of_mem_take hc)]
    exact clampLong_eq (n := (Numeral.value 10 (r.bytes.take (bytesLen - 1)) : Int))
      (by rw [longMin]; omega) (by rw [longMax]; omega)
  simp only [parseBytes, hstart, hword, hnext, hvalue, List.head?_cons, List.tail_cons,
    takeWhile_ne_append h.referer, dropWhile_ne_append h.referer]
  rw [if_neg (by simp), if_neg (List.cons_ne_nil _ _), Record.refererText]
  split
  · rfl
  · rfl

/-! ## The request -/

/-- The text from its third word on. -/
def fromThirdWord (s : Bytes) : Bytes :=
  skipSpaces (skipChars (skipSpaces (skipChars (skipSpaces s))))

/-- The third word starts with a quote, and no other one follows. -/
def Unclosed (s : Bytes) : Prop :=
  (fromThirdWord s).head? = some 34 ∧ 34 ∉ (fromThirdWord s).tail

/-- A quote that is not closed is all that `parse_log_line` refuses behind the request. -/
theorem parseBytes_eq_none_iff (url s : Bytes) : parseBytes url s = none ↔ Unclosed s := by
  have hclosed : ∀ t : Bytes, t.dropWhile (· != 34) = [] ↔ 34 ∉ t := by
    intro t
    rw [List.dropWhile_eq_nil_iff]
    constructor
    · exact fun hall hmem => absurd (hall 34 hmem) (by decide)
    · exact fun hmem => ne_of_notMem hmem
  rw [Unclosed, ← hclosed, fromThirdWord]
  simp only [parseBytes]
  split
  · next hhead => exact iff_of_false nofun fun h => hhead h.1
  · next hhead =>
    rw [ne_eq, Decidable.not_not] at hhead
    rw [hhead]
    split
    · next hnil => exact iff_of_true rfl ⟨rfl, hnil⟩
    · next hnil =>
      refine iff_of_false ?_ fun h => hnil h.2
      split
      · exact nofun
      · exact nofun

/-- The bytes of a url. -/
def isUrlByte (c : UInt8) : Bool := !isSpace c && c != 34

theorem takeWhile_congr {p q : UInt8 → Bool} {s : Bytes} (h : ∀ c ∈ s, p c = q c) :
    s.takeWhile p = s.takeWhile q := by
  induction s with
  | nil => rfl
  | cons c s ih =>
    obtain ⟨hc, hs⟩ := List.forall_mem_cons.mp h
    rw [List.takeWhile_cons, List.takeWhile_cons, hc, ih hs]

theorem takeWhile_isUrlByte {s : Bytes} (h : 34 ∉ s) :
    s.takeWhile isUrlByte = s.takeWhile (!isSpace ·) :=
  takeWhile_congr fun c hc => by rw [isUrlByte, ne_of_notMem h c hc, Bool.and_true]

theorem takeWhile_isUrlByte_word {s : Bytes} (h : IsWord s) :
    s.takeWhile isUrlByte = s.takeWhile (· != 34) :=
  takeWhile_congr fun c hc => by rw [isUrlByte, h.2 c hc, Bool.not_false, Bool.true_and]

/-- The search for a quote does not stop in a url. -/
theorem dropWhile_isUrlByte (s : Bytes) :
    (s.dropWhile isUrlByte).dropWhile (· != 34) = s.dropWhile (· != 34) := by
  induction s with
  | nil => rfl
  | cons c s ih =>
    rw [List.dropWhile_cons]
    split
    · next hc =>
      have hne : (c != 34) = true := (Bool.and_eq_true_iff.mp hc).2
      rw [ih, List.dropWhile_cons, if_pos hne]
    · rfl

theorem ne_nil_of_mem_words {s word : Bytes} (h : word ∈ words s) : word ≠ [] :=
  of_decide_eq_true (List.mem_filter.mp h).2

theorem takeWhile_no_space (s : Bytes) : ∀ c ∈ s.takeWhile (!isSpace ·), isSpace c = false := by
  intro c hc
  have hc := List.mem_takeWhile_imp hc
  rwa [Bool.not_eq_true'] at hc

/-- A text with a space in it, cut at the first one. -/
theorem exists_append_space {s : Bytes} (h : ∃ c ∈ s, isSpace c = true) :
    ∃ c tail, isSpace c = true ∧ s.takeWhile (!isSpace ·) ++ c :: tail = s := by
  have hne : s.dropWhile (!isSpace ·) ≠ [] := by
    rw [ne_eq, List.dropWhile_eq_nil_iff]
    obtain ⟨c, hc, hspace⟩ := h
    exact fun hall => absurd (hall c hc) (by rw [hspace]; exact Bool.false_ne_true)
  obtain ⟨c, tail, hdrop⟩ := List.exists_cons_of_ne_nil hne
  refine ⟨c, tail, ?_, ?_⟩
  · have hhead := List.head_dropWhile_not (!isSpace ·) hne
    simp only [hdrop, List.head_cons, Bool.not_eq_false'] at hhead
    exact hhead
  · rw [← hdrop, List.takeWhile_append_dropWhile]

/-- The first word stands between the leading spaces and the next space. -/
theorem head?_words (s : Bytes) : (words s).head? =
    if (skipSpaces s).takeWhile (!isSpace ·) = [] then none
    else some ((skipSpaces s).takeWhile (!isSpace ·)) := by
  by_cases hnil : skipSpaces s = []
  · have hwords : words s = [] := by
      rw [← words_dropWhile, ← skipSpaces, hnil]
      rfl
    rw [hnil, hwords]
    rfl
  · obtain ⟨more, hwords⟩ := words_eq_cons hnil
    rw [← skipSpaces] at hwords
    have hne : (skipSpaces s).takeWhile (!isSpace ·) ≠ [] :=
      ne_nil_of_mem_words (hwords ▸ List.mem_cons_self)
    rw [hwords, if_neg hne]
    rfl

/-- The url is the first word behind the first space of the request. -/
theorem parseRequest_space {request : Bytes} (hquote : 34 ∉ request)
    (hspace : ∃ c ∈ request, isSpace c = true) (s : Bytes) :
    ∃ tail, words request = words (request.takeWhile (!isSpace ·)) ++ words tail ∧
      parseRequest (request ++ 34 :: s) = (words tail).head?.bind fun url => parseBytes url s := by
  obtain ⟨c, tail, hc, hsplit⟩ := exists_append_space hspace
  have hword := takeWhile_no_space request
  generalize request.takeWhile (!isSpace ·) = w at hsplit hword
  subst hsplit
  have htail : 34 ∉ skipSpaces tail := fun hmem =>
    hquote (List.mem_append_right _ (List.mem_cons_of_mem _
      ((List.dropWhile_suffix _).subset hmem)))
  have hskip : skipSpaces (skipChars (w ++ c :: tail ++ 34 :: s)) = skipSpaces tail ++ 34 :: s := by
    rw [List.append_assoc, List.cons_append, skipChars_append hword hc, skipSpaces_cons hc]
    exact dropWhile_append_stop tail s (by decide)
  have hurl : (skipSpaces tail ++ 34 :: s).takeWhile isUrlByte =
      (skipSpaces tail).takeWhile (!isSpace ·) := by
    rw [takeWhile_append_stop _ _ (by decide), takeWhile_isUrlByte htail]
  have hbehind : ((skipSpaces tail ++ 34 :: s).dropWhile isUrlByte).dropWhile (· != 34) =
      34 :: s := by
    rw [dropWhile_isUrlByte, dropWhile_ne_append htail]
  refine ⟨tail, words_append_cons hc w tail, ?_⟩
  rw [parseRequest, hskip, head?_words]
  change (if (skipSpaces tail ++ 34 :: s).takeWhile isUrlByte = [] then none
    else if ((skipSpaces tail ++ 34 :: s).dropWhile isUrlByte).dropWhile (· != 34) = [] then none
      else parseBytes ((skipSpaces tail ++ 34 :: s).takeWhile isUrlByte)
        (((skipSpaces tail ++ 34 :: s).dropWhile isUrlByte).dropWhile (· != 34)).tail) = _
  rw [hurl, hbehind, if_neg (List.cons_ne_nil _ _), List.tail_cons]
  split
  · rfl
  · rfl

/-- Without a space in it the status is taken for the url, up to a quote, and the fields are
looked for behind the next quote. -/
theorem parseRequest_no_space {r : Record} (h : r.WellFormed)
    (hspace : ∀ c ∈ r.request, isSpace c = false) :
    parseRequest (r.request ++ 34 :: 32 :: r.fields) =
      if r.status.head? = some 34 then none
      else parseBytes (r.status.takeWhile (· != 34)) (r.fields.dropWhile (· != 34)).tail := by
  have hword : ∀ c ∈ r.request ++ [34], isSpace c = false :=
    List.forall_mem_append.mpr ⟨hspace, List.forall_mem_singleton.mpr rfl⟩
  have hskip : skipSpaces (skipChars (r.request ++ 34 :: 32 :: r.fields)) = r.fields := by
    rw [List.append_cons, skipChars_append hword (by decide), skipSpaces_cons (by decide)]
    exact skipSpaces_word h.status _
  have hurl : r.fields.takeWhile isUrlByte = r.status.takeWhile (· != 34) := by
    rw [Record.fields, takeWhile_append_stop _ _ (by decide), takeWhile_isUrlByte_word h.status]
  have hbehind : r.fields.dropWhile (· != 34) ≠ [] := by
    rw [ne_eq, List.dropWhile_eq_nil_iff]
    have hmem : 34 ∈ r.fields :=
      List.mem_append_right _ (.tail _ (List.mem_append_right _ (.tail _ List.mem_cons_self)))
    exact fun hall => absurd (hall 34 hmem) (by decide)
  rw [parseRequest, hskip]
  change (if r.fields.takeWhile isUrlByte = [] then none
    else if (r.fields.dropWhile isUrlByte).dropWhile (· != 34) = [] then none
      else parseBytes (r.fields.takeWhile isUrlByte)
        ((r.fields.dropWhile isUrlByte).dropWhile (· != 34)).tail) = _
  rw [dropWhile_isUrlByte, hurl, if_neg hbehind]
  obtain ⟨c, cs, hstatus⟩ := List.exists_cons_of_ne_nil h.status.1
  refine if_congr ?_ rfl rfl
  rw [hstatus, List.head?_cons, Option.some.injEq, List.takeWhile_cons]
  by_cases hc : c = 34
  · simp [hc]
  · simp [hc]

/-! ## All records -/

/-- When the line of a record is parsed as the record says. -/
structure Record.Parses (r : Record) : Prop where
  /-- The digits of the bytes are not cut off. -/
  words : 2 ≤ (words r.request).length → StartsWithWord r.request →
    r.bytes.length < bytesLen ∨ Numeral.value 10 r.bytes = 0
  /-- A request of less than two words has no word behind a space; without a space, the
  fields that are read for it are refused. -/
  short : (CLib.words r.request).length < 2 →
    ((∃ c ∈ r.request, isSpace c = true) → CLib.words r.request ≠ [] → StartsWithWord r.request) ∧
    ((∀ c ∈ r.request, isSpace c = false) →
      r.status.head? = some 34 ∨ Unclosed (r.fields.dropWhile (· != 34)).tail)

section Requests

variable {r : Record}

/-- The first word of a text that has a space, by its start. -/
theorem startsWithWord_iff {s : Bytes} : StartsWithWord s ↔ s.takeWhile (!isSpace ·) ≠ [] := by
  cases s with
  | nil => exact iff_of_false (fun ⟨_, hc, _⟩ => nomatch hc) fun h => h rfl
  | cons c s =>
    have hstart : StartsWithWord (c :: s) ↔ isSpace c = false :=
      ⟨fun ⟨d, hd, hspace⟩ => Option.some.inj hd ▸ hspace, fun hc => ⟨c, rfl, hc⟩⟩
    rw [hstart, List.takeWhile_cons]
    cases isSpace c with
    | true => exact iff_of_false Bool.noConfusion fun h => h rfl
    | false => exact iff_of_true rfl (List.cons_ne_nil _ _)

instance (s : Bytes) : Decidable (StartsWithWord s) := decidable_of_iff _ startsWithWord_iff.symm

/-- The words of a request that has a space, and what is made of its line. -/
theorem parseLogLine_space (h : r.WellFormed) (hspace : ∃ c ∈ r.request, isSpace c = true) :
    ∃ later, words r.request =
        (if StartsWithWord r.request then [r.request.takeWhile (!isSpace ·)] else []) ++ later ∧
      parseLogLine r.line = later.head?.map fun url =>
        ⟨url, Numeral.value 10 (r.bytes.take (bytesLen - 1)), r.refererText⟩ := by
  obtain ⟨tail, hwords, hparse⟩ := parseRequest_space h.request hspace (32 :: r.fields)
  refine ⟨words tail, ?_, ?_⟩
  · rw [hwords, words_of_no_space (takeWhile_no_space r.request)]
    refine congrArg (· ++ words tail) ?_
    by_cases hstart : StartsWithWord r.request
    · rw [if_pos hstart, if_neg (startsWithWord_iff.mp hstart)]
    · rw [if_neg hstart, if_pos (Decidable.not_not.mp (mt startsWithWord_iff.mpr hstart))]
  · rw [parseLogLine_line h, hparse]
    cases (words tail).head? with
    | none => rfl
    | some url => exact parseBytes_fields h url

theorem length_words_of_no_space (h : ∀ c ∈ r.request, isSpace c = false) :
    (words r.request).length < 2 := by
  rw [words_of_no_space h]
  split
  · exact Nat.zero_lt_two
  · exact Nat.one_lt_two

theorem space_or_not (s : Bytes) :
    (∃ c ∈ s, isSpace c = true) ∨ ∀ c ∈ s, isSpace c = false := by
  by_cases h : ∃ c ∈ s, isSpace c = true
  · exact .inl h
  · refine .inr fun c hc => ?_
    exact Bool.eq_false_of_not_eq_true fun hspace => h ⟨c, hc, hspace⟩

/-- A request of two words gives the second one. -/
theorem parseLogLine_words (h : r.WellFormed) {first url : Bytes} {more : List Bytes}
    (hwords : words r.request = first :: url :: more) (hstart : StartsWithWord r.request) :
    parseLogLine r.line =
      some ⟨url, Numeral.value 10 (r.bytes.take (bytesLen - 1)), r.refererText⟩ := by
  rcases space_or_not r.request with hspace | hspace
  · obtain ⟨later, hlater, hparse⟩ := parseLogLine_space h hspace
    rw [if_pos hstart, hwords, List.singleton_append] at hlater
    rw [hparse, ← (List.cons.inj hlater).2]
    rfl
  · have hshort := length_words_of_no_space hspace
    rw [hwords, List.length_cons, List.length_cons] at hshort
    omega

/-- When the line of a request of less than two words is refused. -/
theorem parseLogLine_short (h : r.WellFormed) (hshort : (words r.request).length < 2) :
    parseLogLine r.line = none ↔
      ((∃ c ∈ r.request, isSpace c = true) → words r.request ≠ [] → StartsWithWord r.request) ∧
      ((∀ c ∈ r.request, isSpace c = false) →
        r.status.head? = some 34 ∨ Unclosed (r.fields.dropWhile (· != 34)).tail) := by
  rcases space_or_not r.request with hspace | hspace
  · have hnot : ¬∀ c ∈ r.request, isSpace c = false := fun hall => by
      obtain ⟨c, hc, hcs⟩ := hspace
      rw [hall c hc] at hcs
      cases hcs
    obtain ⟨later, hlater, hparse⟩ := parseLogLine_space h hspace
    rw [hparse, and_iff_left fun hall => absurd hall hnot, forall_prop_of_true hspace]
    by_cases hstart : StartsWithWord r.request
    · -- The only word stands in front of the first space.
      rw [if_pos hstart, List.singleton_append] at hlater
      rw [hlater, List.length_cons] at hshort
      have hnil : later = [] := List.eq_nil_of_length_eq_zero (by omega)
      rw [hnil]
      exact iff_of_true rfl fun _ => hstart
    · rw [if_neg hstart, List.nil_append] at hlater
      rw [hlater]
      cases later with
      | nil => exact iff_of_true rfl fun hne => absurd rfl hne
      | cons url more =>
        exact iff_of_false nofun fun himp => hstart (himp (List.cons_ne_nil _ _))
  · have hnot : ¬∃ c ∈ r.request, isSpace c = true := fun ⟨c, hc, hcs⟩ => by
      rw [hspace c hc] at hcs
      cases hcs
    rw [and_iff_right fun hex => absurd hex hnot, forall_prop_of_true hspace, parseLogLine_line h,
      parseRequest_no_space h hspace]
    split
    · next hquote => exact iff_of_true rfl (.inl hquote)
    · next hquote => rw [parseBytes_eq_none_iff, or_iff_right hquote]

end Requests

/-- `parse_log_line` reads the fields of a record exactly under the condition. -/
theorem parseLogLine_exact_iff (r : Record) (h : r.WellFormed) : r.FieldExact ↔ r.Parses := by
  have hdigits : (Numeral.value 10 (r.bytes.take (bytesLen - 1)) = Numeral.value 10 r.bytes) ↔
      r.bytes.length < bytesLen ∨ Numeral.value 10 r.bytes = 0 := by
    rw [(value_take r.bytes (bytesLen - 1)).2]
    exact or_congr_left Nat.lt_succ_iff.symm
  constructor
  · intro hexact
    refine ⟨fun hlen hstart => ?_, fun hshort => ?_⟩
    · obtain ⟨first, url, more, hwords⟩ : ∃ first url more,
          words r.request = first :: url :: more := by
        rcases hw : words r.request with _ | ⟨first, _ | ⟨url, more⟩⟩
        · rw [hw] at hlen
          cases hlen
        · rw [hw] at hlen
          exact absurd hlen (Nat.not_succ_le_self 1)
        · exact ⟨first, url, more, rfl⟩
      have hline := hexact.words first url more hwords hstart
      rw [parseLogLine_words h hwords hstart] at hline
      exact hdigits.mp (Int.ofNat_inj.mp (congrArg LogLine.bytes (Option.some.inj hline)))
    · exact (parseLogLine_short h hshort).mp (hexact.short hshort)
  · intro hparses
    refine ⟨fun first url more hwords hstart => ?_, fun hshort => ?_⟩
    · have hlen : 2 ≤ (words r.request).length := by
        rw [hwords]
        exact Nat.le_add_left 2 _
      rw [parseLogLine_words h hwords hstart, hdigits.mpr (hparses.words hlen hstart)]
    · exact (parseLogLine_short h hshort).mpr (hparses.short hshort)

/-- A record with a request and a status. -/
def exampleRecord (request status : Bytes) : Record where
  ip := ascii "1.2.3.4"
  user := ascii "-"
  time := ascii "t"
  request := request
  status := status
  bytes := ascii "0"
  referer := ascii "-"
  rest := ascii " \"Mozilla/5.0 (X) Y\""

theorem parseLogLine_exact_get :
    (exampleRecord (ascii "GET /a HTTP/1.1") (ascii "200")).FieldExact := by
  have hform : (exampleRecord (ascii "GET /a HTTP/1.1") (ascii "200")).WellFormed :=
    ⟨by decide +kernel, by decide +kernel, by decide +kernel, by decide +kernel, by decide +kernel,
      by decide +kernel, by decide +kernel, by decide +kernel, by decide +kernel, by decide +kernel⟩
  refine (parseLogLine_exact_iff _ hform).mpr
    ⟨fun _ _ => .inl (by decide +kernel), fun hshort => ?_⟩
  exact absurd hshort (by decide +kernel)

/-- A request of one word: the status is taken for the url. -/
theorem parseLogLine_dash : (exampleRecord (ascii "-") (ascii "400")).WellFormed ∧
    ¬(exampleRecord (ascii "-") (ascii "400")).FieldExact ∧
    parseLogLine (exampleRecord (ascii "-") (ascii "400")).line = some ⟨ascii "400", 0, none⟩ := by
  have hline : parseLogLine (exampleRecord (ascii "-") (ascii "400")).line =
      some ⟨ascii "400", 0, none⟩ := by decide +kernel
  refine ⟨?_, fun hexact => ?_, hline⟩
  · exact ⟨by decide +kernel, by decide +kernel, by decide +kernel, by decide +kernel,
      by decide +kernel, by decide +kernel, by decide +kernel, by decide +kernel, by decide +kernel,
      by decide +kernel⟩
  · have hnone := hexact.short (by decide +kernel)
    rw [hline] at hnone
    cases hnone

end CourseWork.LogParser
