import CourseWork.Lib.Tokens

/-!
# Lines and conversions of `stdio`

`fgets`, the conversions `%s` and `%d` of `sscanf`, and `%d` of `printf`, with what is read
back of what was printed.
-/

namespace CLib

/-! ## Lines -/

/-- `fgets` with a buffer of `n` bytes: the line, and the rest of the file. -/
def fgets (n : Nat) (file : Bytes) : Option (Bytes × Bytes) :=
  if file = [] then none
  else
    let read := file.take (n - 1)
    let line := read.takeWhile (· != 10) ++ (read.dropWhile (· != 10)).take 1
    some (line, file.drop line.length)

/-- What at most `count` calls of `fgets` return. -/
def fgetsLines (n : Nat) : Nat → Bytes → List Bytes
  | 0, _ => []
  | count + 1, file =>
    match fgets n file with
    | none => []
    | some (line, rest) => line :: fgetsLines n count rest

/-- A line that fits is read with its newline. -/
theorem fgets_line {n : Nat} {line : Bytes} (h : 10 ∉ line) (hn : line.length + 2 ≤ n)
    (rest : Bytes) : fgets n (line ++ 10 :: rest) = some (line ++ [10], rest) := by
  have hline : ∀ c ∈ line, (c != 10) = true := fun c hc => bne_iff_ne.mpr fun heq => h (heq ▸ hc)
  obtain ⟨k, hk⟩ := Nat.exists_eq_add_of_le hn
  have hread : (line ++ 10 :: rest).take (n - 1) = line ++ 10 :: rest.take k := by
    have hlen : n - 1 = line.length + (k + 1) := by omega
    rw [hlen, List.take_length_add_append, List.take_succ_cons]
  have hdrop : (line ++ 10 :: rest).drop (line ++ [10]).length = rest := by
    rw [List.length_append, List.length_singleton]
    exact drop_delimiter line 10 rest
  rw [fgets, if_neg (List.append_ne_nil_of_right_ne_nil _ (List.cons_ne_nil _ _))]
  simp only [hread]
  rw [List.takeWhile_append_of_pos hline, List.takeWhile_cons_of_neg (by decide), List.append_nil,
    List.dropWhile_append_of_pos hline, List.dropWhile_cons_of_neg (by decide), List.take_succ_cons,
    List.take_zero, hdrop]

/-- A file of lines that fit is read line by line. -/
theorem fgetsLines_flatten {n : Nat} {lines : List Bytes}
    (h : ∀ line ∈ lines, ∃ text, line = text ++ [10] ∧ 10 ∉ text ∧ text.length + 2 ≤ n) :
    ∀ {count : Nat}, lines.length ≤ count → fgetsLines n count lines.flatten = lines := by
  induction lines with
  | nil =>
    intro count _
    cases count with
    | zero => rfl
    | succ count => rfl
  | cons line lines ih =>
    intro count hcount
    obtain ⟨hline, hlines⟩ := List.forall_mem_cons.mp h
    obtain ⟨text, rfl, hnewline, hlen⟩ := hline
    have hfile : (text ++ [10]) ++ lines.flatten = text ++ 10 :: lines.flatten := by
      rw [List.append_assoc, List.singleton_append]
    cases count with
    | zero => exact absurd hcount (Nat.not_succ_le_zero _)
    | succ count =>
      rw [List.flatten_cons, hfile, fgetsLines, fgets_line hnewline hlen]
      exact congrArg (_ :: ·) (ih hlines (Nat.le_of_succ_le_succ hcount))

/-- The last line is read without a newline. -/
theorem fgets_last {n : Nat} {line : Bytes} (hne : line ≠ []) (h : 10 ∉ line)
    (hn : line.length + 2 ≤ n) : fgets n line = some (line, []) := by
  have hline : ∀ c ∈ line, (c != 10) = true := fun c hc => bne_iff_ne.mpr fun heq => h (heq ▸ hc)
  have hread : line.take (n - 1) = line := List.take_of_length_le (by omega)
  rw [fgets, if_neg hne]
  simp only [hread]
  rw [List.takeWhile_eq_self_iff.mpr hline, List.dropWhile_eq_nil_iff.mpr hline, List.take_nil,
    List.append_nil, List.drop_length]

/-- A line that does not fit is cut. -/
theorem fgets_cut {w : Nat} {file : Bytes} (hne : file ≠ []) (hlen : w ≤ file.length)
    (h : 10 ∉ file.take w) : fgets (w + 1) file = some (file.take w, file.drop w) := by
  have hline : ∀ c ∈ file.take w, (c != 10) = true :=
    fun c hc => bne_iff_ne.mpr fun heq => h (heq ▸ hc)
  rw [fgets, if_neg hne]
  simp only [Nat.add_sub_cancel]
  rw [List.takeWhile_eq_self_iff.mpr hline, List.dropWhile_eq_nil_iff.mpr hline, List.take_nil,
    List.append_nil, List.length_take_of_le hlen]

/-! ## Pieces of a line -/

/-- The pieces of `w` bytes in which a line is read that is longer. -/
def pieces (w : Nat) (line : Bytes) : List Bytes :=
  (List.range ((line.length + w - 1) / w)).map fun i => (line.drop (w * i)).take w

section Pieces

variable {w : Nat} {line : Bytes}

theorem pieces_nil (hw : 0 < w) : pieces w [] = [] := by
  have hcount : ([] : Bytes).length + w - 1 < w := by
    rw [List.length_nil]
    omega
  rw [pieces, Nat.div_eq_of_lt hcount]
  rfl

theorem pieces_eq_cons (hw : 0 < w) (hne : line ≠ []) :
    pieces w line = line.take w :: pieces w (line.drop w) := by
  have hpos := List.length_pos_of_ne_nil hne
  have hcount : (line.length + w - 1) / w = ((line.drop w).length + w - 1) / w + 1 := by
    rw [List.length_drop]
    rcases Nat.lt_or_ge w line.length with hlen | hlen
    · rw [show line.length + w - 1 = line.length - w + w - 1 + w by omega,
        Nat.add_div_right _ hw]
    · rw [show line.length + w - 1 = line.length - 1 + w by omega, Nat.add_div_right _ hw,
        Nat.div_eq_of_lt (by omega), Nat.div_eq_of_lt (by omega)]
  rw [pieces, pieces, hcount, List.range_succ_eq_map, List.map_cons, List.map_map, Nat.mul_zero,
    List.drop_zero]
  refine congrArg (_ :: ·) (List.map_congr_left fun i _ => ?_)
  rw [Function.comp_apply, List.drop_drop, Nat.mul_succ, Nat.add_comm]

theorem pieces_of_length_le (hw : 0 < w) (hne : line ≠ []) (hlen : line.length ≤ w) :
    pieces w line = [line] := by
  rw [pieces_eq_cons hw hne, List.take_of_length_le hlen, List.drop_of_length_le hlen,
    pieces_nil hw]

variable {β : Type*} {f : Bytes → Option β}

/-- A function that reads nothing from an empty line reads a line that fits at once. -/
theorem filterMap_pieces_of_length_le (hw : 0 < w) (hnil : f [] = none) (hlen : line.length ≤ w) :
    (pieces w line).filterMap f = (f line).toList := by
  by_cases hne : line = []
  · rw [hne, pieces_nil hw, hnil]
    rfl
  · rw [pieces_of_length_le hw hne hlen]
    cases h : f line with
    | none => exact List.filterMap_cons_none h
    | some value => exact List.filterMap_cons_some h

/-- The first line of a file, and the lines behind it. -/
theorem splitOn_append (file : Bytes) : ∃ line tail lines, file = line ++ tail ∧ 10 ∉ line ∧
    (tail = [] ∨ ∃ rest, tail = 10 :: rest ∧ lines = rest.splitOn 10) ∧
    ∀ text, 10 ∉ text → (text ++ tail).splitOn 10 = text :: lines := by
  by_cases hmem : 10 ∈ file
  · obtain ⟨line, rest, rfl, hline⟩ := List.eq_append_cons_of_mem hmem
    exact ⟨line, 10 :: rest, rest.splitOn 10, rfl, hline, .inr ⟨rest, rfl, rfl⟩, fun text htext =>
      List.splitOn_append_cons_self_of_not_mem htext rest⟩
  · refine ⟨file, [], [], (List.append_nil file).symm, hmem, .inl rfl, fun text htext => ?_⟩
    rw [List.append_nil]
    exact List.splitOn_eq_singleton htext

/-- What a function reads from a file that `fgets` cuts into lines, where the function ignores the
newline and reads nothing from an empty line. -/
theorem filterMap_fgetsLines (hw : 0 < w) (hnewline : ∀ line, f (line ++ [10]) = f line)
    (hnil : f [] = none) : ∀ {count : Nat} {file : Bytes}, file.length ≤ count →
      (fgetsLines (w + 1) count file).filterMap f =
        ((file.splitOn 10).flatMap (pieces w)).filterMap f
  | 0, file, hcount => by
    obtain rfl := List.length_eq_zero_iff.mp (Nat.le_zero.mp hcount)
    rw [List.splitOn_nil, List.flatMap_singleton, pieces_nil hw]
    rfl
  | count + 1, file, hcount => by
    by_cases hne : file = []
    · rw [hne, List.splitOn_nil, List.flatMap_singleton, pieces_nil hw]
      rfl
    obtain ⟨line, tail, lines, rfl, hline, htail, hsplit⟩ := splitOn_append file
    rw [hsplit line hline, List.flatMap_cons, List.filterMap_append]
    rw [List.length_append] at hcount
    rcases Nat.lt_or_ge line.length w with hlen | hlen
    · rw [filterMap_pieces_of_length_le hw hnil (Nat.le_of_lt hlen)]
      rcases htail with rfl | ⟨rest, rfl, rfl⟩
      · -- The last line has no newline.
        have hlast : fgets (w + 1) (line ++ []) = some (line, []) := by
          rw [List.append_nil] at hne ⊢
          exact fgets_last hne hline (by omega)
        have hrest : fgetsLines (w + 1) count [] = [] := by cases count <;> rfl
        have hlines : lines = [] := by
          have h := hsplit [] List.not_mem_nil
          cases h
          rfl
        rw [fgetsLines, hlast, hlines]
        dsimp only
        rw [hrest]
        cases h : f line with
        | none => exact List.filterMap_cons_none h
        | some value => exact List.filterMap_cons_some h
      · rw [List.length_cons] at hcount
        have hrest : (fgetsLines (w + 1) count rest).filterMap f = _ :=
          filterMap_fgetsLines hw hnewline hnil (by omega)
        rw [fgetsLines, fgets_line hline (by omega), ← hrest, ← hnewline line]
        dsimp only
        cases h : f (line ++ [10]) with
        | none => exact List.filterMap_cons_none h
        | some value => exact List.filterMap_cons_some h
    · have htake : (line ++ tail).take w = line.take w := List.take_append_of_le_length hlen
      have hdrop : (line ++ tail).drop w = line.drop w ++ tail := List.drop_append_of_le_length hlen
      have hline' : line ≠ [] := List.ne_nil_of_length_pos (by omega)
      have hfit : w ≤ (line ++ tail).length := by
        rw [List.length_append]
        omega
      have hnot : 10 ∉ (line ++ tail).take w := by
        rw [htake]
        exact fun hmem => hline (List.mem_of_mem_take hmem)
      have hrest : (fgetsLines (w + 1) count (line.drop w ++ tail)).filterMap f = _ :=
        filterMap_fgetsLines hw hnewline hnil (by rw [List.length_append, List.length_drop]; omega)
      rw [hsplit _ fun hmem => hline (List.mem_of_mem_drop hmem), List.flatMap_cons,
        List.filterMap_append] at hrest
      rw [fgetsLines, fgets_cut hne hfit hnot, pieces_eq_cons hw hline']
      dsimp only
      rw [htake, hdrop]
      cases h : f (line.take w) with
      | none => rw [List.filterMap_cons_none h, List.filterMap_cons_none h, hrest]
      | some value =>
        rw [List.filterMap_cons_some h, List.filterMap_cons_some h, hrest, List.cons_append]

end Pieces

/-- Every line has a byte. -/
theorem length_le_flatten {lines : List Bytes} (h : ∀ line ∈ lines, line ≠ []) :
    lines.length ≤ lines.flatten.length := by
  induction lines with
  | nil => exact Nat.le_refl 0
  | cons line lines ih =>
    obtain ⟨hline, hlines⟩ := List.forall_mem_cons.mp h
    have hpos := List.length_pos_of_ne_nil hline
    have hrest := ih hlines
    rw [List.flatten_cons, List.length_append, List.length_cons]
    omega

/-! ## Words -/

/-- A text that is not empty and has no space in it. -/
def IsWord (s : Bytes) : Prop := s ≠ [] ∧ ∀ c ∈ s, isSpace c = false

instance (s : Bytes) : Decidable (IsWord s) := inferInstanceAs (Decidable (_ ∧ _))

/-- The words of a text, which spaces separate. -/
def words (s : Bytes) : List Bytes := (s.splitOnP isSpace).filter (· ≠ [])

theorem words_append_cons {c : UInt8} (hc : isSpace c = true) (s t : Bytes) :
    words (s ++ c :: t) = words s ++ words t :=
  tokens_append_cons hc s t

theorem words_of_no_space {s : Bytes} (h : ∀ c ∈ s, isSpace c = false) :
    words s = if s = [] then [] else [s] :=
  tokens_of_no_delim h

/-- Spaces in front make no difference. -/
theorem words_dropWhile (s : Bytes) : words (s.dropWhile isSpace) = words s := tokens_dropWhile s

/-- The first word of a text. -/
theorem words_eq_cons {s : Bytes} (h : s.dropWhile isSpace ≠ []) :
    ∃ more, words s = (s.dropWhile isSpace).takeWhile (!isSpace ·) :: more := by
  have hfound : strtok isSpace s = some ((s.dropWhile isSpace).takeWhile (!isSpace ·),
      ((s.dropWhile isSpace).dropWhile (!isSpace ·)).drop 1) := if_neg h
  refine ⟨words (((s.dropWhile isSpace).dropWhile (!isSpace ·)).drop 1), ?_⟩
  have heq : words s = _ := tokens_eq s
  rw [hfound] at heq
  exact heq

/-! ## Conversions -/

/-- `%ws` of `sscanf`: the word, and what is behind it. -/
def scanWord (width : Nat) (s : Bytes) : Option (Bytes × Bytes) :=
  let s := s.dropWhile isSpace
  let word := (s.takeWhile (!isSpace ·)).take width
  if word = [] then none else some (word, s.drop word.length)

/-- `%d` of `sscanf`. A number that does not fit is cut to its low 32 bits. -/
def scanInt (s : Bytes) : Option Int :=
  let (value, read) := strtol (s.dropWhile isSpace)
  if read = 0 then none else some (value.bmod (2 ^ 32))

/-- `%d` and `%lld` of `printf`. -/
def printInt (n : Int) : Bytes :=
  if n < 0 then 45 :: Numeral.print 10 n.natAbs else Numeral.print 10 n.natAbs

/-- What is read is a word. -/
theorem scanWord_some {width : Nat} {s word rest : Bytes}
    (h : scanWord width s = some (word, rest)) :
    IsWord word ∧ word.length ≤ width := by
  simp only [scanWord] at h
  split at h
  · cases h
  · next hne =>
    cases h
    refine ⟨⟨hne, fun c hc => ?_⟩, List.length_take_le _ _⟩
    have hword := List.mem_takeWhile_imp (List.mem_of_mem_take hc)
    rwa [Bool.not_eq_true'] at hword

/-- A word that fits is read up to the space behind it. -/
theorem scanWord_append {width : Nat} {word : Bytes} {c : UInt8} (h : IsWord word)
    (hlen : word.length ≤ width) (hc : isSpace c = true) (rest : Bytes) :
    scanWord width (word ++ c :: rest) = some (word, c :: rest) := by
  obtain ⟨hne, hword⟩ := h
  have hstart : (word ++ c :: rest).dropWhile isSpace = word ++ c :: rest := by
    cases word with
    | nil => exact absurd rfl hne
    | cons d word =>
      have hd : isSpace d = false := hword d List.mem_cons_self
      exact List.dropWhile_cons_of_neg (by rw [hd]; exact Bool.false_ne_true)
  have hend : (word ++ c :: rest).takeWhile (!isSpace ·) = word := by
    rw [List.takeWhile_append_of_pos fun d hd => by rw [hword d hd]; rfl,
      List.takeWhile_cons_of_neg (by rw [hc]; exact Bool.false_ne_true), List.append_nil]
  simp only [scanWord, hstart, hend, List.take_of_length_le hlen, if_neg hne,
    List.drop_left]

theorem isDigit_print {n : Nat} : ∀ c ∈ Numeral.print 10 n, Numeral.isDigit 10 c = true :=
  fun _ hc => Numeral.isDigit_of_mem_print (by decide) (by decide) hc

/-- What is printed does not start with a space, and is not empty. -/
theorem printInt_head (n : Int) : ∃ c cs, printInt n = c :: cs ∧ isSpace c = false := by
  unfold printInt
  split
  · exact ⟨45, _, rfl, rfl⟩
  · have hne : Numeral.print 10 n.natAbs ≠ [] := Numeral.print_ne_nil _
    obtain ⟨c, cs, hprint⟩ := List.exists_cons_of_ne_nil hne
    refine ⟨c, cs, hprint, not_isSpace_digit (isDigit_print (n := n.natAbs) c ?_)⟩
    rw [hprint]
    exact List.mem_cons_self

/-- No space is skipped in front of a printed number. -/
theorem takeWhile_printInt (n : Int) (rest : Bytes) :
    (printInt n ++ rest).takeWhile isSpace = [] := by
  obtain ⟨c, cs, hprint, hspace⟩ := printInt_head n
  rw [hprint]
  exact List.takeWhile_cons_of_neg (by rw [hspace]; exact Bool.false_ne_true)

/-- Digits have no sign. -/
theorem sign_print (n : Nat) (rest : Bytes) : sign (Numeral.print 10 n ++ rest) = (1, 0) := by
  obtain ⟨d, ds, hds⟩ := List.exists_cons_of_ne_nil (Numeral.print_ne_nil (b := 10) n)
  have hd : Numeral.isDigit 10 d = true :=
    isDigit_print (n := n) d (by rw [hds]; exact List.mem_cons_self)
  rw [hds]
  exact sign_digit _ hd

/-- A printed number consists of digits and a sign. -/
theorem mem_printInt {n : Int} {c : UInt8} (h : c ∈ printInt n) :
    c = 45 ∨ Numeral.isDigit 10 c = true := by
  unfold printInt at h
  split at h
  · rcases List.mem_cons.mp h with rfl | h
    · exact .inl rfl
    · exact .inr (isDigit_print c h)
  · exact .inr (isDigit_print c h)

/-- Digits are read up to a byte that is not one. -/
theorem takeWhile_digits_append {ds : Bytes} (hd : ∀ c ∈ ds, Numeral.isDigit 10 c = true)
    {c : UInt8} (hc : Numeral.isDigit 10 c = false) (rest : Bytes) :
    (ds ++ c :: rest).takeWhile (Numeral.isDigit 10) = ds := by
  rw [takeWhile_append_stop ds rest hc, takeWhile_digits hd]

/-- `strtol` reads a printed number back, up to a byte that is not a digit. -/
theorem strtol_printInt (n : Int) {c : UInt8} (hc : Numeral.isDigit 10 c = false) (rest : Bytes) :
    strtol (printInt n ++ c :: rest) = (clampLong n, (printInt n).length) := by
  have hdigits := takeWhile_digits_append (isDigit_print (n := n.natAbs)) hc rest
  have hne : Numeral.print 10 n.natAbs ≠ [] := Numeral.print_ne_nil _
  have hvalue : Numeral.value 10 (Numeral.print 10 n.natAbs) = n.natAbs :=
    Numeral.value_print (by decide) (by decide) _
  have hblanks := takeWhile_printInt n (c :: rest)
  unfold printInt at hblanks ⊢
  split at hblanks
  · next hneg =>
    rw [if_pos hneg, List.cons_append] at *
    simp only [strtol, hblanks, List.length_nil, List.drop_zero, sign_minus, Nat.zero_add,
      List.drop_succ_cons, hdigits, if_neg hne, hvalue, List.length_cons]
    rw [show -1 * (n.natAbs : Int) = n by omega, Nat.add_comm]
  · next hneg =>
    rw [if_neg hneg]
    have hsign := sign_print n.natAbs (c :: rest)
    simp only [strtol, hblanks, List.length_nil, List.drop_zero, hsign, Nat.add_zero, hdigits,
      if_neg hne, hvalue, Nat.zero_add]
    rw [show 1 * (n.natAbs : Int) = n by omega]

/-- An `int` that was printed behind a space is read back. -/
theorem scanInt_printInt {n : Int} (hmin : -2 ^ 31 ≤ n) (hmax : n < 2 ^ 31) {c : UInt8}
    (hc : Numeral.isDigit 10 c = false) (rest : Bytes) :
    scanInt (32 :: (printInt n ++ c :: rest)) = some n := by
  obtain ⟨first, tail, hprint, hspace⟩ := printInt_head n
  have hstart : (32 :: (printInt n ++ c :: rest)).dropWhile isSpace = printInt n ++ c :: rest := by
    rw [List.dropWhile_cons_of_pos (by decide), hprint]
    exact List.dropWhile_cons_of_neg (by rw [hspace]; exact Bool.false_ne_true)
  have hlong : clampLong n = n :=
    clampLong_eq (by rw [longMin]; omega) (by rw [longMax]; omega)
  have hlen : (printInt n).length ≠ 0 := by
    rw [hprint]
    exact Nat.succ_ne_zero _
  rw [scanInt, hstart, strtol_printInt n hc]
  simp only [if_neg hlen, hlong]
  rw [Int.bmod_eq_of_le (by omega) (by omega)]

end CLib
