import CourseWork.Lib.CLib

/-!
# Words between delimiters

`strtok`, the words that all its calls return, and the words in front of a comment.
-/

namespace CLib

/-- `strtok` on the text it has not passed yet: the word, and the text behind the delimiter that
ends it. -/
def strtok (delim : UInt8 → Bool) (s : Bytes) : Option (Bytes × Bytes) :=
  let s := s.dropWhile delim
  if s = [] then none else some (s.takeWhile (!delim ·), (s.dropWhile (!delim ·)).drop 1)

/-- The words of a text, which delimiters separate. -/
def tokens (delim : UInt8 → Bool) (s : Bytes) : List Bytes := (s.splitOnP delim).filter (· ≠ [])

section Tokens

variable {delim : UInt8 → Bool} {s : Bytes}

theorem tokens_append_cons {c : UInt8} (hc : delim c = true) (s t : Bytes) :
    tokens delim (s ++ c :: t) = tokens delim s ++ tokens delim t := by
  rw [tokens, List.splitOnP_append_cons s t hc, List.filter_append]
  rfl

theorem tokens_cons {c : UInt8} (hc : delim c = true) (t : Bytes) :
    tokens delim (c :: t) = tokens delim t :=
  tokens_append_cons hc [] t

theorem tokens_of_no_delim (h : ∀ c ∈ s, delim c = false) :
    tokens delim s = if s = [] then [] else [s] := by
  rw [tokens, List.splitOnP_eq_singleton h, List.filter_singleton]
  by_cases hs : s = []
  · rw [if_pos hs, decide_eq_false (not_not.mpr hs)]
    rfl
  · rw [if_neg hs, decide_eq_true hs]
    rfl

/-- Delimiters in front make no difference. -/
theorem tokens_dropWhile (s : Bytes) : tokens delim (s.dropWhile delim) = tokens delim s := by
  induction s with
  | nil => rfl
  | cons c s ih =>
    rw [List.dropWhile_cons]
    split
    · next hc => rw [ih, tokens_cons hc]
    · rfl

/-- Delimiters behind make no difference. -/
theorem tokens_append_delim {c : UInt8} (hc : delim c = true) (s : Bytes) :
    tokens delim (s ++ [c]) = tokens delim s := by
  rw [tokens_append_cons hc, tokens_of_no_delim (List.forall_mem_nil _), if_pos rfl,
    List.append_nil]

/-! ## `strtok` -/

/-- The text in which a word is found. -/
theorem strtok_eq_some {token rest : Bytes} (h : strtok delim s = some (token, rest)) :
    ∃ blanks tail, s = blanks ++ (token ++ tail) ∧ (∀ c ∈ blanks, delim c = true) ∧
      token ≠ [] ∧ (∀ c ∈ token, delim c = false) ∧
      (tail = [] ∧ rest = [] ∨ ∃ c, delim c = true ∧ tail = c :: rest) := by
  unfold strtok at h
  dsimp only at h
  split at h
  · cases h
  · next hne =>
    cases h
    generalize ht : s.dropWhile delim = t at hne ⊢
    refine ⟨s.takeWhile delim, t.dropWhile (!delim ·), ?_, ?_, ?_, ?_, ?_⟩
    · rw [List.takeWhile_append_dropWhile, ← ht, List.takeWhile_append_dropWhile]
    · exact fun c hc => List.mem_takeWhile_imp hc
    · obtain ⟨c, u, rfl⟩ := List.exists_cons_of_ne_nil hne
      have hhead := List.head_dropWhile_not delim (by rw [ht]; exact List.cons_ne_nil c u)
      simp only [ht, List.head_cons] at hhead
      rw [List.takeWhile_cons_of_pos (by rw [hhead]; rfl)]
      exact List.cons_ne_nil _ _
    · intro c hc
      have hword := List.mem_takeWhile_imp hc
      rwa [Bool.not_eq_true'] at hword
    · cases hrest : t.dropWhile (!delim ·) with
      | nil => exact .inl ⟨rfl, rfl⟩
      | cons c u =>
        have hhead := List.head_dropWhile_not (!delim ·) (by rw [hrest]; exact List.cons_ne_nil c u)
        simp only [hrest, List.head_cons, Bool.not_eq_false'] at hhead
        exact .inr ⟨c, hhead, rfl⟩

theorem strtok_eq_none_iff : strtok delim s = none ↔ ∀ c ∈ s, delim c = true := by
  unfold strtok
  dsimp only
  rw [ite_eq_left_iff, ← List.dropWhile_eq_nil_iff]
  exact ⟨fun h => by_contra fun hne => Option.some_ne_none _ (h hne), fun h hne => absurd h hne⟩

/-- The calls of `strtok` return the words one after the other. -/
theorem tokens_eq (s : Bytes) : tokens delim s =
    match strtok delim s with
    | none => []
    | some (token, rest) => token :: tokens delim rest := by
  cases h : strtok delim s with
  | none =>
    have hall := strtok_eq_none_iff.mp h
    rw [← tokens_dropWhile, List.dropWhile_eq_nil_iff.mpr hall]
    rfl
  | some found =>
    obtain ⟨token, rest⟩ := found
    obtain ⟨blanks, tail, rfl, hblanks, hne, htoken, htail⟩ := strtok_eq_some h
    have hhead : tokens delim (token ++ tail) = token :: tokens delim rest := by
      rcases htail with ⟨rfl, rfl⟩ | ⟨c, hc, rfl⟩
      · rw [List.append_nil, tokens_of_no_delim htoken, if_neg hne]
        rfl
      · rw [tokens_append_cons hc, tokens_of_no_delim htoken, if_neg hne]
        rfl
    rw [← tokens_dropWhile, List.dropWhile_append_of_pos hblanks, tokens_dropWhile, hhead]

/-- The first word of a text is found by `strtok`. -/
theorem strtok_of_tokens_cons {token : Bytes} {more : List Bytes}
    (h : tokens delim s = token :: more) :
    ∃ rest, strtok delim s = some (token, rest) ∧ more = tokens delim rest := by
  rw [tokens_eq] at h
  cases hfound : strtok delim s with
  | none =>
    rw [hfound] at h
    cases h
  | some found =>
    obtain ⟨first, rest⟩ := found
    rw [hfound] at h
    obtain ⟨rfl, rfl⟩ := List.cons.inj h
    exact ⟨rest, rfl, rfl⟩

/-- A word with another behind it stays the first where the text goes on. -/
theorem tokens_append_of_cons_cons {token token' : Bytes} {more : List Bytes}
    (h : tokens delim s = token :: token' :: more) (t : Bytes) :
    ∃ more', tokens delim (s ++ t) = token :: more' := by
  obtain ⟨rest, hfound, hrest⟩ := strtok_of_tokens_cons h
  obtain ⟨blanks, tail, rfl, hblanks, hne, htoken, ⟨-, rfl⟩ | ⟨c, hc, rfl⟩⟩ :=
    strtok_eq_some hfound
  · cases hrest
  · refine ⟨tokens delim (rest ++ t), ?_⟩
    rw [List.append_assoc, List.append_assoc, List.cons_append, ← tokens_dropWhile,
      List.dropWhile_append_of_pos hblanks, tokens_dropWhile, tokens_append_cons hc,
      tokens_of_no_delim htoken, if_neg hne]
    rfl

/-! ## Comments -/

/-- The text before the first `c`. -/
def cutAt (c : UInt8) (s : Bytes) : Bytes := s.takeWhile (· != c)

variable {mark : UInt8}

theorem cutAt_of_not_mem (h : mark ∉ s) : cutAt mark s = s :=
  List.takeWhile_eq_self_iff.mpr fun _ hc => bne_iff_ne.mpr fun heq => h (heq ▸ hc)

theorem cutAt_append_of_not_mem (h : mark ∉ s) (t : Bytes) :
    cutAt mark (s ++ t) = s ++ cutAt mark t :=
  List.takeWhile_append_of_pos fun _ hc => bne_iff_ne.mpr fun heq => h (heq ▸ hc)

theorem cutAt_append_of_mem (h : mark ∈ s) (t : Bytes) : cutAt mark (s ++ t) = cutAt mark s := by
  obtain ⟨a, b, rfl, ha⟩ := List.eq_append_cons_of_mem h
  have hmark : ∀ u : Bytes, cutAt mark (mark :: u) = [] := fun u =>
    List.takeWhile_cons_of_neg (by rw [bne_self_eq_false]; exact Bool.false_ne_true)
  rw [List.append_assoc, List.cons_append, cutAt_append_of_not_mem ha,
    cutAt_append_of_not_mem ha, hmark, hmark]

theorem mem_of_mem_cutAt {c : UInt8} (h : c ∈ cutAt mark s) : c ∈ s :=
  (List.takeWhile_sublist _).mem h

theorem tokens_of_all (h : ∀ c ∈ s, delim c = true) : tokens delim s = [] := by
  rw [tokens_eq, strtok_eq_none_iff.mpr h]

theorem tokens_cutAt_of_none (h : strtok delim s = none) : tokens delim (cutAt mark s) = [] :=
  tokens_of_all fun c hc => strtok_eq_none_iff.mp h c (mem_of_mem_cutAt hc)

/-- The words before a comment, where the first word of the text ends before the comment. -/
theorem tokens_cutAt_of_not_mem {token rest : Bytes} (hmark : delim mark = false)
    (h : strtok delim s = some (token, rest)) (hnot : mark ∉ token) :
    tokens delim (cutAt mark s) = token :: tokens delim (cutAt mark rest) := by
  obtain ⟨blanks, tail, rfl, hblanks, hne, htoken, htail⟩ := strtok_eq_some h
  have hdelim : ∀ c, delim c = true → c ≠ mark := by
    rintro c hc rfl
    exact absurd hc (by rw [hmark]; exact Bool.false_ne_true)
  have hnotBlanks : mark ∉ blanks := fun hmem => hdelim mark (hblanks mark hmem) rfl
  rw [cutAt_append_of_not_mem hnotBlanks, cutAt_append_of_not_mem hnot, ← tokens_dropWhile,
    List.dropWhile_append_of_pos hblanks, tokens_dropWhile]
  rcases htail with ⟨rfl, rfl⟩ | ⟨c, hc, rfl⟩
  · rw [show cutAt mark [] = [] from rfl, List.append_nil, tokens_of_no_delim htoken, if_neg hne]
    rfl
  · have hcons : cutAt mark (c :: rest) = c :: cutAt mark rest :=
      List.takeWhile_cons_of_pos (bne_iff_ne.mpr (hdelim c hc))
    rw [hcons, tokens_append_cons hc, tokens_of_no_delim htoken, if_neg hne]
    rfl

/-- The words before a comment that starts in the first word. -/
theorem tokens_cutAt_of_mem {token rest : Bytes} (hmark : delim mark = false)
    (h : strtok delim s = some (token, rest)) (hmem : mark ∈ token) :
    tokens delim (cutAt mark s) = if cutAt mark token = [] then [] else [cutAt mark token] := by
  obtain ⟨blanks, tail, rfl, hblanks, -, htoken, -⟩ := strtok_eq_some h
  have hnotBlanks : mark ∉ blanks := fun hblank =>
    absurd (hblanks mark hblank) (by rw [hmark]; exact Bool.false_ne_true)
  rw [cutAt_append_of_not_mem hnotBlanks, cutAt_append_of_mem hmem, ← tokens_dropWhile,
    List.dropWhile_append_of_pos hblanks, tokens_dropWhile]
  exact tokens_of_no_delim fun c hc => htoken c (mem_of_mem_cutAt hc)

/-- The first word of a text, where it is not all comment. -/
theorem tokens_cutAt_cons {token : Bytes} {more : List Bytes} (hmark : delim mark = false)
    (h : tokens delim s = token :: more) (hne : cutAt mark token ≠ []) :
    ∃ more', tokens delim (cutAt mark s) = cutAt mark token :: more' := by
  obtain ⟨rest, hfound, -⟩ := strtok_of_tokens_cons h
  by_cases hmem : mark ∈ token
  · exact ⟨[], by rw [tokens_cutAt_of_mem hmark hfound hmem, if_neg hne]⟩
  · exact ⟨_, by rw [tokens_cutAt_of_not_mem hmark hfound hmem, cutAt_of_not_mem hmem]⟩

/-- No word is left of a text that starts with a comment. -/
theorem tokens_cutAt_nil {token : Bytes} {more : List Bytes} (hmark : delim mark = false)
    (h : tokens delim s = token :: more) (hnil : cutAt mark token = []) :
    tokens delim (cutAt mark s) = [] := by
  obtain ⟨rest, hfound, -⟩ := strtok_of_tokens_cons h
  have hmem : mark ∈ token := by
    by_contra hnot
    obtain ⟨-, -, -, -, hne, -⟩ := strtok_eq_some hfound
    exact hne ((cutAt_of_not_mem hnot).symm.trans hnil)
  rw [tokens_cutAt_of_mem hmark hfound hmem, if_pos hnil]

end Tokens

end CLib
