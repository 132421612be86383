import CourseWork.Telehack.Figlet

/-!
# Cuts of a reply

What `send_figlet_command` prints for a reply that is cut into chunks, and for which replies
that does not depend on the cuts.
-/

namespace CourseWork.Telehack
open CLib

/-! ## One chunk -/

section Chunks

variable {moreSent : Nat → Bool} {chunk : Bytes} {p : Progress}

/-- The echo is left out byte by byte. -/
theorem removeEcho_eq (chunk : Bytes) (n : Nat) :
    removeEcho chunk n = (chunk.drop n, n - chunk.length) := by
  unfold removeEcho
  split
  · next h => rw [Nat.sub_eq_zero_of_le h.2.le]
  · next h =>
    split
    · next hn =>
      have hle : chunk.length ≤ n := Nat.not_lt.mp fun hlt => h ⟨hn, hlt⟩
      rw [List.drop_eq_nil_of_le hle]
    · next hn =>
      obtain rfl : n = 0 := Decidable.not_not.mp hn
      rw [List.drop_zero, Nat.zero_sub]

theorem strstr_isSome_iff {needle s : Bytes} : (strstr s needle).isSome ↔ needle <:+: cstr s :=
  search_isSome_iff

/-- The pattern for the last page starts with the one for every page. -/
theorem morePattern_isPrefix : morePattern <+: moreFull := ⟨ascii "(100", by decide⟩

/-- A chunk without the pattern of the pager. -/
def Plain (chunk : Bytes) : Prop := ¬morePattern <:+: chunk

theorem not_isSome_of_plain (h : Plain chunk) : ¬(strstr chunk morePattern).isSome := fun hmore =>
  h ((strstr_isSome_iff.mp hmore).trans (cstr_isPrefix chunk).isInfix)

theorem not_full_of_plain (h : Plain chunk) : ¬(strstr chunk moreFull).isSome := fun hfull =>
  h ((morePattern_isPrefix.isInfix.trans (strstr_isSome_iff.mp hfull)).trans
    (cstr_isPrefix chunk).isInfix)

theorem handleChunk_plain (h : Plain chunk) : handleChunk moreSent chunk p =
    some { p with
      commandLength := p.commandLength - chunk.length
      stdout := p.stdout ++ cstr (chunk.drop p.commandLength)
      resultPrinted := true } := by
  have hnone : strstr chunk morePattern = none :=
    Option.not_isSome_iff_eq_none.mp (not_isSome_of_plain h)
  rw [handleChunk, if_neg (not_full_of_plain h), removeEcho_eq]
  exact if_pos hnone

end Chunks

/-! ## Replies without the pager -/

/-- What is printed for chunks, where `n` bytes of the echo are still to come. -/
def printedOf : Nat → List Bytes → Bytes
  | _, [] => []
  | n, chunk :: reads => cstr (chunk.drop n) ++ printedOf (n - chunk.length) reads

section Replies

variable {moreSent : Nat → Bool} {reads : List Bytes} {stream : Bytes}

/-- The bytes of the echo that are still to come behind chunks. -/
theorem printedOf_append : ∀ (n : Nat) (reads reads' : List Bytes),
    printedOf n (reads ++ reads') = printedOf n reads ++ printedOf (n - reads.flatten.length) reads'
  | _, [], _ => rfl
  | n, chunk :: reads, reads' => by
    rw [List.cons_append, printedOf, printedOf, printedOf_append, List.append_assoc,
      List.flatten_cons, List.length_append, Nat.sub_sub]

theorem readLoop_plain : ∀ {reads : List Bytes} (p : Progress), (∀ chunk ∈ reads, Plain chunk) →
    readLoop moreSent reads p = ({ p with
      commandLength := p.commandLength - reads.flatten.length
      stdout := p.stdout ++ printedOf p.commandLength reads
      resultPrinted := p.resultPrinted || !reads.isEmpty }, true)
  | [], p, _ => by
    rw [readLoop, printedOf, List.append_nil]
    simp
  | chunk :: reads, p, h => by
    obtain ⟨hchunk, hreads⟩ := List.forall_mem_cons.mp h
    rw [readLoop, handleChunk_plain hchunk]
    dsimp only
    rw [readLoop_plain _ hreads, printedOf, List.flatten_cons, List.length_append, Nat.sub_sub,
      List.append_assoc]
    simp

theorem cstr_eq_nil_of_zeros {s : Bytes} (h : ∀ c ∈ s, c = 0) : cstr s = [] := by
  cases s with
  | nil => rfl
  | cons c s =>
    obtain rfl := h c List.mem_cons_self
    exact List.takeWhile_cons_of_neg (by decide)

/-- A text whose NULs are all at the end, in two parts. -/
theorem cstr_append_of_nulsAtEnd {a b : Bytes} (h : NulsAtEnd (a ++ b)) :
    cstr (a ++ b) = cstr a ++ cstr b ∧ NulsAtEnd b := by
  refine ⟨?_, fun x y heq => h (a ++ x) y (by rw [heq, List.append_assoc])⟩
  by_cases hnul : 0 ∈ a
  · obtain ⟨x, y, rfl, hx⟩ := List.eq_append_cons_of_mem hnul
    have happ : x ++ 0 :: y ++ b = x ++ 0 :: (y ++ b) := by
      rw [List.append_assoc, List.cons_append]
    have hzeros : ∀ c ∈ b, c = 0 := fun c hc => h x (y ++ b) happ c (List.mem_append_right _ hc)
    rw [cstr_eq_nil_of_zeros hzeros, List.append_nil, happ, cstr_append_nul hx,
      cstr_append_nul hx]
  · have hall : ∀ c ∈ a, (c != 0) = true := fun c hc => bne_iff_ne.mpr fun heq => hnul (heq ▸ hc)
    rw [cstr, cstr, cstr, List.takeWhile_append_of_pos hall, List.takeWhile_eq_self_iff.mpr hall]

/-- Without the pager the text behind the echo is printed, wherever the reply is cut. -/
theorem printedOf_eq : ∀ {reads : List Bytes} {n : Nat}, NulsAtEnd (reads.flatten.drop n) →
    printedOf n reads = cstr (reads.flatten.drop n)
  | [], n, _ => by
    rw [List.flatten_nil, List.drop_nil]
    rfl
  | chunk :: reads, n, h => by
    have hdrop : (chunk :: reads).flatten.drop n =
        chunk.drop n ++ reads.flatten.drop (n - chunk.length) := by
      rw [List.flatten_cons, List.drop_append]
    rw [hdrop] at h ⊢
    obtain ⟨hcstr, hrest⟩ := cstr_append_of_nulsAtEnd h
    rw [printedOf, hcstr, printedOf_eq hrest]

end Replies

/-! ## Replies cut into single bytes -/

/-- The segmentation with one byte in each `recv`. -/
def singles (s : Bytes) : List Bytes := s.map fun c => [c]

theorem singles_append (s t : Bytes) : singles (s ++ t) = singles s ++ singles t :=
  List.map_append

theorem flatten_singles (s : Bytes) : (singles s).flatten = s := by
  induction s with
  | nil => rfl
  | cons c s ih => exact congrArg (c :: ·) ih

/-- A chunk of one byte. -/
theorem exists_of_mem_singles {s chunk : Bytes} (h : chunk ∈ singles s) : ∃ c, chunk = [c] := by
  obtain ⟨c, -, heq⟩ := List.mem_map.mp h
  exact ⟨c, heq.symm⟩

/-- The pattern of the pager does not fit in a short chunk. -/
theorem plain_of_length_lt {chunk : Bytes} (h : chunk.length < 8) : Plain chunk := fun hfound =>
  absurd hfound.length_le (Nat.not_le.mpr h)

theorem plain_of_mem_singles {s chunk : Bytes} (h : chunk ∈ singles s) : Plain chunk := by
  obtain ⟨c, rfl⟩ := exists_of_mem_singles h
  exact plain_of_length_lt (by decide : 1 < 8)

/-- Single bytes around one longer chunk. -/
theorem segmentation_around {mid : Bytes} (hne : mid ≠ []) (hlen : mid.length ≤ bufferSize - 1)
    (a b : Bytes) : Segmentation (a ++ mid ++ b) (singles a ++ [mid] ++ singles b) := by
  have hcases : ∀ chunk ∈ singles a ++ [mid] ++ singles b, (∃ c, chunk = [c]) ∨ chunk = mid := by
    intro chunk hchunk
    rcases List.mem_append.mp hchunk with hchunk | hchunk
    · rcases List.mem_append.mp hchunk with hchunk | hchunk
      · exact .inl (exists_of_mem_singles hchunk)
      · exact .inr (List.mem_singleton.mp hchunk)
    · exact .inl (exists_of_mem_singles hchunk)
  refine ⟨?_, fun chunk hchunk => ?_, fun chunk hchunk => ?_⟩
  · rw [List.flatten_append, List.flatten_append, flatten_singles, flatten_singles,
      List.flatten_singleton]
  · rcases hcases chunk hchunk with ⟨c, rfl⟩ | rfl
    · exact List.cons_ne_nil c []
    · exact hne
  · rcases hcases chunk hchunk with ⟨c, rfl⟩ | rfl
    · exact (by decide : 1 ≤ 4095)
    · exact hlen

theorem segmentation_singles (s : Bytes) : Segmentation s (singles s) where
  flatten_eq := flatten_singles s
  ne_nil chunk h := by
    obtain ⟨c, rfl⟩ := exists_of_mem_singles h
    exact List.cons_ne_nil c []
  length_le chunk h := by
    obtain ⟨c, rfl⟩ := exists_of_mem_singles h
    exact (by decide : 1 ≤ 4095)

/-! ## The loop over chunks -/

section Loop

variable {moreSent : Nat → Bool}

theorem readLoop_append : ∀ (reads reads' : List Bytes) (p : Progress),
    (∀ chunk ∈ reads, Plain chunk) → readLoop moreSent (reads ++ reads') p =
      readLoop moreSent reads' (readLoop moreSent reads p).1
  | [], _, _, _ => rfl
  | chunk :: reads, reads', p, h => by
    obtain ⟨hchunk, hreads⟩ := List.forall_mem_cons.mp h
    rw [List.cons_append, readLoop, readLoop, handleChunk_plain hchunk]
    exact readLoop_append reads reads' _ hreads

/-- A chunk that is the pattern alone is answered. -/
theorem handleChunk_more (p : Progress) :
    ∃ q, handleChunk moreSent morePattern p = some q ∧ q.moreCommands = p.moreCommands + 1 := by
  have hfull : ¬(strstr morePattern moreFull).isSome := by decide
  have hmore : strstr morePattern morePattern ≠ none := by decide
  rw [handleChunk, if_neg hfull]
  exact ⟨_, if_neg hmore, rfl⟩

end Loop

section Outcomes

variable {font text stream : Bytes} {reads : List Bytes}

/-- The variables before the loop. -/
def firstProgress (font text : Bytes) : Progress := ⟨commandLength font text, false, [], [], 0⟩

/-- The variables behind the loop. -/
def lastProgress (font text : Bytes) (reads : List Bytes) : Progress :=
  (readLoop (fun _ => true) reads (firstProgress font text)).1

theorem outcome_eq (font text : Bytes) (reads : List Bytes) : outcome font text reads =
    ⟨(lastProgress font text reads).stdout ++ [13, 10],
      (lastProgress font text reads).stderr ++
        if (lastProgress font text reads).resultPrinted then [] else [.noArt],
      (lastProgress font text reads).moreCommands,
      if (lastProgress font text reads).resultPrinted then 0 else -1⟩ := by
  unfold outcome sendFigletCommand lastProgress firstProgress
  dsimp only
  rw [Bool.and_false]
  cases (readLoop (fun _ => true) reads ⟨commandLength font text, false, [], [], 0⟩).1.resultPrinted
  · rfl
  · exact congrArg (Outcome.mk _ · _ _) (List.append_nil _).symm

/-- The outcome where no chunk has the pattern of the pager. -/
theorem lastProgress_plain (h : ∀ chunk ∈ reads, Plain chunk) : lastProgress font text reads =
    { commandLength := commandLength font text - reads.flatten.length
      resultPrinted := !reads.isEmpty
      stdout := printedOf (commandLength font text) reads
      stderr := []
      moreCommands := 0 } := by
  rw [lastProgress, readLoop_plain _ h]
  rfl

/-- The outcome for one page: the reply behind the echo is printed. -/
theorem lastProgress_onePage (honePage : OnePage font text stream)
    (hreads : Segmentation stream reads) : lastProgress font text reads =
      { commandLength := commandLength font text - stream.length
        resultPrinted := !stream.isEmpty
        stdout := cstr (stream.drop (commandLength font text))
        stderr := []
        moreCommands := 0 } := by
  obtain ⟨rfl, hne, -⟩ := hreads
  have hplain : ∀ chunk ∈ reads, Plain chunk := fun chunk hchunk hfound =>
    honePage.no_more (hfound.trans (List.infix_of_mem_flatten hchunk))
  have hempty : reads.isEmpty = reads.flatten.isEmpty := by
    cases reads with
    | nil => rfl
    | cons chunk reads =>
      obtain ⟨c, cs, rfl⟩ := List.exists_cons_of_ne_nil (hne chunk List.mem_cons_self)
      rfl
  rw [lastProgress_plain hplain, printedOf_eq honePage.nulsAtEnd, hempty]

/-- The pattern of the pager in one `recv`, the rest in single bytes. -/
theorem moreCommands_of_more (a b : Bytes) :
    (lastProgress font text (singles a ++ [morePattern] ++ singles b)).moreCommands = 1 := by
  have ha : ∀ chunk ∈ singles a, Plain chunk := fun chunk h => plain_of_mem_singles h
  have hb : ∀ chunk ∈ singles b, Plain chunk := fun chunk h => plain_of_mem_singles h
  rw [lastProgress, List.append_assoc, readLoop_append _ _ _ ha, readLoop_plain _ ha,
    List.singleton_append, readLoop]
  obtain ⟨q, hq, hmore⟩ := handleChunk_more _
  rw [hq]
  dsimp only
  rw [readLoop_plain _ hb]
  exact hmore

/-! ## Independence of the cuts -/

/-- A reply of one page gives the same outcome for all cuts. -/
theorem outcome_onePage (honePage : OnePage font text stream) {reads' : List Bytes}
    (hreads : Segmentation stream reads) (hreads' : Segmentation stream reads') :
    outcome font text reads = outcome font text reads' := by
  rw [outcome_eq, outcome_eq, lastProgress_onePage honePage hreads,
    lastProgress_onePage honePage hreads']

/-- A NUL before another byte stands next to one. -/
theorem exists_nul_next {c : UInt8} (hc : c ≠ 0) : ∀ {b : Bytes} (a : Bytes), c ∈ b →
    ∃ x d y, a ++ 0 :: b = x ++ [0, d] ++ y ∧ d ≠ 0
  | d :: b, a, h => by
    by_cases hd : d = 0
    · subst hd
      have htail : c ∈ b := (List.mem_cons.mp h).resolve_left hc
      obtain ⟨x, e, y, heq, he⟩ := exists_nul_next hc (a ++ [0]) htail
      refine ⟨x, e, y, ?_, he⟩
      rw [← heq, List.append_assoc, List.singleton_append]
    · refine ⟨a, d, b, ?_, hd⟩
      rw [List.append_assoc, List.cons_append, List.singleton_append]

/-- Behind the echo a `recv` with a NUL and another byte prints nothing of it, two of them print
the other byte. -/
theorem printedOf_nul_next {n : Nat} {x y : Bytes} {d : UInt8} (hn : n ≤ x.length) (hd : d ≠ 0) :
    printedOf n (singles x ++ [[0, d]] ++ singles y) ≠
      printedOf n (singles x ++ singles [0, d] ++ singles y) := by
  have hzero : n - (singles x).flatten.length = 0 := by
    rw [flatten_singles]
    exact Nat.sub_eq_zero_of_le hn
  have htogether : printedOf 0 [[0, d]] = [] := by
    rw [printedOf, printedOf, List.append_nil]
    rfl
  have hcut : printedOf 0 (singles [0, d]) = [d] := by
    have hprint : cstr [d] = [d] := List.takeWhile_cons_of_pos (bne_iff_ne.mpr hd)
    exact congrArg (· ++ []) hprint
  intro heq
  rw [List.append_assoc, List.append_assoc, printedOf_append, printedOf_append n, hzero,
    printedOf_append, printedOf_append 0, htogether, hcut, Nat.zero_sub, Nat.zero_sub] at heq
  exact List.cons_ne_nil d [] (List.append_cancel_right (List.append_cancel_left heq)).symm

/-- Two cuts of a reply with a NUL before another byte, with different text. -/
theorem exists_cuts_of_nul {x y : Bytes} {d : UInt8} (hd : d ≠ 0)
    (hdrop : stream.drop (commandLength font text) = x ++ [0, d] ++ y) :
    ∃ reads reads', Segmentation stream reads ∧ Segmentation stream reads' ∧
      (outcome font text reads).stdout ≠ (outcome font text reads').stdout := by
  have hlen : (x ++ [0, d] ++ y).length = stream.length - commandLength font text := by
    rw [← hdrop, List.length_drop]
  rw [List.length_append, List.length_append] at hlen
  have hpair : [0, d].length = 2 := rfl
  have hecho : (stream.take (commandLength font text)).length = commandLength font text :=
    List.length_take_of_le (by omega)
  generalize hz : stream.take (commandLength font text) ++ x = z
  have hstream : stream = z ++ [0, d] ++ y := by
    rw [← hz, List.append_assoc, List.append_assoc, ← List.append_assoc x, ← hdrop,
      List.take_append_drop]
  have hle : commandLength font text ≤ z.length := by
    rw [← hz, List.length_append, hecho]
    exact Nat.le_add_right _ _
  have htogether := segmentation_around (List.cons_ne_nil 0 [d]) (by decide : 2 ≤ 4095) z y
  have hcut : Segmentation (z ++ [0, d] ++ y) (singles z ++ singles [0, d] ++ singles y) := by
    rw [← singles_append, ← singles_append]
    exact segmentation_singles _
  have hshort : ∀ c ∈ [[0, d]], Plain c := fun c hc => by
    rw [List.mem_singleton.mp hc]
    exact plain_of_length_lt (by decide : 2 < 8)
  have hplain : ∀ {s chunk}, chunk ∈ singles s → Plain chunk := plain_of_mem_singles
  have hplain₁ : ∀ chunk ∈ singles z ++ [[0, d]] ++ singles y, Plain chunk := by
    simp only [List.mem_append]
    rintro chunk ((h | h) | h)
    · exact hplain h
    · exact hshort chunk h
    · exact hplain h
  have hplain₂ : ∀ chunk ∈ singles z ++ singles [0, d] ++ singles y, Plain chunk := by
    simp only [List.mem_append]
    rintro chunk ((h | h) | h) <;> exact hplain h
  refine ⟨_, _, hstream ▸ htogether, hstream ▸ hcut, fun heq => ?_⟩
  rw [outcome_eq, outcome_eq, lastProgress_plain hplain₁, lastProgress_plain hplain₂] at heq
  exact printedOf_nul_next hle hd (List.append_cancel_right heq)

/-- The text printed and the number of answers do not depend on the cuts exactly for a reply of one
page. -/
theorem reply_independent_iff (font text stream : Bytes) :
    (∀ reads reads', Segmentation stream reads → Segmentation stream reads' →
      (outcome font text reads).stdout = (outcome font text reads').stdout ∧
      (outcome font text reads).moreCommands = (outcome font text reads').moreCommands) ↔
    OnePage font text stream := by
  constructor
  · intro h
    have hsingles : ∀ chunk ∈ singles stream, Plain chunk := fun chunk hchunk =>
      plain_of_mem_singles hchunk
    refine ⟨?_, ?_⟩
    · rintro ⟨a, b, rfl⟩
      have hmore := (h _ _ (segmentation_around (by decide) (by decide) a b)
        (segmentation_singles _)).2
      rw [outcome_eq, outcome_eq] at hmore
      dsimp only at hmore
      rw [moreCommands_of_more, lastProgress_plain hsingles] at hmore
      exact absurd hmore Nat.one_ne_zero
    · intro a b hdrop c hc
      by_contra hne
      obtain ⟨x, d, y, hnext, hd⟩ := exists_nul_next hne a hc
      obtain ⟨reads, reads', hreads, hreads', hdiff⟩ := exists_cuts_of_nul hd (hdrop.trans hnext)
      exact hdiff (h reads reads' hreads hreads').1
  · intro honePage reads reads' hreads hreads'
    rw [outcome_onePage honePage hreads hreads']
    exact ⟨rfl, rfl⟩

end Outcomes

/-- A reply that stops at the pager is answered where it comes in one `recv`, and not where it is
cut inside the pattern. -/
theorem pager_cut_unanswered :
    ¬∀ reads reads', Segmentation (command [97] [98] ++ morePattern) reads →
      Segmentation (command [97] [98] ++ morePattern) reads' →
      (outcome [97] [98] reads).stdout = (outcome [97] [98] reads').stdout ∧
      (outcome [97] [98] reads).moreCommands = (outcome [97] [98] reads').moreCommands := by
  intro h
  have hwhole : Segmentation (command [97] [98] ++ morePattern)
      [command [97] [98] ++ morePattern] := by
    refine ⟨?_, ?_, ?_⟩ <;> decide
  have hcut : Segmentation (command [97] [98] ++ morePattern)
      [command [97] [98] ++ ascii "--M", ascii "ore--"] := by
    refine ⟨?_, ?_, ?_⟩ <;> decide
  exact absurd (h _ _ hwhole hcut).2 (by decide)

end CourseWork.Telehack
