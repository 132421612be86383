import CourseWork.Torrent.BencodeGrammar

/-!
# Encoder against decoder, decoder against the format

Results:
1. `decode_encode`: decoding an encoding gives the value back;
2. `encode_eq_iff`: a text is the encoding of a value exactly when it spells it
   with canonical numerals;
3. `decode_grammar_iff`: the decoder agrees with the described format on a buffer
   exactly when the buffer is not a well-formed text with a numeral that only
   `strtol` reads (`Lax`).
-/

namespace CourseWork.Bencode
open CLib

/-! ## Comparing numerals -/

/-- On texts shorter than `N`, every numeral of `T` is one of `U`. -/
structure Tokens.Le (N : Nat) (T U : Tokens) : Prop where
  int : ∀ t n, T.int t n → U.int t n
  len : ∀ t n, n < N → T.len t n → U.len t n
  key : ∀ t n, n < N → T.key t n → U.key t n

mutual
theorem spells_mono {N : Nat} {T U : Tokens} (hTU : T.Le N U) : ∀ (v : Ben) {s : Bytes},
    s.length < N → Spells T v s → Spells U v s
  | .str data, _, hN, .str ht => by
    simp only [List.length_append, List.length_cons] at hN
    exact .str (hTU.len _ _ (by omega) ht)
  | .int n, _, _, .int ht => .int (hTU.int _ _ ht)
  | .list items, _, hN, .list h => by
    simp only [List.length_append, List.length_cons] at hN
    exact .list (spellsItems_mono hTU items (by omega) h)
  | .dict pairs, _, hN, .dict h => by
    simp only [List.length_append, List.length_cons] at hN
    exact .dict (spellsPairs_mono hTU pairs (by omega) h)

theorem spellsItems_mono {N : Nat} {T U : Tokens} (hTU : T.Le N U) :
    ∀ (items : Items) {s : Bytes},
    s.length < N → SpellsItems T items s → SpellsItems U items s
  | .nil, _, _, .nil => .nil
  | .cons item items, _, hN, .cons h hrest => by
    rw [List.length_append] at hN
    exact .cons (spells_mono hTU item (by omega) h) (spellsItems_mono hTU items (by omega) hrest)

theorem spellsPairs_mono {N : Nat} {T U : Tokens} (hTU : T.Le N U) :
    ∀ (pairs : Pairs) {s : Bytes},
    s.length < N → SpellsPairs T pairs s → SpellsPairs U pairs s
  | .nil, _, _, .nil => .nil
  | .cons key value pairs, _, hN, .cons hk h hrest => by
    simp only [List.length_append, List.length_cons] at hN
    exact .cons (hTU.key _ _ (by omega) hk) (spells_mono hTU value (by omega) h)
      (spellsPairs_mono hTU pairs (by omega) hrest)
end

theorem digits_notMem {t : Bytes} {c : UInt8} (h : Digits t) (hc : Numeral.isDigit 10 c = false) :
    c ∉ t := fun hm => by rw [h.2 c hm] at hc; exact nomatch hc

/-- `strtol` reads a length written in decimal digits, if it fits a `long`. -/
theorem strtol_len {t : Bytes} (h : Digits t) (hn : Numeral.value 10 t < 2 ^ 63) :
    (strtol t).1 = Numeral.value 10 t := by
  have hclamp : clampLong (Numeral.value 10 t : Int) = Numeral.value 10 t :=
    clampLong_eq (by unfold longMin; omega) (by unfold longMax; omega)
  rw [strtol_digits h.1 h.2, hclamp]

theorem strtol_int {ds t : Bytes} {n : Int64} (h : Digits ds)
    (ht : t = ds ∧ n.toInt = Numeral.value 10 ds ∨ t = 45 :: ds ∧ n.toInt = -Numeral.value 10 ds) :
    strtol t = (n.toInt, t.length) := by
  have h1 := n.le_toInt
  have h2 := n.toInt_lt
  have hclamp : clampLong n.toInt = n.toInt :=
    clampLong_eq (by unfold longMin; omega) (by unfold longMax; omega)
  rcases ht with ⟨rfl, hn⟩ | ⟨rfl, hn⟩
  · rw [strtol_digits h.1 h.2, ← hn, hclamp]
  · rw [strtol_neg h.1 h.2, ← hn, hclamp]
    rfl

/-- Within a C object, `strtol` takes every numeral the format allows. -/
theorem readme_le_strtol : readmeTokens.Le (2 ^ 63) strtolTokens where
  int t n := by
    rintro ⟨ds, hds, ht⟩
    refine ⟨?_, strtol_int hds ht⟩
    have hmem := digits_notMem hds (c := 101) (by decide)
    rcases ht with ⟨rfl, _⟩ | ⟨rfl, _⟩
    · exact hmem
    · simpa using hmem
  len t n := by
    rintro hn ⟨hd, rfl⟩
    refine ⟨digits_notMem hd (by decide), ?_, strtol_len hd hn⟩
    obtain ⟨c, cs, rfl⟩ := List.exists_cons_of_ne_nil hd.1
    exact ⟨c, cs, rfl, hd.2 c (by simp)⟩
  key t n := by
    rintro hn ⟨hd, rfl⟩
    refine ⟨digits_notMem hd (by decide), ?_, strtol_len hd hn⟩
    intro hhead
    exact digits_notMem hd (c := 101) (by decide) (List.mem_of_mem_head? hhead)

theorem canonical_le_readme (N : Nat) : canonicalTokens.Le N readmeTokens where
  int t n := by
    rintro ⟨ds, hds, _, ⟨rfl, hn⟩ | ⟨rfl, _, hn⟩⟩
    · exact ⟨_, hds, .inl ⟨rfl, hn⟩⟩
    · exact ⟨ds, hds, .inr ⟨rfl, hn⟩⟩
  len _ _ _ h := ⟨h.1, h.2.2⟩
  key _ _ _ h := ⟨h.1, h.2.2⟩

theorem canonical_spells_strtol {v : Ben} {s : Bytes} (hN : s.length < 2 ^ 63)
    (h : Spells canonicalTokens v s) : Spells strtolTokens v s :=
  spells_mono readme_le_strtol v hN (spells_mono (canonical_le_readme _) v hN h)

/-! ## The encoder writes canonical texts -/

theorem digits_print (n : Nat) : Digits (Numeral.print 10 n) :=
  ⟨Numeral.print_ne_nil n, fun _ hc => Numeral.isDigit_of_mem_print (by decide) (by decide) hc⟩

theorem canonical_len (n : Nat) : canonicalTokens.len (Numeral.print 10 n) n :=
  ⟨digits_print n, Numeral.canonical_print (by decide) (by decide) n,
    Numeral.value_print (by decide) (by decide) n⟩

theorem canonical_key (n : Nat) : canonicalTokens.key (Numeral.print 10 n) n := canonical_len n

theorem canonical_int (n : Int64) : canonicalTokens.int (printLong n.toInt) n := by
  have hval := Numeral.value_print (b := 10) (by decide) (by decide) n.toInt.natAbs
  refine ⟨Numeral.print 10 n.toInt.natAbs, digits_print _,
    Numeral.canonical_print (by decide) (by decide) _, ?_⟩
  unfold printLong
  split
  · next hneg =>
    refine .inr ⟨rfl, ?_, by rw [hval]; omega⟩
    intro h0
    rw [h0, Numeral.value_zero] at hval
    omega
  · exact .inl ⟨rfl, by rw [hval]; omega⟩

mutual
theorem encodeObj_spells : ∀ v : Ben, Spells canonicalTokens v (encodeObj v)
  | .str data => .str (canonical_len data.length)
  | .int n => .int (canonical_int n)
  | .list items => .list (encodeItems_spells items)
  | .dict pairs => .dict (encodePairs_spells pairs)

theorem encodeItems_spells : ∀ items : Items,
    SpellsItems canonicalTokens items (encodeItems items)
  | .nil => .nil
  | .cons item items => .cons (encodeObj_spells item) (encodeItems_spells items)

theorem encodePairs_spells : ∀ pairs : Pairs,
    SpellsPairs canonicalTokens pairs (encodePairs pairs)
  | .nil => .nil
  | .cons key value pairs =>
    .cons (canonical_key key.length) (encodeObj_spells value) (encodePairs_spells pairs)
end

/-- Decoding an encoding succeeds and gives the value back. -/
theorem decode_encode (v : Ben) (h : (bencodeEncode v).length < 2 ^ 63) :
    bencodeDecode (bencodeEncode v) = .ok (some v) :=
  bencodeDecode_iff.mpr (canonical_spells_strtol h (encodeObj_spells v))

/-- A dictionary with a binary key that looks like bencode, holding a nested list and the
smallest integer. -/
theorem decode_encode_nested :
    bencodeDecode (bencodeEncode (.dict (.cons (ascii "2:e")
      (.list (.cons (.int (-9223372036854775808)) (.cons (.str [0, 58]) .nil))) .nil))) =
    .ok (some (.dict (.cons (ascii "2:e")
      (.list (.cons (.int (-9223372036854775808)) (.cons (.str [0, 58]) .nil))) .nil))) :=
  decode_encode _ (by decide +kernel)

/-! ## Canonical texts are encodings -/

theorem canonical_len_eq {t : Bytes} {n : Nat} (h : canonicalTokens.len t n) :
    t = Numeral.print 10 n := by
  obtain ⟨hd, hc, rfl⟩ := h
  exact (Numeral.print_value (by decide) (by decide) hd.2 hc).symm

theorem canonical_int_eq {t : Bytes} {n : Int64} (h : canonicalTokens.int t n) :
    t = printLong n.toInt := by
  obtain ⟨ds, hd, hc, ⟨rfl, hn⟩ | ⟨rfl, hne, hn⟩⟩ := h
  · have hp := Numeral.print_value (b := 10) (by decide) (by decide) hd.2 hc
    rw [printLong, if_neg (by omega), hn, Int.natAbs_natCast, hp]
  · have hp := Numeral.print_value (b := 10) (by decide) (by decide) hd.2 hc
    have hpos : Numeral.value 10 ds ≠ 0 := by
      intro h0
      rw [h0] at hp
      exact hne hp.symm
    rw [printLong, if_pos (by omega), hn, Int.natAbs_neg, Int.natAbs_natCast, hp]

mutual
theorem canonical_eq_encodeObj : ∀ (v : Ben) {s : Bytes},
    Spells canonicalTokens v s → s = encodeObj v
  | .str data, _, .str ht => by rw [canonical_len_eq ht]; rfl
  | .int n, _, .int ht => by rw [canonical_int_eq ht]; rfl
  | .list items, _, .list h => by rw [canonical_eq_encodeItems items h]; rfl
  | .dict pairs, _, .dict h => by rw [canonical_eq_encodePairs pairs h]; rfl

theorem canonical_eq_encodeItems : ∀ (items : Items) {s : Bytes},
    SpellsItems canonicalTokens items s → s = encodeItems items
  | .nil, _, .nil => rfl
  | .cons item items, _, .cons h hrest => by
    rw [canonical_eq_encodeObj item h, canonical_eq_encodeItems items hrest]
    rfl

theorem canonical_eq_encodePairs : ∀ (pairs : Pairs) {s : Bytes},
    SpellsPairs canonicalTokens pairs s → s = encodePairs pairs
  | .nil, _, .nil => rfl
  | .cons key value pairs, _, .cons hk h hrest => by
    rw [canonical_len_eq hk, canonical_eq_encodeObj value h, canonical_eq_encodePairs pairs hrest]
    rfl
end

/-- A text is the encoding of `v` exactly when it spells `v` canonically. -/
theorem encode_eq_iff {v : Ben} {s : Bytes} : encodeObj v = s ↔ Spells canonicalTokens v s :=
  ⟨fun h => h ▸ encodeObj_spells v, fun h => (canonical_eq_encodeObj v h).symm⟩

/-- For a text the decoder takes, encoding its value gives the text back exactly
when all its numerals are canonical. -/
theorem reencode_eq_iff {v : Ben} {s : Bytes} (hN : s.length < 2 ^ 63)
    (h : Spells strtolTokens v s) : encodeObj v = s ↔ ∃ w, Spells canonicalTokens w s := by
  refine ⟨fun he => ⟨v, encode_eq_iff.mp he⟩, ?_⟩
  rintro ⟨w, hw⟩
  obtain ⟨rfl, _⟩ := spells_unique (r := []) h (canonical_spells_strtol hN hw) rfl
  exact encode_eq_iff.mpr hw

/-! ## The decoder against the described format -/

mutual
/-- `Lax T U v s`: the text `s` spells `v` with numerals of `T`, and at least one of
them is not a numeral of `U`. -/
inductive Lax (T U : Tokens) : Ben → Bytes → Prop
  | str {t data : Bytes} : T.len t data.length → ¬ U.len t data.length →
      Lax T U (.str data) (t ++ 58 :: data)
  | int {t : Bytes} {n : Int64} : T.int t n → ¬ U.int t n →
      Lax T U (.int n) (105 :: (t ++ [101]))
  | list {items : Items} {s : Bytes} :
      LaxItems T U items s → Lax T U (.list items) (108 :: (s ++ [101]))
  | dict {pairs : Pairs} {s : Bytes} :
      LaxPairs T U pairs s → Lax T U (.dict pairs) (100 :: (s ++ [101]))

inductive LaxItems (T U : Tokens) : Items → Bytes → Prop
  | head {item : Ben} {items : Items} {s r : Bytes} :
      Lax T U item s → SpellsItems T items r → LaxItems T U (.cons item items) (s ++ r)
  | tail {item : Ben} {items : Items} {s r : Bytes} :
      Spells T item s → LaxItems T U items r → LaxItems T U (.cons item items) (s ++ r)

inductive LaxPairs (T U : Tokens) : Pairs → Bytes → Prop
  | key {key : Bytes} {value : Ben} {pairs : Pairs} {t s r : Bytes} :
      T.key t key.length → ¬ U.key t key.length → Spells T value s → SpellsPairs T pairs r →
      LaxPairs T U (.cons key value pairs) ((t ++ 58 :: key) ++ (s ++ r))
  | value {key : Bytes} {value : Ben} {pairs : Pairs} {t s r : Bytes} :
      T.key t key.length → Lax T U value s → SpellsPairs T pairs r →
      LaxPairs T U (.cons key value pairs) ((t ++ 58 :: key) ++ (s ++ r))
  | tail {key : Bytes} {value : Ben} {pairs : Pairs} {t s r : Bytes} :
      T.key t key.length → Spells T value s → LaxPairs T U pairs r →
      LaxPairs T U (.cons key value pairs) ((t ++ 58 :: key) ++ (s ++ r))
end

mutual
theorem lax_spells {T U : Tokens} : ∀ (v : Ben) {s : Bytes}, Lax T U v s → Spells T v s
  | .str _, _, .str ht _ => .str ht
  | .int _, _, .int ht _ => .int ht
  | .list items, _, .list h => .list (laxItems_spells items h)
  | .dict pairs, _, .dict h => .dict (laxPairs_spells pairs h)

theorem laxItems_spells {T U : Tokens} : ∀ (items : Items) {s : Bytes},
    LaxItems T U items s → SpellsItems T items s
  | .nil, _, h => nomatch h
  | .cons item _, _, .head h hrest => .cons (lax_spells item h) hrest
  | .cons _ items, _, .tail h hrest => .cons h (laxItems_spells items hrest)

theorem laxPairs_spells {T U : Tokens} : ∀ (pairs : Pairs) {s : Bytes},
    LaxPairs T U pairs s → SpellsPairs T pairs s
  | .nil, _, h => nomatch h
  | .cons _ _ _, _, .key hk _ h hrest => .cons hk h hrest
  | .cons _ value _, _, .value hk h hrest => .cons hk (lax_spells value h) hrest
  | .cons _ _ pairs, _, .tail hk h hrest => .cons hk h (laxPairs_spells pairs hrest)
end

mutual
/-- A text is spelled strictly, or it has a lax numeral. -/
theorem spells_or_lax {T U : Tokens} : ∀ (v : Ben) {s : Bytes},
    Spells T v s → Spells U v s ∨ Lax T U v s
  | .str data, _, .str (t := t) ht => by
    by_cases hu : U.len t data.length
    · exact .inl (.str hu)
    · exact .inr (.str ht hu)
  | .int n, _, .int (t := t) ht => by
    by_cases hu : U.int t n
    · exact .inl (.int hu)
    · exact .inr (.int ht hu)
  | .list items, _, .list h => by
    rcases spellsItems_or_lax (U := U) items h with h | h
    · exact .inl (.list h)
    · exact .inr (.list h)
  | .dict pairs, _, .dict h => by
    rcases spellsPairs_or_lax (U := U) pairs h with h | h
    · exact .inl (.dict h)
    · exact .inr (.dict h)

theorem spellsItems_or_lax {T U : Tokens} : ∀ (items : Items) {s : Bytes},
    SpellsItems T items s → SpellsItems U items s ∨ LaxItems T U items s
  | .nil, _, .nil => .inl .nil
  | .cons item items, _, .cons h hrest => by
    rcases spells_or_lax (U := U) item h with h' | h'
    · rcases spellsItems_or_lax (U := U) items hrest with hr | hr
      · exact .inl (.cons h' hr)
      · exact .inr (.tail h hr)
    · exact .inr (.head h' hrest)

theorem spellsPairs_or_lax {T U : Tokens} : ∀ (pairs : Pairs) {s : Bytes},
    SpellsPairs T pairs s → SpellsPairs U pairs s ∨ LaxPairs T U pairs s
  | .nil, _, .nil => .inl .nil
  | .cons key value pairs, _, .cons (t := t) hk h hrest => by
    by_cases hu : U.key t key.length
    · rcases spells_or_lax (U := U) value h with h' | h'
      · rcases spellsPairs_or_lax (U := U) pairs hrest with hr | hr
        · exact .inl (.cons hu h' hr)
        · exact .inr (.tail hk h hr)
      · exact .inr (.value hk h' hrest)
    · exact .inr (.key hk hu h hrest)
end

section Strict

variable {N : Nat} {U : Tokens}

mutual
/-- A text with a lax numeral is not also spelled strictly: the position of every
numeral in a text is determined. -/
theorem lax_not_strict (hU : U.Le N strtolTokens) : ∀ (v : Ben) {s : Bytes},
    Lax strtolTokens U v s → s.length < N → ¬ Spells U v s
  | .str data, _, .str (t := t) _ hu, _, h => by
    generalize hs : t ++ 58 :: data = s at h
    cases h with
    | str ht' => exact hu (List.append_cancel_right hs ▸ ht')
  | .int n, _, .int (t := t) _ hu, _, h => by
    generalize hs : 105 :: (t ++ [101]) = s at h
    cases h with
    | int ht' => exact hu (List.append_cancel_right (List.cons.inj hs).2 ▸ ht')
  | .list items, _, .list (s := a) hl, hN, h => by
    generalize hs : 108 :: (a ++ [101]) = s' at h
    cases h with
    | list h' =>
      obtain rfl := List.append_cancel_right (List.cons.inj hs).2
      simp only [List.length_append, List.length_cons] at hN
      exact laxItems_not_strict hU items hl (by omega) h'
  | .dict pairs, _, .dict (s := a) hl, hN, h => by
    generalize hs : 100 :: (a ++ [101]) = s' at h
    cases h with
    | dict h' =>
      obtain rfl := List.append_cancel_right (List.cons.inj hs).2
      simp only [List.length_append, List.length_cons] at hN
      exact laxPairs_not_strict hU pairs hl (by omega) h'

theorem laxItems_not_strict (hU : U.Le N strtolTokens) : ∀ (items : Items) {s : Bytes},
    LaxItems strtolTokens U items s → s.length < N → ¬ SpellsItems U items s
  | .nil, _, hl, _, _ => nomatch hl
  | .cons item items, _, .head (s := a) (r := r) hl _, hN, h => by
    rw [List.length_append] at hN
    generalize hs : a ++ r = s' at h
    cases h with
    | cons h' hr' =>
      have hlen := congrArg List.length hs
      simp only [List.length_append] at hlen
      obtain ⟨_, rfl⟩ := spells_unique (lax_spells item hl)
        (spells_mono hU item (by omega) h') hs
      exact lax_not_strict hU item hl (by omega) h'
  | .cons item items, _, .tail (s := a) (r := r) hi hl, hN, h => by
    rw [List.length_append] at hN
    generalize hs : a ++ r = s' at h
    cases h with
    | cons h' hr' =>
      have hlen := congrArg List.length hs
      simp only [List.length_append] at hlen
      obtain ⟨_, rfl⟩ := spells_unique hi (spells_mono hU item (by omega) h') hs
      obtain rfl := List.append_cancel_left hs
      exact laxItems_not_strict hU items hl (by omega) hr'

theorem laxPairs_not_strict (hU : U.Le N strtolTokens) : ∀ (pairs : Pairs) {s : Bytes},
    LaxPairs strtolTokens U pairs s → s.length < N → ¬ SpellsPairs U pairs s
  | .nil, _, hl, _, _ => nomatch hl
  | .cons key value pairs, s₀, hl, hN, h => by
    -- Both derivations split the text at the same colon and after the same value.
    have hsplit : ∀ {t s r t' s' r' : Bytes}, (t ++ 58 :: key) ++ (s ++ r) = s₀ →
        (t' ++ 58 :: key) ++ (s' ++ r') = s₀ → strtolTokens.key t key.length →
        U.key t' key.length → Spells strtolTokens value s → Spells U value s' →
        t = t' ∧ s = s' ∧ r = r' := by
      intro t s r t' s' r' he he' hk hk' hs hs'
      have hlen := congrArg List.length he'
      simp only [List.length_append, List.length_cons] at hlen
      have hk'' := hU.key _ _ (by omega) hk'
      have heq : t ++ 58 :: (key ++ (s ++ r)) = t' ++ 58 :: (key ++ (s' ++ r')) := by
        simpa using he.trans he'.symm
      have hm := memchr_append (key ++ (s ++ r)) hk.1
      rw [heq, memchr_append _ hk''.1] at hm
      obtain ⟨rfl, htail⟩ := List.append_inj heq (Option.some.inj hm).symm
      have hsr := List.append_cancel_left (List.cons.inj htail).2
      obtain ⟨_, rfl⟩ := spells_unique hs (spells_mono hU value (by omega) hs') hsr
      exact ⟨rfl, rfl, List.append_cancel_left hsr⟩
    generalize hs₀ : s₀ = s₁ at h
    cases h with
    | cons hk' h' hr' =>
      cases hl with
      | key hk hu hv hr =>
        obtain ⟨rfl, _, _⟩ := hsplit rfl hs₀.symm hk hk' hv h'
        exact hu hk'
      | value hk hv hr =>
        obtain ⟨_, rfl, _⟩ := hsplit rfl hs₀.symm hk hk' (lax_spells value hv) h'
        simp only [List.length_append, List.length_cons] at hN
        exact lax_not_strict hU value hv (by omega) h'
      | tail hk hv hr =>
        obtain ⟨_, _, rfl⟩ := hsplit rfl hs₀.symm hk hk' hv h'
        simp only [List.length_append, List.length_cons] at hN
        exact laxPairs_not_strict hU pairs hr (by omega) hr'
end

end Strict

/-- The decoder and the described format agree on a buffer exactly when the buffer is
not a text with a numeral that only `strtol` reads. -/
theorem decode_grammar_iff (buf : Buffer) :
    ((∃ v, bencodeDecode buf.bytes = .ok (some v)) ↔ ∃ v, Spells readmeTokens v buf.bytes) ↔
      ¬ ∃ v, Lax strtolTokens readmeTokens v buf.bytes := by
  simp only [bencodeDecode_iff]
  constructor
  · rintro ⟨himp, _⟩ ⟨v, hlax⟩
    obtain ⟨w, hw⟩ := himp ⟨v, lax_spells v hlax⟩
    have hws := spells_mono readme_le_strtol w buf.length_lt hw
    obtain ⟨rfl, _⟩ := spells_unique (r := []) (lax_spells v hlax) hws rfl
    exact lax_not_strict readme_le_strtol v hlax buf.length_lt hw
  · intro hno
    refine ⟨?_, fun ⟨v, h⟩ => ⟨v, spells_mono readme_le_strtol v buf.length_lt h⟩⟩
    rintro ⟨v, h⟩
    rcases spells_or_lax (U := readmeTokens) v h with h | h
    · exact ⟨v, h⟩
    · exact absurd ⟨v, h⟩ hno

/-- `ie` is accepted as the integer `0`, but an integer has at least one digit. -/
theorem decode_accepts_empty_int :
    ¬ ((∃ v, bencodeDecode (ascii "ie") = .ok (some v)) ↔
      ∃ v, Spells readmeTokens v (ascii "ie")) := by
  intro h
  obtain ⟨v, hv⟩ := h.mp ⟨.int 0, by decide +kernel⟩
  generalize hs : ascii "ie" = s at hv
  have hs' : ([105, 101] : Bytes) = s := hs
  cases hv with
  | str ht =>
    obtain ⟨⟨hne, hd⟩, _⟩ := ht
    obtain ⟨c, cs, rfl⟩ := List.exists_cons_of_ne_nil hne
    have := hd c (by simp)
    rw [← (List.cons.inj hs').1] at this
    exact absurd this (by decide)
  | int ht =>
    obtain ⟨ds, ⟨hne, _⟩, ⟨rfl, _⟩ | ⟨rfl, _⟩⟩ := ht
    · have hlen := congrArg List.length hs'
      have := List.length_pos_of_ne_nil hne
      simp only [List.length_cons, List.length_append, List.length_nil] at hlen
      omega
    · have hlen := congrArg List.length hs'
      simp only [List.length_cons, List.length_append, List.length_nil] at hlen
      omega
  | list _ => exact absurd (List.cons.inj hs').1 (by decide)
  | dict _ => exact absurd (List.cons.inj hs').1 (by decide)

end CourseWork.Bencode
