import CourseWork.Torrent.Bencode

/-!
# The texts the bencode decoder accepts

One grammar of bencoded texts, over a choice of how numerals may be written:
as `strtol` takes them (`strtolTokens`), as the format describes them
(`readmeTokens`), and as the encoder writes them (`canonicalTokens`).

Results:
1. `parseValue_spells`, `parseValue_inv`: the parser accepts exactly the texts
   spelled with `strtol` numerals, and leaves what follows untouched;
2. `parseValue_ne_fuel`: the recursion depth the model allows always suffices;
3. `spells_unique`: a text spells at most one value, in one way.
-/

namespace CourseWork.Bencode
open CLib

/-! ## Grammar -/

/-- How the numerals of a text are written: the text between `i` and `e`, the text
before the colon of a string value, and the text before the colon of a key. -/
structure Tokens where
  int : Bytes → Int64 → Prop
  len : Bytes → Nat → Prop
  key : Bytes → Nat → Prop

mutual
/-- `Spells T v s`: the text `s` denotes the value `v`. -/
inductive Spells (T : Tokens) : Ben → Bytes → Prop
  | str {t data : Bytes} : T.len t data.length → Spells T (.str data) (t ++ 58 :: data)
  | int {t : Bytes} {n : Int64} : T.int t n → Spells T (.int n) (105 :: (t ++ [101]))
  | list {items : Items} {s : Bytes} :
      SpellsItems T items s → Spells T (.list items) (108 :: (s ++ [101]))
  | dict {pairs : Pairs} {s : Bytes} :
      SpellsPairs T pairs s → Spells T (.dict pairs) (100 :: (s ++ [101]))

inductive SpellsItems (T : Tokens) : Items → Bytes → Prop
  | nil : SpellsItems T .nil []
  | cons {item : Ben} {items : Items} {s r : Bytes} :
      Spells T item s → SpellsItems T items r → SpellsItems T (.cons item items) (s ++ r)

inductive SpellsPairs (T : Tokens) : Pairs → Bytes → Prop
  | nil : SpellsPairs T .nil []
  | cons {key : Bytes} {value : Ben} {pairs : Pairs} {t s r : Bytes} :
      T.key t key.length → Spells T value s → SpellsPairs T pairs r →
      SpellsPairs T (.cons key value pairs) ((t ++ 58 :: key) ++ (s ++ r))
end

/-- Numerals as the parsers take them. A key is only told apart from the end of its
dictionary by its first byte. -/
def strtolTokens : Tokens where
  int t n := 101 ∉ t ∧ strtol t = (n.toInt, t.length)
  len t n := 58 ∉ t ∧ (∃ c cs, t = c :: cs ∧ Numeral.isDigit 10 c = true) ∧ (strtol t).1 = n
  key t n := 58 ∉ t ∧ t.head? ≠ some 101 ∧ (strtol t).1 = n

/-- `t` is a non-empty string of decimal digits. -/
def Digits (t : Bytes) : Prop := t ≠ [] ∧ ∀ c ∈ t, Numeral.isDigit 10 c = true

/-- Numerals as the format describes them: decimal digits, and an optional minus in
front of an integer. -/
def readmeTokens : Tokens where
  int t n := ∃ ds, Digits ds ∧
    (t = ds ∧ n.toInt = Numeral.value 10 ds ∨ t = 45 :: ds ∧ n.toInt = -Numeral.value 10 ds)
  len t n := Digits t ∧ Numeral.value 10 t = n
  key t n := Digits t ∧ Numeral.value 10 t = n

/-- Numerals as the encoder writes them: no superfluous leading zero and no `-0`. -/
def canonicalTokens : Tokens where
  int t n := ∃ ds, Digits ds ∧ Numeral.Canonical ds ∧
    (t = ds ∧ n.toInt = Numeral.value 10 ds ∨
      t = 45 :: ds ∧ ds ≠ [48] ∧ n.toInt = -Numeral.value 10 ds)
  len t n := Digits t ∧ Numeral.Canonical t ∧ Numeral.value 10 t = n
  key t n := Digits t ∧ Numeral.Canonical t ∧ Numeral.value 10 t = n

/-! ## Strings and integers -/

theorem stops_colon : Stops 58 := by decide

theorem stops_e : Stops 101 := by decide

theorem parseString_spells {t data : Bytes} (r : Bytes) (ht : 58 ∉ t)
    (hlen : (strtol t).1 = data.length) :
    parseString (t ++ 58 :: (data ++ r)) = ⟨some r, some (.str data)⟩ := by
  have hfit : ¬ ((data.length : Int) < 0 ∨
      (t ++ 58 :: (data ++ r)).length < t.length + 1 + data.length) := by
    simp only [List.length_append, List.length_cons]
    omega
  simp only [parseString, memchr_append _ ht, strtol_append t _ stops_colon, hlen,
    Int.toNat_natCast, if_neg hfit, drop_delimiter, List.drop_left, List.take_left]

theorem parseString_inv {s r : Bytes} {v : Ben} (h : parseString s = ⟨some r, some v⟩) :
    ∃ t data, v = .str data ∧ s = t ++ 58 :: (data ++ r) ∧ 58 ∉ t ∧
      (strtol t).1 = data.length := by
  unfold parseString at h
  split at h
  · exact nomatch h
  · next colon hm =>
    obtain ⟨t, u, rfl, ht, rfl⟩ := memchr_some hm
    simp only [strtol_append t u stops_colon] at h
    split at h
    · exact nomatch h
    · next hfit =>
      rw [drop_delimiter] at h
      simp only [Parsed.mk.injEq, Option.some.injEq] at h
      obtain ⟨hr, hv⟩ := h
      simp only [List.length_append, List.length_cons, not_or, Int.not_lt, Nat.not_lt] at hfit
      refine ⟨t, u.take (strtol t).1.toNat, hv.symm, ?_, ht, ?_⟩
      · rw [← hr, List.take_append_drop]
      · rw [List.length_take]
        omega

theorem parseInt_spells {t : Bytes} {n : Int64} (c : UInt8) (r : Bytes) (ht : 101 ∉ t)
    (hint : strtol t = (n.toInt, t.length)) :
    parseInt (c :: (t ++ 101 :: r)) = ⟨some r, some (.int n)⟩ := by
  simp [parseInt, memchr_append _ ht, strtol_append t _ stops_e, hint]

theorem parseInt_inv {c : UInt8} {s r : Bytes} {v : Ben}
    (h : parseInt (c :: s) = ⟨some r, some v⟩) :
    ∃ t n, v = .int n ∧ s = t ++ 101 :: r ∧ 101 ∉ t ∧ strtol t = (n.toInt, t.length) := by
  unfold parseInt at h
  rw [List.tail_cons] at h
  simp only at h
  split at h
  · exact nomatch h
  · next e hm =>
    obtain ⟨t, u, rfl, ht, rfl⟩ := memchr_some hm
    have hb := strtol_bounds t
    rw [strtol_append t u stops_e] at h
    rcases hs : strtol t with ⟨n, e⟩
    rw [hs] at h hb
    simp only at h
    split at h
    · exact nomatch h
    · next hend =>
      rw [drop_delimiter] at h
      simp only [Parsed.mk.injEq, Option.some.injEq] at h
      obtain ⟨rfl, rfl⟩ := h
      refine ⟨t, Int64.ofInt n, rfl, rfl, ht, ?_⟩
      rw [Int64.toInt_ofInt_of_le hb.1 (by have := hb.2; unfold longMax at this; omega)]
      rw [Decidable.not_not.mp hend] at hs
      exact hs

/-! ## The parser on a spelled text -/

theorem spells_length {T : Tokens} {v : Ben} {s : Bytes} (h : Spells T v s) : 1 ≤ s.length := by
  cases h <;> simp only [List.length_append, List.length_cons] <;> omega

theorem parseValue_digit {c : UInt8} (fuel : Nat) (s : Bytes) (h : Numeral.isDigit 10 c = true) :
    parseValue (fuel + 1) (c :: s) = .ok (parseString (c :: s)) := by
  rw [parseValue, if_pos h]

theorem parseValue_int (fuel : Nat) (s : Bytes) :
    parseValue (fuel + 1) (105 :: s) = .ok (parseInt (105 :: s)) := by
  rw [parseValue, if_neg (by decide), if_pos rfl]

theorem parseValue_list (fuel : Nat) (s : Bytes) :
    parseValue (fuel + 1) (108 :: s) = parseList fuel (108 :: s) := by
  rw [parseValue, if_neg (by decide), if_neg (by decide), if_pos rfl]

theorem parseValue_dict (fuel : Nat) (s : Bytes) :
    parseValue (fuel + 1) (100 :: s) = parseDict fuel (100 :: s) := by
  rw [parseValue, if_neg (by decide), if_neg (by decide), if_neg (by decide), if_pos rfl]

/-- No value starts with the byte that ends a list. -/
theorem spells_head {v : Ben} {s : Bytes} (h : Spells strtolTokens v s) :
    ∃ c cs, s = c :: cs ∧ c ≠ 101 := by
  cases h with
  | str ht =>
    obtain ⟨_, ⟨c, cs, rfl, hc⟩, _⟩ := ht
    refine ⟨c, _, rfl, ?_⟩
    rintro rfl
    exact absurd hc (by decide)
  | int _ => exact ⟨_, _, rfl, by decide⟩
  | list _ => exact ⟨_, _, rfl, by decide⟩
  | dict _ => exact ⟨_, _, rfl, by decide⟩

mutual
/-- A spelled text is parsed to its value, and the rest of the buffer is left. -/
theorem parseValue_spells : ∀ (v : Ben) {s : Bytes} (r : Bytes) (fuel : Nat),
    Spells strtolTokens v s → 3 * s.length ≤ fuel →
    parseValue fuel (s ++ r) = .ok ⟨some r, some v⟩
  | .str data, _, r, fuel, .str (t := t) ht, hf => by
    obtain ⟨hcolon, ⟨c, cs, rfl, hc⟩, hlen⟩ := ht
    obtain ⟨fuel, rfl⟩ : ∃ k, fuel = k + 1 := ⟨fuel - 1, by simp at hf; omega⟩
    have hp := parseString_spells r hcolon hlen
    rw [List.append_assoc, List.cons_append, List.cons_append, parseValue_digit _ _ hc]
    exact congrArg _ hp
  | .int n, _, r, fuel, .int (t := t) ht, hf => by
    obtain ⟨fuel, rfl⟩ : ∃ k, fuel = k + 1 := ⟨fuel - 1, by simp at hf; omega⟩
    rw [List.cons_append, List.append_assoc, List.singleton_append, parseValue_int]
    exact congrArg _ (parseInt_spells 105 r ht.1 ht.2)
  | .list items, _, r, fuel, .list (s := s) h, hf => by
    obtain ⟨fuel, rfl⟩ : ∃ k, fuel = k + 2 := ⟨fuel - 2, by simp at hf; omega⟩
    have hitems := parseItems_spells items r fuel h (by simp at hf; omega)
    rw [List.cons_append, List.append_assoc, List.singleton_append, parseValue_list, parseList,
      List.tail_cons, hitems]
    rfl
  | .dict pairs, _, r, fuel, .dict (s := s) h, hf => by
    obtain ⟨fuel, rfl⟩ : ∃ k, fuel = k + 2 := ⟨fuel - 2, by simp at hf; omega⟩
    have hpairs := parsePairs_spells pairs r fuel h (by simp at hf; omega)
    rw [List.cons_append, List.append_assoc, List.singleton_append, parseValue_dict, parseDict,
      List.tail_cons, hpairs]
    rfl

theorem parseItems_spells : ∀ (items : Items) {s : Bytes} (r : Bytes) (fuel : Nat),
    SpellsItems strtolTokens items s → 3 * s.length + 1 ≤ fuel →
    parseItems fuel (s ++ 101 :: r) = .ok (some r, items)
  | .nil, _, r, fuel, .nil, hf => by
    obtain ⟨fuel, rfl⟩ : ∃ k, fuel = k + 1 := ⟨fuel - 1, by omega⟩
    rw [List.nil_append, parseItems, if_pos rfl]
  | .cons item items, _, r, fuel, .cons (s := s) (r := s') hv hrest, hf => by
    obtain ⟨fuel, rfl⟩ : ∃ k, fuel = k + 1 := ⟨fuel - 1, by omega⟩
    have h1 := spells_length hv
    rw [List.length_append] at hf
    have hitem := parseValue_spells item (s' ++ 101 :: r) fuel hv (by omega)
    have hitems := parseItems_spells items r fuel hrest (by omega)
    obtain ⟨c, cs, rfl, hc⟩ := spells_head hv
    rw [List.append_assoc]
    rw [List.cons_append] at hitem ⊢
    rw [parseItems, if_neg hc, hitem]
    simp only [bind, Except.bind, hitems]
    rfl

theorem parsePairs_spells : ∀ (pairs : Pairs) {s : Bytes} (r : Bytes) (fuel : Nat),
    SpellsPairs strtolTokens pairs s → 3 * s.length + 1 ≤ fuel →
    parsePairs fuel (s ++ 101 :: r) = .ok (some r, pairs)
  | .nil, _, r, fuel, .nil, hf => by
    obtain ⟨fuel, rfl⟩ : ∃ k, fuel = k + 1 := ⟨fuel - 1, by omega⟩
    rw [List.nil_append, parsePairs, if_pos rfl]
  | .cons key value pairs, _, r, fuel, .cons (t := t) (s := s) (r := s') hk hv hrest, hf => by
    obtain ⟨fuel, rfl⟩ : ∃ k, fuel = k + 1 := ⟨fuel - 1, by omega⟩
    obtain ⟨hcolon, hhead, hlen⟩ := hk
    simp only [List.length_append, List.length_cons] at hf
    have hvalue := parseValue_spells value (s' ++ 101 :: r) fuel hv (by omega)
    have hpairs := parsePairs_spells pairs r fuel hrest (by omega)
    have hkey := parseString_spells (s ++ (s' ++ 101 :: r)) hcolon hlen
    have hassoc : t ++ 58 :: key ++ (s ++ s') ++ 101 :: r =
        t ++ 58 :: (key ++ (s ++ (s' ++ 101 :: r))) := by simp
    have hcons : ∃ c cs, t ++ 58 :: (key ++ (s ++ (s' ++ 101 :: r))) = c :: cs ∧ c ≠ 101 := by
      cases t with
      | nil => exact ⟨_, _, rfl, by decide⟩
      | cons c cs => exact ⟨c, _, rfl, by simpa using hhead⟩
    obtain ⟨c, cs, hcs, hc⟩ := hcons
    rw [hassoc, hcs]
    rw [hcs] at hkey
    rw [parsePairs, if_neg hc, hkey]
    simp only [bind, Except.bind, hvalue, hpairs]
    rfl
end

/-! ## The text of a parsed value -/

theorem bind_eq_ok {ε α β : Type} {x : Except ε α} {f : α → Except ε β} {b : β}
    (h : (x >>= f) = .ok b) : ∃ a, x = .ok a ∧ f a = .ok b := by
  cases x with
  | error e => exact nomatch h
  | ok a => exact ⟨a, rfl, h⟩

theorem bind_eq_error {ε α β : Type} {x : Except ε α} {f : α → Except ε β} {e : ε}
    (h : (x >>= f) = .error e) : x = .error e ∨ ∃ a, x = .ok a ∧ f a = .error e := by
  cases x with
  | error e' => exact .inl (congrArg _ (Except.error.inj h))
  | ok a => exact .inr ⟨a, rfl, h⟩

theorem parseList_inv {fuel : Nat} {c : UInt8} {s r : Bytes} {v : Ben}
    (h : parseList (fuel + 1) (c :: s) = .ok ⟨some r, some v⟩) :
    ∃ items, v = .list items ∧ parseItems fuel s = .ok (some r, items) := by
  rw [parseList] at h
  obtain ⟨⟨next, items⟩, hitems, hret⟩ := bind_eq_ok h
  simp only [pure, Except.pure, Except.ok.injEq, Parsed.mk.injEq, Option.some.injEq] at hret
  obtain ⟨rfl, rfl⟩ := hret
  exact ⟨items, rfl, hitems⟩

theorem parseDict_inv {fuel : Nat} {c : UInt8} {s r : Bytes} {v : Ben}
    (h : parseDict (fuel + 1) (c :: s) = .ok ⟨some r, some v⟩) :
    ∃ pairs, v = .dict pairs ∧ parsePairs fuel s = .ok (some r, pairs) := by
  rw [parseDict] at h
  obtain ⟨⟨next, pairs⟩, hpairs, hret⟩ := bind_eq_ok h
  simp only [pure, Except.pure, Except.ok.injEq, Parsed.mk.injEq, Option.some.injEq] at hret
  obtain ⟨rfl, rfl⟩ := hret
  exact ⟨pairs, rfl, hpairs⟩

/-- A round of the list loop that goes on has parsed an item. -/
theorem parseItems_step {fuel : Nat} {c : UInt8} {s r : Bytes} {items : Items} (hc : c ≠ 101)
    (h : parseItems (fuel + 1) (c :: s) = .ok (some r, items)) :
    ∃ next item items', items = .cons item items' ∧
      parseValue fuel (c :: s) = .ok ⟨some next, some item⟩ ∧
      parseItems fuel next = .ok (some r, items') := by
  rw [parseItems, if_neg hc] at h
  obtain ⟨p, hp, h⟩ := bind_eq_ok h
  split at h
  · next next item =>
    obtain ⟨⟨r', items'⟩, hitems, hret⟩ := bind_eq_ok h
    simp only [pure, Except.pure, Except.ok.injEq, Prod.mk.injEq] at hret
    obtain ⟨rfl, rfl⟩ := hret
    exact ⟨next, item, items', rfl, hp, hitems⟩
  · exact nomatch h

/-- A round of the dictionary loop that goes on has parsed a key and a value. -/
theorem parsePairs_step {fuel : Nat} {c : UInt8} {s r : Bytes} {pairs : Pairs} (hc : c ≠ 101)
    (h : parsePairs (fuel + 1) (c :: s) = .ok (some r, pairs)) :
    ∃ next key valNext value pairs', pairs = .cons key value pairs' ∧
      parseString (c :: s) = ⟨some next, some (.str key)⟩ ∧
      parseValue fuel next = .ok ⟨some valNext, some value⟩ ∧
      parsePairs fuel valNext = .ok (some r, pairs') := by
  rw [parsePairs, if_neg hc] at h
  split at h
  · next next key hkey =>
    obtain ⟨p, hp, h⟩ := bind_eq_ok h
    split at h
    · next valNext value =>
      obtain ⟨⟨r', pairs'⟩, hpairs, hret⟩ := bind_eq_ok h
      simp only [pure, Except.pure, Except.ok.injEq, Prod.mk.injEq] at hret
      obtain ⟨rfl, rfl⟩ := hret
      exact ⟨next, key, valNext, value, pairs', rfl, hkey, hp, hpairs⟩
    · exact nomatch h
  · exact nomatch h

mutual
/-- What the parser consumes for a value is a text that spells it. -/
theorem parseValue_inv : ∀ (fuel : Nat) {s r : Bytes} {v : Ben},
    parseValue fuel s = .ok ⟨some r, some v⟩ →
    ∃ a, s = a ++ r ∧ Spells strtolTokens v a
  | 0, s, _, _, h => by cases s <;> exact nomatch h
  | fuel + 1, [], _, _, h => nomatch h
  | fuel + 1, c :: s, r, v, h => by
    -- The first byte chooses the branch: a digit, `i`, `l` or `d`.
    rw [parseValue] at h
    split at h
    · next hd =>
      obtain ⟨t, data, rfl, hs, ht, hlen⟩ := parseString_inv (Except.ok.inj h)
      refine ⟨t ++ 58 :: data, by rw [hs]; simp, .str ⟨ht, ?_, hlen⟩⟩
      cases t with
      | nil => rw [(List.cons.inj hs).1] at hd; exact absurd hd (by decide)
      | cons x t => exact ⟨x, t, rfl, by rw [← (List.cons.inj hs).1]; exact hd⟩
    · split at h
      · next hi =>
        obtain ⟨t, n, rfl, rfl, ht, hint⟩ := parseInt_inv (Except.ok.inj h)
        exact ⟨105 :: (t ++ [101]), by simp [hi], .int ⟨ht, hint⟩⟩
      · split at h
        · next hl =>
          obtain ⟨fuel, rfl⟩ : ∃ k, fuel = k + 1 := by
            cases fuel with
            | zero => exact nomatch h
            | succ k => exact ⟨k, rfl⟩
          obtain ⟨items, rfl, hitems⟩ := parseList_inv h
          obtain ⟨a, rfl, ha⟩ := parseItems_inv fuel hitems
          exact ⟨108 :: (a ++ [101]), by simp [hl], .list ha⟩
        · split at h
          · next hd =>
            obtain ⟨fuel, rfl⟩ : ∃ k, fuel = k + 1 := by
              cases fuel with
              | zero => exact nomatch h
              | succ k => exact ⟨k, rfl⟩
            obtain ⟨pairs, rfl, hpairs⟩ := parseDict_inv h
            obtain ⟨a, rfl, ha⟩ := parsePairs_inv fuel hpairs
            exact ⟨100 :: (a ++ [101]), by simp [hd], .dict ha⟩
          · exact nomatch h

theorem parseItems_inv : ∀ (fuel : Nat) {s r : Bytes} {items : Items},
    parseItems fuel s = .ok (some r, items) →
    ∃ a, s = a ++ 101 :: r ∧ SpellsItems strtolTokens items a
  | 0, _, _, _, h => nomatch h
  | fuel + 1, [], _, _, h => nomatch h
  | fuel + 1, c :: s, r, items, h => by
    by_cases hc : c = 101
    · subst hc
      rw [parseItems, if_pos rfl] at h
      simp only [Except.ok.injEq, Prod.mk.injEq, Option.some.injEq] at h
      obtain ⟨rfl, rfl⟩ := h
      exact ⟨[], rfl, .nil⟩
    · obtain ⟨next, item, items', rfl, hitem, hrest⟩ := parseItems_step hc h
      obtain ⟨a, ha, hsa⟩ := parseValue_inv fuel hitem
      obtain ⟨b, rfl, hsb⟩ := parseItems_inv fuel hrest
      exact ⟨a ++ b, by rw [ha, List.append_assoc], .cons hsa hsb⟩

theorem parsePairs_inv : ∀ (fuel : Nat) {s r : Bytes} {pairs : Pairs},
    parsePairs fuel s = .ok (some r, pairs) →
    ∃ a, s = a ++ 101 :: r ∧ SpellsPairs strtolTokens pairs a
  | 0, _, _, _, h => nomatch h
  | fuel + 1, [], _, _, h => nomatch h
  | fuel + 1, c :: s, r, pairs, h => by
    by_cases hc : c = 101
    · subst hc
      rw [parsePairs, if_pos rfl] at h
      simp only [Except.ok.injEq, Prod.mk.injEq, Option.some.injEq] at h
      obtain ⟨rfl, rfl⟩ := h
      exact ⟨[], rfl, .nil⟩
    · obtain ⟨next, key, valNext, value, pairs', rfl, hkey, hvalue, hrest⟩ :=
        parsePairs_step hc h
      obtain ⟨t, data, hdata, hs, ht, hlen⟩ := parseString_inv hkey
      cases hdata
      obtain ⟨a, rfl, hsa⟩ := parseValue_inv fuel hvalue
      obtain ⟨b, rfl, hsb⟩ := parsePairs_inv fuel hrest
      have hhead : t.head? ≠ some 101 := by
        cases t with
        | nil => simp
        | cons x t => rw [List.head?_cons, ← (List.cons.inj hs).1]; simpa using hc
      refine ⟨t ++ 58 :: key ++ (a ++ b), by rw [hs]; simp, .cons ⟨ht, hhead, hlen⟩ hsa hsb⟩
end

/-! ## Termination and uniqueness -/

mutual
/-- Three calls for each byte are enough. -/
theorem parseValue_ne_fuel : ∀ (fuel : Nat) (s : Bytes), 3 * s.length ≤ fuel →
    parseValue fuel s ≠ .error .fuel
  | fuel, [], _ => by cases fuel <;> exact fun h => nomatch h
  | 0, c :: s, hf => by simp at hf
  | fuel + 1, c :: s, hf => by
    rw [List.length_cons] at hf
    rw [parseValue]
    split
    · exact fun h => nomatch h
    · split
      · exact fun h => nomatch h
      · obtain ⟨fuel, rfl⟩ : ∃ k, fuel = k + 1 := ⟨fuel - 1, by omega⟩
        split
        · rw [parseList]
          intro h
          rcases bind_eq_error h with h | ⟨_, _, h⟩
          · exact parseItems_ne_fuel fuel s (by omega) h
          · exact nomatch h
        · split
          · rw [parseDict]
            intro h
            rcases bind_eq_error h with h | ⟨_, _, h⟩
            · exact parsePairs_ne_fuel fuel s (by omega) h
            · exact nomatch h
          · exact fun h => nomatch h

theorem parseItems_ne_fuel : ∀ (fuel : Nat) (s : Bytes), 3 * s.length + 1 ≤ fuel →
    parseItems fuel s ≠ .error .fuel
  | 0, s, hf => by omega
  | fuel + 1, [], _ => fun h => nomatch h
  | fuel + 1, c :: s, hf => by
    rw [parseItems]
    split
    · exact fun h => nomatch h
    · intro h
      rcases bind_eq_error h with h | ⟨p, hp, h⟩
      · exact parseValue_ne_fuel fuel (c :: s) (by omega) h
      · split at h
        · next next item =>
          obtain ⟨a, ha, hsa⟩ := parseValue_inv fuel hp
          have hlen := congrArg List.length ha
          have h1 := spells_length hsa
          rw [List.length_append] at hlen
          rcases bind_eq_error h with h | ⟨_, _, h⟩
          · exact parseItems_ne_fuel fuel next (by omega) h
          · exact nomatch h
        · exact nomatch h

theorem parsePairs_ne_fuel : ∀ (fuel : Nat) (s : Bytes), 3 * s.length + 1 ≤ fuel →
    parsePairs fuel s ≠ .error .fuel
  | 0, s, hf => by omega
  | fuel + 1, [], _ => fun h => nomatch h
  | fuel + 1, c :: s, hf => by
    rw [parsePairs]
    split
    · exact fun h => nomatch h
    · intro h
      split at h
      · next next key hkey =>
        obtain ⟨t, data, _, hs, _, _⟩ := parseString_inv hkey
        have hlen := congrArg List.length hs
        simp only [List.length_append, List.length_cons] at hlen hf
        rcases bind_eq_error h with h | ⟨p, hp, h⟩
        · exact parseValue_ne_fuel fuel next (by omega) h
        · split at h
          · next valNext value =>
            obtain ⟨a, ha, _⟩ := parseValue_inv fuel hp
            have hlen' := congrArg List.length ha
            rw [List.length_append] at hlen'
            rcases bind_eq_error h with h | ⟨_, _, h⟩
            · exact parsePairs_ne_fuel fuel valNext (by omega) h
            · exact nomatch h
          · exact nomatch h
      · exact nomatch h
end

/-- Two texts that start the same buffer and both spell a value are the same text,
and the value is the same. -/
theorem spells_unique {v v' : Ben} {a a' r r' : Bytes} (h : Spells strtolTokens v a)
    (h' : Spells strtolTokens v' a') (heq : a ++ r = a' ++ r') : v = v' ∧ a = a' := by
  have hv := parseValue_spells v r (3 * (a.length + a'.length)) h (by omega)
  have hv' := parseValue_spells v' r' (3 * (a.length + a'.length)) h' (by omega)
  rw [heq, hv'] at hv
  simp only [Except.ok.injEq, Parsed.mk.injEq, Option.some.injEq] at hv
  obtain ⟨rfl, rfl⟩ := hv
  exact ⟨rfl, List.append_cancel_right heq⟩

/-- The decoder returns an object exactly for the texts that spell one. -/
theorem bencodeDecode_iff {s : Bytes} {v : Ben} :
    bencodeDecode s = .ok (some v) ↔ Spells strtolTokens v s := by
  constructor
  · intro h
    obtain ⟨p, hp, h⟩ := bind_eq_ok h
    obtain ⟨next, obj⟩ := p
    simp only [pure, Except.pure, Except.ok.injEq] at h
    split at h
    · next hnext =>
      subst h hnext
      obtain ⟨a, ha, hs⟩ := parseValue_inv _ hp
      rw [ha, List.append_nil]
      exact hs
    · exact nomatch h
  · intro h
    have hp := parseValue_spells v [] (depth s.length) h (by unfold depth; omega)
    rw [List.append_nil] at hp
    unfold bencodeDecode
    rw [hp]
    rfl

theorem bencodeDecode_ne_fuel (s : Bytes) : bencodeDecode s ≠ .error .fuel := by
  intro h
  rcases bind_eq_error h with h | ⟨_, _, h⟩
  · exact parseValue_ne_fuel _ s (by unfold depth; omega) h
  · exact nomatch h

end CourseWork.Bencode
