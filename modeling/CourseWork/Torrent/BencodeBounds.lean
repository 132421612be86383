import CourseWork.Torrent.BencodeMemory

/-!
# What the decoder reads

On which buffers `bencode_decode` reads behind the buffer, and on which ones its cleanup
reads a field that was never assigned.
-/

namespace CourseWork.Bencode
open CLib CheckedMemory

/-! ## Texts that end behind a key -/

/-- The text ends right behind a key of a dictionary. The dictionary may lie in others and
in lists, and what comes before the key is complete. -/
inductive CutBehindKey : Bytes → Prop
  | list {items : Items} {s r : Bytes} :
      SpellsItems strtolTokens items s → CutBehindKey r → CutBehindKey (108 :: (s ++ r))
  | key {pairs : Pairs} {s t key : Bytes} :
      SpellsPairs strtolTokens pairs s → strtolTokens.key t key.length →
      CutBehindKey (100 :: (s ++ (t ++ 58 :: (key ++ []))))
  | value {pairs : Pairs} {s t key r : Bytes} :
      SpellsPairs strtolTokens pairs s → strtolTokens.key t key.length → CutBehindKey r →
      CutBehindKey (100 :: (s ++ (t ++ 58 :: (key ++ r))))

/-- The first byte is `l` or `d`. -/
theorem CutBehindKey.head {s : Bytes} (h : CutBehindKey s) :
    ∃ c cs, s = c :: cs ∧ c ≠ 101 := by
  cases h with
  | list _ _ => exact ⟨_, _, rfl, by decide⟩
  | key _ _ => exact ⟨_, _, rfl, by decide⟩
  | value _ _ _ => exact ⟨_, _, rfl, by decide⟩

mutual
/-- A value whose first byte lies behind the buffer is missing behind a key. -/
theorem parseValue_outOfBounds : ∀ (fuel : Nat) {s : Bytes},
    parseValue fuel s = .error .outOfBounds → s = [] ∨ CutBehindKey s
  | _, [], _ => .inl rfl
  | 0, _ :: _, h => by cases h
  | fuel + 1, c :: s, h => by
    rw [parseValue] at h
    split at h
    · cases h
    · split at h
      · cases h
      · split at h
        · next hl =>
          cases fuel with
          | zero => cases h
          | succ fuel =>
            rw [parseList] at h
            rcases bind_eq_error h with h | ⟨_, _, h⟩
            · obtain ⟨items, a, r, hs, ha, hr⟩ := parseItems_outOfBounds fuel h
              rw [List.tail_cons] at hs
              rw [hl, hs]
              exact .inr (.list ha hr)
            · cases h
        · split at h
          · next hd =>
            cases fuel with
            | zero => cases h
            | succ fuel =>
              rw [parseDict] at h
              rcases bind_eq_error h with h | ⟨_, _, h⟩
              · obtain ⟨pairs, a, t, key, r, hs, ha, ht, hr⟩ := parsePairs_outOfBounds fuel h
                rw [List.tail_cons] at hs
                rw [hd, hs]
                rcases hr with rfl | hr
                · exact .inr (.key ha ht)
                · exact .inr (.value ha ht hr)
              · cases h
          · cases h

theorem parseItems_outOfBounds : ∀ (fuel : Nat) {s : Bytes},
    parseItems fuel s = .error .outOfBounds →
    ∃ items a r, s = a ++ r ∧ SpellsItems strtolTokens items a ∧ CutBehindKey r
  | 0, _, h => by cases h
  | fuel + 1, [], h => by cases h
  | fuel + 1, c :: s, h => by
    rw [parseItems] at h
    split at h
    · cases h
    · rcases bind_eq_error h with h | ⟨p, hp, h⟩
      · rcases parseValue_outOfBounds fuel h with hnil | hcut
        · cases hnil
        · exact ⟨.nil, [], c :: s, rfl, .nil, hcut⟩
      · split at h
        · next next item =>
          rcases bind_eq_error h with h | ⟨_, _, h⟩
          · obtain ⟨a, hsa, ha⟩ := parseValue_inv fuel hp
            obtain ⟨items, b, r, rfl, hb, hr⟩ := parseItems_outOfBounds fuel h
            exact ⟨.cons item items, a ++ b, r, by rw [hsa, List.append_assoc], .cons ha hb, hr⟩
          · cases h
        · cases h

theorem parsePairs_outOfBounds : ∀ (fuel : Nat) {s : Bytes},
    parsePairs fuel s = .error .outOfBounds →
    ∃ pairs a t key r, s = a ++ (t ++ 58 :: (key ++ r)) ∧ SpellsPairs strtolTokens pairs a ∧
      strtolTokens.key t (List.length key) ∧ (r = [] ∨ CutBehindKey r)
  | 0, _, h => by cases h
  | fuel + 1, [], h => by cases h
  | fuel + 1, c :: s, h => by
    rw [parsePairs] at h
    split at h
    · cases h
    · next hc =>
      split at h
      · next next key hkey =>
        obtain ⟨t, data, hdata, hs, ht, hlen⟩ := parseString_inv hkey
        cases hdata
        have hhead : t.head? ≠ some 101 := by
          cases t with
          | nil => simp
          | cons x t =>
            rw [List.head?_cons, ← (List.cons.inj hs).1]
            exact fun h => hc (Option.some.inj h)
        rcases bind_eq_error h with hvalue | ⟨p, hp, hloop⟩
        · refine ⟨.nil, [], t, key, next, hs, .nil, ⟨ht, hhead, hlen⟩, ?_⟩
          exact parseValue_outOfBounds fuel hvalue
        · split at hloop
          · next valNext value =>
            rcases bind_eq_error hloop with hpairs | ⟨_, _, hret⟩
            · obtain ⟨a, hnext, ha⟩ := parseValue_inv fuel hp
              obtain ⟨pairs, b, t', key', r, hrest, hb, ht', hr⟩ :=
                parsePairs_outOfBounds fuel hpairs
              refine ⟨.cons key value pairs, (t ++ 58 :: key) ++ (a ++ b), t', key', r, ?_,
                .cons ⟨ht, hhead, hlen⟩ ha hb, ht', hr⟩
              rw [hs, hnext, hrest]
              simp only [List.append_assoc, List.cons_append]
            · cases hret
          · cases hloop
      · cases h
end

/-- Behind complete items the loop runs into the error of the next one. -/
theorem parseItems_error {r : Bytes} (hhead : ∃ c cs, r = c :: cs ∧ c ≠ 101)
    (hr : ∀ fuel, 3 * r.length ≤ fuel → parseValue fuel r = .error .outOfBounds) (fuel : Nat) :
    ∀ {items : Items} {a : Bytes}, SpellsItems strtolTokens items a →
      3 * (a ++ r).length + 1 ≤ fuel → parseItems fuel (a ++ r) = .error .outOfBounds := by
  induction fuel with
  | zero =>
    intro items a _ hf
    omega
  | succ fuel ih =>
    intro items a hitems hf
    cases hitems with
    | nil =>
      obtain ⟨c, cs, rfl, hc⟩ := hhead
      rw [List.nil_append] at hf ⊢
      rw [parseItems, if_neg hc, hr fuel (by omega)]
      rfl
    | @cons item items s s' hv hrest =>
      have hpos := spells_length hv
      rw [List.append_assoc] at hf ⊢
      rw [List.length_append] at hf
      have hitem := parseValue_spells item (s' ++ r) fuel hv (by omega)
      have hloop := ih hrest (by omega)
      obtain ⟨c, cs, rfl, hc⟩ := spells_head hv
      rw [List.cons_append] at hitem ⊢
      rw [parseItems, if_neg hc, hitem]
      simp only [bind, Except.bind, hloop]

/-- A key does not start with the byte that ends the dictionary. -/
theorem key_head {t : Bytes} {n : Nat} (h : strtolTokens.key t n) (s : Bytes) :
    ∃ c cs, t ++ 58 :: s = c :: cs ∧ c ≠ 101 := by
  obtain ⟨_, hhead, _⟩ := h
  cases t with
  | nil => exact ⟨_, _, rfl, by decide⟩
  | cons c cs => exact ⟨c, _, rfl, by simpa using hhead⟩

/-- Behind complete pairs and a key the loop runs into the error of the value. -/
theorem parsePairs_error {t key r : Bytes} (ht : strtolTokens.key t key.length)
    (hr : ∀ fuel, 3 * r.length ≤ fuel → parseValue fuel r = .error .outOfBounds) (fuel : Nat) :
    ∀ {pairs : Pairs} {a : Bytes}, SpellsPairs strtolTokens pairs a →
      3 * (a ++ (t ++ 58 :: (key ++ r))).length + 1 ≤ fuel →
      parsePairs fuel (a ++ (t ++ 58 :: (key ++ r))) = .error .outOfBounds := by
  induction fuel with
  | zero =>
    intro pairs a _ hf
    omega
  | succ fuel ih =>
    intro pairs a hpairs hf
    cases hpairs with
    | nil =>
      obtain ⟨c, cs, hcs, hc⟩ := key_head ht (key ++ r)
      have hkey := parseString_spells r ht.1 ht.2.2
      simp only [List.nil_append, List.length_append, List.length_cons] at hf
      rw [hcs] at hkey
      rw [List.nil_append, hcs, parsePairs, if_neg hc, hkey]
      simp only [bind, Except.bind, hr fuel (by omega)]
    | @cons key' value pairs t' s s' hk hv hrest =>
      have hassoc : t' ++ 58 :: key' ++ (s ++ s') ++ (t ++ 58 :: (key ++ r)) =
          t' ++ 58 :: (key' ++ (s ++ (s' ++ (t ++ 58 :: (key ++ r))))) := by simp
      rw [hassoc] at hf ⊢
      rw [List.length_append, List.length_cons, List.length_append, List.length_append] at hf
      have hvalue := parseValue_spells value (s' ++ (t ++ 58 :: (key ++ r))) fuel hv (by omega)
      have hloop := ih hrest (by omega)
      have hkey := parseString_spells (s ++ (s' ++ (t ++ 58 :: (key ++ r)))) hk.1 hk.2.2
      obtain ⟨c, cs, hcs, hc⟩ := key_head hk (key' ++ (s ++ (s' ++ (t ++ 58 :: (key ++ r)))))
      rw [hcs] at hkey ⊢
      rw [parsePairs, if_neg hc, hkey]
      simp only [bind, Except.bind, hvalue, hloop]

/-- The parser runs out of a text that ends behind a key. -/
theorem CutBehindKey.parseValue {s : Bytes} (h : CutBehindKey s) :
    ∀ fuel, 3 * s.length ≤ fuel → Bencode.parseValue fuel s = .error .outOfBounds := by
  have hempty : ∀ fuel, Bencode.parseValue fuel [] = .error .outOfBounds := fun fuel => by
    cases fuel <;> rfl
  induction h with
  | list hitems hcut ih =>
    intro fuel hf
    obtain ⟨fuel, rfl⟩ : ∃ k, fuel = k + 2 := ⟨fuel - 2, by rw [List.length_cons] at hf; omega⟩
    rw [List.length_cons] at hf
    rw [parseValue_list, parseList, List.tail_cons,
      parseItems_error hcut.head ih fuel hitems (by omega)]
    rfl
  | key hpairs hkey =>
    intro fuel hf
    obtain ⟨fuel, rfl⟩ : ∃ k, fuel = k + 2 := ⟨fuel - 2, by rw [List.length_cons] at hf; omega⟩
    rw [List.length_cons] at hf
    rw [parseValue_dict, parseDict, List.tail_cons,
      parsePairs_error hkey (fun fuel _ => hempty fuel) fuel hpairs (by omega)]
    rfl
  | value hpairs hkey hcut ih =>
    intro fuel hf
    obtain ⟨fuel, rfl⟩ : ∃ k, fuel = k + 2 := ⟨fuel - 2, by rw [List.length_cons] at hf; omega⟩
    rw [List.length_cons] at hf
    rw [parseValue_dict, parseDict, List.tail_cons,
      parsePairs_error hkey ih fuel hpairs (by omega)]
    rfl

/-! ## The whole decoder -/

section Decoder

variable {data s : Bytes} {c : UInt8}

/-- No parser is called for another first byte. -/
theorem parseValue_other (fuel : Nat) (hc : isValueStart c = false) :
    parseValue (fuel + 1) (c :: s) = .ok .failed := by
  simp only [isValueStart, Bool.or_eq_false_iff, beq_eq_false_iff_ne] at hc
  obtain ⟨⟨⟨hdigit, hi⟩, hl⟩, hd⟩ := hc
  rw [parseValue, if_neg (by rw [hdigit]; exact Bool.false_ne_true), if_neg hi, if_neg hl,
    if_neg hd]

/-- `bencode_decode` of a buffer that is not empty. -/
theorem bencodeDecodeAt_cons (c : UInt8) (s tail : Bytes) :
    bencodeDecodeAt (c :: s ++ tail) (c :: s).length =
      if isValueStart c then
        valueAt (c :: s ++ tail) (c :: s).length (depth (c :: s).length) 0 >>=
          finishDecode (c :: s).length
      else .ok none := rfl

/-- A parser that is called does what the parser on lists does. -/
theorem valueAt_whole (c : UInt8) (s tail : Bytes) :
    Follows (c :: s) tail (parseValue (depth (c :: s).length) (c :: s))
      (valueAt (c :: s ++ tail) (c :: s).length (depth (c :: s).length) 0) :=
  valueAt_follows (c :: s) tail _ (.whole _) (Nat.lt_succ_self _)

theorem finishDecode_null (size : Nat) (v : Ben) :
    finishDecode size ⟨none, .ofBen v⟩ = .ok none := by
  rw [finishDecode, if_neg (Option.some_ne_none _).symm, freeInternal_ofBen]
  rfl

/-- Behind the buffer the decoder finds no value, if it goes on at all. -/
theorem bencodeDecodeAt_error (hne : data ≠ []) (tail : Bytes) {e : Bencode.Fault}
    (h : parseValue (depth data.length) data = .error e) :
    RunsOff tail data.length (fun obj => obj = none)
      (bencodeDecodeAt (data ++ tail) data.length) := by
  obtain ⟨c, s, rfl⟩ := List.exists_cons_of_ne_nil hne
  have hstart : isValueStart c = true := by
    by_contra hno
    rw [depth, parseValue_other _ (Bool.eq_false_iff.mpr hno)] at h
    cases h
  have hvalue := valueAt_whole c s tail
  rw [h] at hvalue
  rw [bencodeDecodeAt_cons, if_pos hstart]
  refine RunsOff.bind hvalue ?_
  rintro ⟨next, obj⟩ ⟨hnext, v, hobj⟩
  cases hnext
  cases hobj
  exact ⟨none, finishDecode_null _ v, rfl⟩

/-- A parser that has stored a value leads to that value, or to NULL. -/
theorem bencodeDecodeAt_some (hne : data ≠ []) (tail : Bytes) {next : Option Bytes} {v : Ben}
    (h : parseValue (depth data.length) data = .ok ⟨next, some v⟩) :
    bencodeDecodeAt (data ++ tail) data.length =
      .ok (if next = some [] then some (.ofBen v) else none) := by
  obtain ⟨c, s, rfl⟩ := List.exists_cons_of_ne_nil hne
  have hstart : isValueStart c = true := by
    by_contra hno
    rw [depth, parseValue_other _ (Bool.eq_false_iff.mpr hno)] at h
    cases h
  have hvalue := valueAt_whole c s tail
  rw [h] at hvalue
  have hok : valueAt (c :: s ++ tail) (c :: s).length (depth (c :: s).length) 0 =
    .ok ⟨next.map (place (c :: s)), .ofBen v⟩ := hvalue
  rw [bencodeDecodeAt_cons, if_pos hstart, hok]
  show finishDecode _ _ = _
  cases next with
  | none => rw [if_neg (Option.some_ne_none _).symm, Option.map_none, finishDecode_null]
  | some r =>
    obtain ⟨a, ha, _⟩ := parseValue_inv _ h
    have hsum := congrArg List.length ha
    rw [List.length_append] at hsum
    by_cases hr : r = []
    · rw [if_pos (congrArg some hr), finishDecode, if_pos]
      rw [hr]
      rfl
    · have hpos := List.length_pos_iff.mpr hr
      have hplace : ¬(some r).map (place (c :: s)) = some (c :: s).length := fun h => by
        have hlt : place (c :: s) r = (c :: s).length := Option.some.inj h
        rw [place] at hlt
        omega
      rw [if_neg (fun h => hr (Option.some.inj h)), finishDecode, if_neg hplace, freeInternal_ofBen]
      rfl

/-- A parser that has stored nothing leaves an object that the cleanup cannot read. -/
theorem bencodeDecodeAt_none (tail : Bytes) {next : Option Bytes}
    (h : parseValue (depth (c :: s).length) (c :: s) = .ok ⟨next, none⟩) :
    bencodeDecodeAt (c :: s ++ tail) (c :: s).length =
      if isValueStart c then .error .uninitialised else .ok none := by
  have hnext : next = none := by
    cases next with
    | none => rfl
    | some r =>
      obtain ⟨v, hv⟩ := parseValue_some h
      cases hv
  have hvalue := valueAt_whole c s tail
  rw [h, hnext] at hvalue
  have hok : valueAt (c :: s ++ tail) (c :: s).length (depth (c :: s).length) 0 =
    .ok ⟨none, .fresh⟩ := hvalue
  rw [bencodeDecodeAt_cons, hok]
  rfl

end Decoder

/-! ## Reads behind the buffer -/

/-- The decoder reads no byte behind the buffer, and passes no negative length: it ends, or
only its cleanup fails. -/
def StaysInBuffer (data : Bytes) : Prop :=
  ∀ fault, bencodeDecodeAt data data.length = .error fault → fault = .uninitialised

/-- The decoder stays inside of a buffer exactly if it is not empty and does not end right
behind a key. -/
theorem staysInBuffer_iff (data : Bytes) :
    StaysInBuffer data ↔ data ≠ [] ∧ ¬CutBehindKey data := by
  by_cases hne : data = []
  · subst hne
    have hrun : bencodeDecodeAt [] 0 = .error (.outOfBounds 0) := rfl
    refine iff_of_false (fun h => ?_) (fun h => h.1 rfl)
    cases h _ hrun
  · have htail : bencodeDecodeAt data data.length = bencodeDecodeAt (data ++ []) data.length := by
      rw [List.append_nil]
    rw [StaysInBuffer, htail]
    cases hr : parseValue (depth data.length) data with
    | error e =>
      have hcut : CutBehindKey data := by
        cases e with
        | outOfBounds => exact (parseValue_outOfBounds _ hr).resolve_left hne
        | fuel => exact absurd hr (parseValue_ne_fuel _ data (by rw [depth]; omega))
      have hrun : bencodeDecodeAt (data ++ []) data.length = .error (.outOfBounds data.length) :=
        bencodeDecodeAt_error hne [] hr
      refine iff_of_false (fun h => ?_) (fun h => h.2 hcut)
      cases h _ hrun
    | ok parsed =>
      have hnot : ¬CutBehindKey data := fun hcut => by
        rw [hcut.parseValue _ (by rw [depth]; omega)] at hr
        cases hr
      refine iff_of_true (fun fault hfault => ?_) ⟨hne, hnot⟩
      obtain ⟨next, obj⟩ := parsed
      cases obj with
      | some v =>
        rw [bencodeDecodeAt_some hne [] hr] at hfault
        cases hfault
      | none =>
        obtain ⟨c, s, rfl⟩ := List.exists_cons_of_ne_nil hne
        rw [bencodeDecodeAt_none [] hr] at hfault
        split at hfault
        · cases hfault
          rfl
        · cases hfault

/-- The text `d1:a` ends behind its first key, and the byte behind it is read. -/
theorem not_staysInBuffer_key :
    bencodeDecodeAt [100, 49, 58, 97] 4 = .error (.outOfBounds 4) ∧
      ¬StaysInBuffer [100, 49, 58, 97] := by
  have hne : ([100, 49, 58, 97] : Bytes) ≠ [] := by decide
  have hvalue : parseValue (depth [100, 49, 58, 97].length) [100, 49, 58, 97] =
      .error .outOfBounds := by decide +kernel
  have hrun : bencodeDecodeAt [100, 49, 58, 97] 4 = .error (.outOfBounds 4) :=
    bencodeDecodeAt_error hne [] hvalue
  refine ⟨hrun, fun h => ?_⟩
  cases h _ hrun

/-! ## Fields that were never assigned -/

/-- The text starts with a digit, and has no colon, or less behind it than announced. -/
def CutString (s : Bytes) : Prop :=
  (∃ c cs, s = c :: cs ∧ Numeral.isDigit 10 c = true) ∧
  ∀ t r, s = t ++ 58 :: r → 58 ∉ t →
    r.length < Numeral.value 10 (t.takeWhile (Numeral.isDigit 10))

/-- The text starts with `i`, and no `e` follows. -/
def CutInt (s : Bytes) : Prop := ∃ cs, s = 105 :: cs ∧ 101 ∉ cs

section Assigned

variable {s : Bytes} {c : UInt8}

theorem CutString.head (h : CutString (c :: s)) : Numeral.isDigit 10 c = true := by
  obtain ⟨⟨x, cs, hs, hx⟩, _⟩ := h
  rwa [(List.cons.inj hs).1]

theorem CutInt.head (h : CutInt (c :: s)) : c = 105 := by
  obtain ⟨cs, hs, _⟩ := h
  exact (List.cons.inj hs).1

/-- The announced length of a text that starts with a digit. -/
theorem strtol_digit_head {t : Bytes} (hc : Numeral.isDigit 10 c = true) :
    (CLib.strtol (c :: t)).1 =
      clampLong (Numeral.value 10 ((c :: t).takeWhile (Numeral.isDigit 10))) := by
  have hblanks : (c :: t).takeWhile isSpace = [] := by
    rw [List.takeWhile_cons, not_isSpace_digit hc]
    rfl
  have hdigits : (c :: t).takeWhile (Numeral.isDigit 10) ≠ [] := by
    rw [List.takeWhile_cons_of_pos hc]
    exact List.cons_ne_nil _ _
  simp only [CLib.strtol, hblanks, List.length_nil, List.drop_zero, sign_digit t hc, Nat.add_zero,
    if_neg hdigits, Int.one_mul]

theorem clampLong_natCast (v : Nat) :
    clampLong (v : Int) = (min v 9223372036854775807 : Nat) := by
  unfold clampLong longMin longMax
  split
  · omega
  · split <;> omega

/-- `parse_string` fails on a text that starts with a digit exactly if it is cut. -/
theorem parseString_failed_iff (hc : Numeral.isDigit 10 c = true)
    (hlength : (c :: s).length < 2 ^ 63) : parseString (c :: s) = .failed ↔ CutString (c :: s) := by
  rw [parseString]
  cases hcolon : CLib.memchr 58 (c :: s) with
  | none =>
    refine iff_of_true rfl ⟨⟨c, s, rfl, hc⟩, fun t r hs ht => ?_⟩
    rw [hs, CLib.memchr_append r ht] at hcolon
    cases hcolon
  | some k =>
    obtain ⟨t, r, hs, ht, rfl⟩ := memchr_some hcolon
    have hsum := congrArg List.length hs
    rw [List.length_append, List.length_cons, List.length_cons] at hsum
    rw [List.length_cons] at hlength
    obtain ⟨t', rfl⟩ : ∃ t', t = c :: t' := by
      cases t with
      | nil =>
        rw [(List.cons.inj hs).1] at hc
        exact absurd hc (by decide)
      | cons x t' => exact ⟨t', by rw [(List.cons.inj hs).1]⟩
    -- The first colon splits the text in only one way.
    have hcut : CutString (c :: s) ↔
        r.length < Numeral.value 10 ((c :: t').takeWhile (Numeral.isDigit 10)) := by
      constructor
      · exact fun h => h.2 _ _ hs ht
      · refine fun h => ⟨⟨c, s, rfl, hc⟩, fun u w hu hnot => ?_⟩
        have hwhere := CLib.memchr_append w hnot
        rw [← hu, hcolon] at hwhere
        obtain ⟨rfl, hrest⟩ := List.append_inj (hs.symm.trans hu) (Option.some.inj hwhere)
        rwa [← (List.cons.inj hrest).2]
    have hclamp := clampLong_natCast
      (Numeral.value 10 ((c :: t').takeWhile (Numeral.isDigit 10)))
    have hlen : (CLib.strtol (c :: s)).1 = clampLong
        (Numeral.value 10 ((c :: t').takeWhile (Numeral.isDigit 10)) : Nat) := by
      rw [hs, CLib.strtol_append _ r stops_colon, strtol_digit_head hc]
    generalize Numeral.value 10 ((c :: t').takeWhile (Numeral.isDigit 10)) = v at *
    rw [hcut, hlen, hclamp]
    dsimp only
    by_cases hv : r.length < v
    · refine iff_of_true (if_pos (.inr ?_)) hv
      rw [List.length_cons, Int.toNat_natCast]
      omega
    · refine iff_of_false (fun h => ?_) hv
      rw [if_neg] at h
      · cases h
      · rw [List.length_cons, Int.toNat_natCast]
        omega

/-- `parse_int` assigns nothing exactly if there is no `e`. -/
theorem parseInt_obj_none_iff : (parseInt (105 :: s)).obj = none ↔ CutInt (105 :: s) := by
  rw [parseInt, List.tail_cons]
  dsimp only
  cases he : CLib.memchr 101 s with
  | none =>
    refine iff_of_true rfl ⟨s, rfl, fun hmem => ?_⟩
    have hno := List.findIdx?_eq_none_iff.mp he 101 hmem
    exact absurd hno (by decide)
  | some k =>
    obtain ⟨t, r, rfl, _, rfl⟩ := memchr_some he
    refine iff_of_false ?_ ?_
    · dsimp only
      split
      · exact Option.some_ne_none _
      · exact Option.some_ne_none _
    · rintro ⟨cs, hcs, hnot⟩
      rw [← (List.cons.inj hcs).2] at hnot
      exact hnot (List.mem_append_right _ List.mem_cons_self)

/-- A parser is called and assigns nothing exactly if the text is a cut string or integer. -/
theorem parseValue_assigns_nothing_iff {fuel : Nat} (hlength : (c :: s).length < 2 ^ 63) :
    (isValueStart c = true ∧ ∃ next, parseValue (fuel + 1) (c :: s) = .ok ⟨next, none⟩) ↔
      CutString (c :: s) ∨ CutInt (c :: s) := by
  by_cases hdigit : Numeral.isDigit 10 c = true
  · have hi : c ≠ 105 := by
      rintro rfl
      exact absurd hdigit (by decide)
    have hstart : isValueStart c = true := by
      rw [isValueStart, hdigit]
      rfl
    rw [parseValue, if_pos hdigit, or_iff_left (fun h => hi h.head),
      ← parseString_failed_iff hdigit hlength]
    constructor
    · rintro ⟨_, next, h⟩
      cases next with
      | none => exact Except.ok.inj h
      | some r =>
        obtain ⟨v, hv⟩ := parseString_some (Except.ok.inj h)
        cases hv
    · exact fun h => ⟨hstart, none, congrArg _ h⟩
  · rw [parseValue, if_neg hdigit, or_iff_right (fun h => hdigit h.head)]
    by_cases hi : c = 105
    · subst hi
      rw [if_pos rfl, ← parseInt_obj_none_iff]
      constructor
      · rintro ⟨_, next, h⟩
        rw [Except.ok.inj h]
      · exact fun h => ⟨rfl, (parseInt (105 :: s)).next, by rw [← h]⟩
    · rw [if_neg hi]
      refine iff_of_false ?_ (fun h => hi h.head)
      rintro ⟨hstart, next, h⟩
      split at h
      · obtain ⟨v, hv⟩ := parseList_stored h
        cases hv
      · next hl =>
        split at h
        · obtain ⟨v, hv⟩ := parseDict_stored h
          cases hv
        · next hd =>
          simp only [isValueStart, Bool.or_eq_true, beq_iff_eq] at hstart
          rcases hstart with ((hstart | hstart) | hstart) | hstart
          · exact hdigit hstart
          · exact hi hstart
          · exact hl hstart
          · exact hd hstart

/-- The cleanup of a cut string or integer reads the tag that nothing has assigned. -/
theorem bencodeDecodeAt_cut (buf : Buffer) (hcut : CutString buf.bytes ∨ CutInt buf.bytes)
    (tail : Bytes) :
    bencodeDecodeAt (buf.bytes ++ tail) buf.bytes.length = .error .uninitialised := by
  obtain ⟨data, hlength⟩ := buf
  dsimp only at hcut ⊢
  obtain ⟨c, s, rfl⟩ : ∃ c s, data = c :: s := by
    rcases hcut with ⟨⟨c, s, hs, _⟩, _⟩ | ⟨s, hs, _⟩
    · exact ⟨c, s, hs⟩
    · exact ⟨105, s, hs⟩
  obtain ⟨hstart, next, hvalue⟩ :=
    (parseValue_assigns_nothing_iff hlength).mpr hcut
  rw [bencodeDecodeAt_none tail hvalue, if_pos hstart]

/-- The cleanup reads only what was assigned, exactly if the buffer is no cut string or
integer. The memory behind the buffer makes no difference. -/
theorem bencodeDecodeAt_assigned_iff (buf : Buffer) (hne : buf.bytes ≠ []) (tail : Bytes) :
    bencodeDecodeAt (buf.bytes ++ tail) buf.bytes.length ≠ .error .uninitialised ↔
      ¬(CutString buf.bytes ∨ CutInt buf.bytes) := by
  by_cases hcut : CutString buf.bytes ∨ CutInt buf.bytes
  · exact iff_of_false (fun h => h (bencodeDecodeAt_cut buf hcut tail)) (not_not_intro hcut)
  refine iff_of_true ?_ hcut
  obtain ⟨data, hlength⟩ := buf
  dsimp only at hne hcut ⊢
  cases hr : parseValue (depth data.length) data with
  | error e =>
    have hrun := bencodeDecodeAt_error hne tail hr
    cases tail with
    | nil =>
      have herror : bencodeDecodeAt (data ++ []) data.length = .error (.outOfBounds data.length) :=
        hrun
      rw [herror]
      intro h
      cases h
    | cons x tail =>
      rw [RunsOff] at hrun
      split at hrun
      · rw [hrun]
        intro h
        cases h
      · obtain ⟨obj, hobj, _⟩ := hrun
        rw [hobj]
        intro h
        cases h
  | ok parsed =>
    obtain ⟨next, obj⟩ := parsed
    cases obj with
    | some v =>
      rw [bencodeDecodeAt_some hne tail hr]
      intro h
      cases h
    | none =>
      obtain ⟨c, s, rfl⟩ := List.exists_cons_of_ne_nil hne
      have hstart : isValueStart c ≠ true := fun hstart =>
        hcut ((parseValue_assigns_nothing_iff hlength).mp ⟨hstart, next, hr⟩)
      rw [bencodeDecodeAt_none tail hr, if_neg hstart]
      intro h
      cases h

/-- The text `li5e` lacks the end of its list, and the list is cleaned up. -/
theorem bencodeDecodeAt_assigned_iff_list :
    bencodeDecodeAt [108, 105, 53, 101] 4 ≠ .error .uninitialised := by
  refine (bencodeDecodeAt_assigned_iff ⟨[108, 105, 53, 101], by decide⟩ (by decide) []).mpr ?_
  rintro (hcut | hcut)
  · exact absurd hcut.head (by decide)
  · exact absurd hcut.head (by decide)

/-- The text `i5` is no integer, and the cleanup reads the tag that nothing has assigned. -/
theorem bencodeDecodeAt_reads_unassigned :
    bencodeDecodeAt [105, 53] 2 = .error .uninitialised := by
  have hvalue : parseValue (depth [105, 53].length) [105, 53] = .ok ⟨none, none⟩ := by
    decide +kernel
  exact (bencodeDecodeAt_none [] hvalue).trans (if_pos rfl)

end Assigned

end CourseWork.Bencode
