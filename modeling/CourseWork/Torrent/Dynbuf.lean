import CourseWork.Torrent.Bencode

/-!
# The buffer of the encoder

`dynbuf_append` and the encoder over it. The arithmetic is that of a 64-bit `size_t`, a block that
`xrealloc` returns has any bytes behind those that it keeps, and a copy behind the block is
undefined.
-/

namespace CourseWork.Bencode
open CLib

/-! ## The code -/

/-- `dynbuf_t`, with the block at `data`. -/
structure Dynbuf where
  data : Bytes
  len : UInt64
  cap : UInt64
  deriving DecidableEq

/-- Why `dynbuf_append` does not return: a copy behind the block, or a loop without an end. -/
inductive DynbufFault where
  | outOfBounds
  | endless
  deriving DecidableEq

/-- `dynbuf_init`. -/
def dynbufInit : Dynbuf := ⟨[], 0, 0⟩

/-- The loop that doubles `new_cap`. After 64 rounds `new_cap` is zero for good. -/
def doubleUntil (needed : UInt64) : Nat → UInt64 → Option UInt64
  | 0, _ => none
  | fuel + 1, newCap =>
    if newCap < needed then doubleUntil needed fuel (newCap * 2) else some newCap

/-- `new_cap` before the loop. -/
def firstCap (b : Dynbuf) : UInt64 := if b.cap ≠ 0 then b.cap * 2 else 128

/-- `xrealloc`: the bytes of the old block, and any behind them. -/
def xrealloc (garbage : UInt64 → Nat → UInt8) (data : Bytes) (size : UInt64) : Bytes :=
  data.take size.toNat ++
    (List.range' data.length (size.toNat - data.length)).map (garbage size)

/-- `memcpy` into a block. -/
def memcpy (data : Bytes) (offset : UInt64) (src : Bytes) : Except DynbufFault Bytes :=
  if offset.toNat + src.length ≤ data.length then
    .ok (data.take offset.toNat ++ (src ++ data.drop (offset.toNat + src.length)))
  else .error .outOfBounds

/-- The growth of the buffer in `dynbuf_append`. -/
def reserve (garbage : UInt64 → Nat → UInt8) (b : Dynbuf) (n : UInt64) :
    Except DynbufFault Dynbuf :=
  if b.len + n > b.cap then
    match doubleUntil (b.len + n) 65 (firstCap b) with
    | none => .error .endless
    | some newCap => .ok { b with data := xrealloc garbage b.data newCap, cap := newCap }
  else .ok b

/-- `dynbuf_append`. -/
def dynbufAppend (garbage : UInt64 → Nat → UInt8) (b : Dynbuf) (src : Bytes) :
    Except DynbufFault Dynbuf := do
  let b ← reserve garbage b (UInt64.ofNat src.length)
  let data ← memcpy b.data b.len src
  return { b with data := data, len := b.len + UInt64.ofNat src.length }

/-- Calls of `dynbuf_append` one after the other. -/
def appendAll (garbage : UInt64 → Nat → UInt8) (b : Dynbuf) (chunks : List Bytes) :
    Except DynbufFault Dynbuf :=
  chunks.foldlM (dynbufAppend garbage) b

/-- A string with its length. -/
def encodeStrInto (garbage : UInt64 → Nat → UInt8) (data : Bytes) (b : Dynbuf) :
    Except DynbufFault Dynbuf := do
  let b ← dynbufAppend garbage b (Numeral.print 10 data.length ++ [58])
  dynbufAppend garbage b data

mutual
/-- `encode_obj`, call by call. -/
def encodeObjInto (garbage : UInt64 → Nat → UInt8) : Ben → Dynbuf → Except DynbufFault Dynbuf
  | .str data, b => encodeStrInto garbage data b
  | .int n, b => dynbufAppend garbage b (105 :: (printLong n.toInt ++ [101]))
  | .list items, b => do
    let b ← dynbufAppend garbage b [108]
    let b ← encodeItemsInto garbage items b
    dynbufAppend garbage b [101]
  | .dict pairs, b => do
    let b ← dynbufAppend garbage b [100]
    let b ← encodePairsInto garbage pairs b
    dynbufAppend garbage b [101]

/-- The loop over the items of a list. -/
def encodeItemsInto (garbage : UInt64 → Nat → UInt8) : Items → Dynbuf → Except DynbufFault Dynbuf
  | .nil, b => .ok b
  | .cons item items, b => do
    let b ← encodeObjInto garbage item b
    encodeItemsInto garbage items b

/-- The loop over the pairs of a dictionary. -/
def encodePairsInto (garbage : UInt64 → Nat → UInt8) : Pairs → Dynbuf → Except DynbufFault Dynbuf
  | .nil, b => .ok b
  | .cons key value pairs, b => do
    let b ← encodeStrInto garbage key b
    let b ← encodeObjInto garbage value b
    encodePairsInto garbage pairs b
end

/-! ## The invariant -/

/-- The doubling loop never wraps around. -/
def NoWrap (needed : UInt64) : Nat → UInt64 → Prop
  | 0, _ => True
  | fuel + 1, newCap => newCap < needed →
    (newCap * 2).toNat = newCap.toNat * 2 ∧ NoWrap needed fuel (newCap * 2)

/-- No sum and no product of `dynbuf_append` wraps around. -/
structure Exact (b : Dynbuf) (n : UInt64) : Prop where
  sum : (b.len + n).toNat = b.len.toNat + n.toNat
  first : b.cap < b.len + n → b.cap ≠ 0 → (firstCap b).toNat = b.cap.toNat * 2
  loop : b.cap < b.len + n → NoWrap (b.len + n) 65 (firstCap b)

/-- A buffer in which bytes have been written. -/
structure Written (b : Dynbuf) (text : Bytes) : Prop where
  block : b.data.length = b.cap.toNat
  len : b.len.toNat = text.length
  len_le : b.len ≤ b.cap
  take_len : b.data.take b.len.toNat = text
  cap : b.cap = 0 ∨ ∃ k, 7 ≤ k ∧ k ≤ 62 ∧ b.cap.toNat = 2 ^ k

theorem written_init : Written dynbufInit [] := ⟨rfl, rfl, Nat.le_refl 0, rfl, .inl rfl⟩

/-! ## Doubling -/

section Doubling

variable {needed newCap : UInt64} {k : Nat}

theorem toNat_double (hk : k < 63) (hcap : newCap.toNat = 2 ^ k) :
    (newCap * 2).toNat = 2 ^ (k + 1) := by
  have hlt : 2 ^ (k + 1) < 2 ^ 64 := Nat.pow_lt_pow_right (by decide) (by omega)
  have htwo : (2 : UInt64).toNat = 2 := rfl
  rw [UInt64.toNat_mul, hcap, htwo, ← Nat.pow_succ, Nat.mod_eq_of_lt hlt]

/-- The loop ends at a power of two, without a wrap-around. -/
theorem doubleUntil_spec (hneeded : needed.toNat ≤ 2 ^ 62) :
    ∀ (fuel k : Nat) {newCap : UInt64}, k ≤ 62 → 62 < fuel + k → newCap.toNat = 2 ^ k →
      NoWrap needed fuel newCap ∧ ∃ cap j, doubleUntil needed fuel newCap = some cap ∧
        k ≤ j ∧ j ≤ 62 ∧ cap.toNat = 2 ^ j ∧ needed ≤ cap
  | 0, k, newCap, hk, hfuel, _ => absurd hfuel (by omega)
  | fuel + 1, k, newCap, hk, hfuel, hcap => by
    by_cases hlt : newCap < needed
    · have hpow : 2 ^ k < 2 ^ 62 := by
        rw [← hcap]
        exact Nat.lt_of_lt_of_le (UInt64.lt_iff_toNat_lt.mp hlt) hneeded
      have hk62 : k < 62 := (Nat.pow_lt_pow_iff_right (by decide)).mp hpow
      have hdouble := toNat_double (by omega) hcap
      obtain ⟨hwrap, cap, j, hloop, hkj, hj, hpower, hle⟩ :=
        doubleUntil_spec hneeded fuel (k + 1) (by omega) (by omega) hdouble
      refine ⟨fun _ => ⟨?_, hwrap⟩, cap, j, ?_, by omega, hj, hpower, hle⟩
      · rw [hdouble, hcap, Nat.pow_succ]
      · rw [doubleUntil, if_pos hlt, hloop]
    · refine ⟨fun hneed => absurd hneed hlt, newCap, k, if_neg hlt, Nat.le_refl k, hk, hcap, ?_⟩
      exact UInt64.not_lt.mp hlt

end Doubling

/-! ## One call -/

section Calls

variable (garbage : UInt64 → Nat → UInt8) {b : Dynbuf} {text src : Bytes}

theorem length_xrealloc (data : Bytes) (size : UInt64) :
    (xrealloc garbage data size).length = size.toNat := by
  rw [xrealloc, List.length_append, List.length_take, List.length_map, List.length_range']
  omega

/-- A larger block starts with the bytes of the smaller one. -/
theorem take_xrealloc {data : Bytes} {size : UInt64} {n : Nat} (hn : n ≤ data.length)
    (hsize : data.length ≤ size.toNat) : (xrealloc garbage data size).take n = data.take n := by
  rw [xrealloc, List.take_of_length_le hsize, List.take_append_of_le_length hn]

/-- The first value of `new_cap`. -/
theorem firstCap_spec {n : UInt64} (h : Written b text)
    (hsum : (b.len + n).toNat = text.length + n.toNat) (hbound : text.length + n.toNat ≤ 2 ^ 62)
    (hfull : b.cap < b.len + n) :
    (b.cap ≠ 0 → (firstCap b).toNat = b.cap.toNat * 2) ∧ b.cap ≤ firstCap b ∧
      ∃ k, k ≤ 62 ∧ 7 ≤ k ∧ (firstCap b).toNat = 2 ^ k := by
  unfold firstCap
  rcases h.cap with hzero | ⟨k, hk, hk62, hpower⟩
  · rw [if_neg (not_not.mpr hzero)]
    refine ⟨fun hne => absurd hzero hne, ?_, 7, by decide, Nat.le_refl 7, rfl⟩
    rw [hzero]
    exact Nat.zero_le _
  · have hne : b.cap ≠ 0 := fun hzero => by
      rw [hzero] at hpower
      exact absurd hpower.symm (Nat.pos_iff_ne_zero.mp (Nat.pow_pos (by decide)))
    have hlt : 2 ^ k < 2 ^ 62 := by
      rw [← hpower]
      exact Nat.lt_of_lt_of_le (UInt64.lt_iff_toNat_lt.mp hfull) (hsum ▸ hbound)
    have hklt : k < 62 := (Nat.pow_lt_pow_iff_right (by decide)).mp hlt
    have hdouble := toNat_double (by omega) hpower
    have htwice : (b.cap * 2).toNat = b.cap.toNat * 2 := by rw [hdouble, hpower, Nat.pow_succ]
    rw [if_pos hne]
    refine ⟨fun _ => htwice, ?_, k + 1, hklt, by omega, hdouble⟩
    rw [UInt64.le_iff_toNat_le, htwice]
    omega

/-- The growth ends and makes room. -/
theorem reserve_spec {n : UInt64} (h : Written b text)
    (hbound : text.length + n.toNat ≤ 2 ^ 62) :
    Exact b n ∧ ∃ b', reserve garbage b n = .ok b' ∧ Written b' text ∧ b'.len = b.len ∧
      text.length + n.toNat ≤ b'.cap.toNat := by
  have hsum : (b.len + n).toNat = text.length + n.toNat := by
    rw [UInt64.toNat_add, h.len]
    exact Nat.mod_eq_of_lt (Nat.lt_of_le_of_lt hbound (by decide))
  have hexact : (b.len + n).toNat = b.len.toNat + n.toNat := by rw [hsum, h.len]
  by_cases hfull : b.cap < b.len + n
  · obtain ⟨hfirst, hcap, k, hk, hk7, hpower⟩ := firstCap_spec h hsum hbound hfull
    have hneeded : (b.len + n).toNat ≤ 2 ^ 62 := by rwa [hsum]
    obtain ⟨hwrap, cap, j, hloop, hkj, hj, hcapPower, hle⟩ :=
      doubleUntil_spec hneeded 65 k hk (by omega) hpower
    have hgrown : b.cap.toNat ≤ cap.toNat := by
      rw [hcapPower]
      refine Nat.le_trans (UInt64.le_iff_toNat_le.mp hcap) ?_
      rw [hpower]
      exact Nat.pow_le_pow_right (by decide) hkj
    have hlen := UInt64.le_iff_toNat_le.mp h.len_le
    have hblock : b.data.length ≤ cap.toNat := by rwa [h.block]
    have hkept : b.len.toNat ≤ b.data.length := by rwa [h.block]
    have hrun : reserve garbage b n =
        .ok { b with data := xrealloc garbage b.data cap, cap := cap } := by
      rw [reserve, if_pos hfull, hloop]
    refine ⟨⟨hexact, fun _ => hfirst, fun _ => hwrap⟩, _, hrun,
      ⟨length_xrealloc garbage _ _, h.len, ?_, ?_, ?_⟩, rfl, ?_⟩
    · exact UInt64.le_iff_toNat_le.mpr (Nat.le_trans hlen hgrown)
    · exact (take_xrealloc garbage hkept hblock).trans h.take_len
    · exact .inr ⟨j, by omega, hj, hcapPower⟩
    · rw [← hsum]
      exact UInt64.le_iff_toNat_le.mp hle
  · refine ⟨⟨hexact, fun hlt => absurd hlt hfull, fun hlt => absurd hlt hfull⟩, b, if_neg hfull, h,
      rfl, ?_⟩
    rw [← hsum]
    exact UInt64.le_iff_toNat_le.mp (UInt64.not_lt.mp hfull)

/-- One call writes its bytes behind those of the calls before it. -/
theorem dynbufAppend_spec (h : Written b text) (hbound : text.length + src.length ≤ 2 ^ 62) :
    Exact b (UInt64.ofNat src.length) ∧ ∃ b', dynbufAppend garbage b src = .ok b' ∧
      b.len.toNat + src.length ≤ b'.cap.toNat ∧ Written b' (text ++ src) := by
  have hn : (UInt64.ofNat src.length).toNat = src.length :=
    UInt64.toNat_ofNat_of_lt' (Nat.lt_of_le_of_lt (Nat.le_of_add_left_le hbound) (by decide))
  have hbound' : text.length + (UInt64.ofNat src.length).toNat ≤ 2 ^ 62 := by rwa [hn]
  obtain ⟨hexact, r, hreserve, hr, hlen, hroom⟩ := reserve_spec garbage h hbound'
  rw [hn] at hroom
  have hcopy : memcpy r.data r.len src =
      .ok (r.data.take r.len.toNat ++ (src ++ r.data.drop (r.len.toNat + src.length))) := by
    refine if_pos ?_
    rwa [hr.block, hr.len]
  have hrun : dynbufAppend garbage b src = .ok
      { r with
        data := r.data.take r.len.toNat ++ (src ++ r.data.drop (r.len.toNat + src.length))
        len := r.len + UInt64.ofNat src.length } := by
    unfold dynbufAppend
    rw [hreserve]
    change (memcpy r.data r.len src >>= fun data => _) = _
    rw [hcopy]
    rfl
  have hsum : (r.len + UInt64.ofNat src.length).toNat = text.length + src.length := by
    rw [hlen, hexact.sum, h.len, hn]
  refine ⟨hexact, _, hrun, by rwa [h.len], ⟨?_, ?_, ?_, ?_, hr.cap⟩⟩
  · rw [← hr.block, List.length_append, List.length_append, List.length_take, List.length_drop,
      hr.block, hr.len]
    omega
  · rw [hsum, List.length_append]
  · rw [UInt64.le_iff_toNat_le, hsum]
    exact hroom
  · have htext : (r.data.take r.len.toNat ++ src).length = text.length + src.length := by
      rw [hr.take_len, List.length_append]
    dsimp only
    rw [hsum, ← List.append_assoc, ← htext, List.take_left, hr.take_len]

end Calls

/-! ## Runs of calls -/

/-- A run of calls that writes bytes behind those in the buffer. -/
def Appends (run : Dynbuf → Except DynbufFault Dynbuf) (bytes : Bytes) : Prop :=
  ∀ b text, Written b text → text.length + bytes.length ≤ 2 ^ 62 →
    ∃ b', run b = .ok b' ∧ Written b' (text ++ bytes)

section Runs

variable (garbage : UInt64 → Nat → UInt8) {run run' : Dynbuf → Except DynbufFault Dynbuf}
  {bytes bytes' : Bytes}

theorem appends_nil : Appends .ok [] := fun b text h _ =>
  ⟨b, rfl, by rwa [List.append_nil]⟩

theorem appends_append (src : Bytes) : Appends (dynbufAppend garbage · src) src :=
  fun _ _ h hbound => by
    obtain ⟨-, b', hrun, -, hwritten⟩ := dynbufAppend_spec garbage h hbound
    exact ⟨b', hrun, hwritten⟩

/-- One run after the other. -/
theorem Appends.bind (h : Appends run bytes) (h' : Appends run' bytes') :
    Appends (fun b => run b >>= run') (bytes ++ bytes') := fun b text hb hbound => by
  rw [List.length_append] at hbound
  obtain ⟨b₁, hrun, hb₁⟩ := h b text hb (by omega)
  obtain ⟨b₂, hrun', hb₂⟩ := h' b₁ (text ++ bytes) hb₁ (by rw [List.length_append]; omega)
  refine ⟨b₂, ?_, by rwa [← List.append_assoc]⟩
  dsimp only
  rw [hrun]
  exact hrun'

theorem appends_appendAll (chunks : List Bytes) :
    Appends (appendAll garbage · chunks) chunks.flatten := by
  induction chunks with
  | nil => exact appends_nil
  | cons src chunks ih => exact (appends_append garbage src).bind ih

/-- In every sequence of calls with at most `2 ^ 62` bytes, each call ends without a wrap-around,
copies into the block that it has made, and leaves the chunks so far in the buffer. -/
theorem dynbuf_calls (garbage : UInt64 → Nat → UInt8) (chunks : List Bytes)
    (htotal : (chunks.map List.length).sum ≤ 2 ^ 62) (before after : List Bytes) (src : Bytes)
    (hsplit : chunks = before ++ src :: after) :
    ∃ b b', appendAll garbage dynbufInit before = .ok b ∧ dynbufAppend garbage b src = .ok b' ∧
      Exact b (UInt64.ofNat src.length) ∧ b.len.toNat + src.length ≤ b'.cap.toNat ∧
      Written b' (before ++ [src]).flatten := by
  rw [← List.length_flatten, hsplit, List.flatten_append, List.flatten_cons, List.length_append,
    List.length_append] at htotal
  obtain ⟨b, hbefore, hb⟩ := appends_appendAll garbage before dynbufInit []
    written_init (by rw [List.length_nil]; omega)
  rw [List.nil_append] at hb
  obtain ⟨hexact, b', hrun, hroom, hb'⟩ := dynbufAppend_spec garbage hb
    (Nat.le_trans (Nat.add_le_add_left (Nat.le_add_right _ after.flatten.length) _) htotal)
  refine ⟨b, b', hbefore, hrun, hexact, hroom, ?_⟩
  rwa [List.flatten_append, List.flatten_singleton]

/-- The second of two calls. -/
theorem dynbuf_calls_two :
    ∃ b b', appendAll (fun _ _ => 0) dynbufInit [ascii "4:"] = .ok b ∧
      dynbufAppend (fun _ _ => 0) b (ascii "spam") = .ok b' ∧
      Exact b (UInt64.ofNat (ascii "spam").length) ∧
      b.len.toNat + (ascii "spam").length ≤ b'.cap.toNat ∧
      Written b' ([ascii "4:"] ++ [ascii "spam"]).flatten :=
  dynbuf_calls _ [ascii "4:", ascii "spam"] (by decide) _ [] _ rfl

/-! ## The encoder -/

theorem appends_encodeStr (data : Bytes) :
    Appends (encodeStrInto garbage data) (encodeStr data) := by
  have hprefix := appends_append garbage (Numeral.print 10 data.length ++ [58])
  have h := hprefix.bind (appends_append garbage data)
  rw [List.append_assoc, List.singleton_append] at h
  exact h

mutual
/-- The encoder writes the bytes of the object behind those in the buffer. -/
theorem appends_encodeObj : ∀ obj : Ben, Appends (encodeObjInto garbage obj) (encodeObj obj)
  | .str data => appends_encodeStr garbage data
  | .int _ => appends_append garbage _
  | .list items =>
    (appends_append garbage [108]).bind
      ((appends_encodeItems items).bind (appends_append garbage [101]))
  | .dict pairs =>
    (appends_append garbage [100]).bind
      ((appends_encodePairs pairs).bind (appends_append garbage [101]))

theorem appends_encodeItems : ∀ items : Items,
    Appends (encodeItemsInto garbage items) (encodeItems items)
  | .nil => appends_nil
  | .cons item items => (appends_encodeObj item).bind (appends_encodeItems items)

theorem appends_encodePairs : ∀ pairs : Pairs,
    Appends (encodePairsInto garbage pairs) (encodePairs pairs)
  | .nil => appends_nil
  | .cons key value pairs => (appends_encodeStr garbage key).bind
    ((appends_encodeObj value).bind (appends_encodePairs pairs))
end

/-- `bencode_encode` over the buffer returns the bytes of the object. -/
theorem bencodeEncode_into (obj : Ben) (h : (bencodeEncode obj).length ≤ 2 ^ 62) :
    ∃ b, encodeObjInto garbage obj dynbufInit = .ok b ∧
      b.data.take b.len.toNat = bencodeEncode obj ∧ b.len.toNat = (bencodeEncode obj).length := by
  obtain ⟨b, hrun, hb⟩ := appends_encodeObj garbage obj dynbufInit [] written_init (by
    rw [List.length_nil, Nat.zero_add]
    exact h)
  exact ⟨b, hrun, hb.take_len, hb.len⟩

end Runs

end CourseWork.Bencode
