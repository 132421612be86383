import CourseWork.Torrent.BencodeGrammar

/-!
# Lookup in a dictionary

`bencode_dict_get` compares keys as C strings, although a decoded key may hold zero bytes.
-/

namespace CourseWork.Bencode
open CLib

/-! ## The pair that is found -/

/-- The pairs in their order. -/
def Pairs.toList : Pairs → List (Bytes × Ben)
  | .nil => []
  | .cons key value pairs => (key, value) :: pairs.toList

/-- The index of the pair whose value `bencode_dict_get` returns. -/
def Pairs.getIndex (pairs : Pairs) (key : Bytes) : Option Nat :=
  pairs.toList.findIdx? fun pair => decide (cstr pair.1 = key)

/-- The index of the first pair with this key. -/
def Pairs.exactIndex (pairs : Pairs) (key : Bytes) : Option Nat :=
  pairs.toList.findIdx? fun pair => decide (pair.1 = key)

/-- `bencode_dict_get` returns the value of that pair. -/
theorem Pairs.get_eq (key : Bytes) : ∀ pairs : Pairs,
    pairs.get key = (pairs.getIndex key).bind fun i => (pairs.toList[i]?).map Prod.snd
  | .nil => rfl
  | .cons k value pairs => by
    have ih := Pairs.get_eq key pairs
    rw [Pairs.get, Pairs.getIndex, Pairs.toList, List.findIdx?_cons]
    by_cases hk : cstr k = key
    · rw [if_pos hk, if_pos (decide_eq_true hk)]
      rfl
    · rw [if_neg hk, if_neg (by rw [decide_eq_false hk]; exact Bool.false_ne_true), ih,
        Pairs.getIndex, Option.bind_map]
      rfl

/-! ## Exact lookup -/

/-- The lookup finds the first pair with exactly this key. -/
def LooksUpExactly (pairs : Pairs) (key : Bytes) : Prop :=
  pairs.getIndex key = pairs.exactIndex key

/-- A key that goes on behind the searched one and a zero byte comes after a pair with the
searched key itself. -/
def ExtensionsComeLater (pairs : Pairs) (key : Bytes) : Prop :=
  ∀ before k value after, pairs.toList = before ++ (k, value) :: after →
    key ++ [0] <+: k → ∃ pair ∈ before, pair.1 = key

/-- Up to its first zero byte a key is the searched one if it is that, or extends it. -/
theorem cstr_eq_iff {key k : Bytes} (hkey : 0 ∉ key) :
    cstr k = key ↔ k = key ∨ key ++ [0] <+: k := by
  constructor
  · rintro rfl
    have hsplit : cstr k ++ k.dropWhile (· != 0) = k := List.takeWhile_append_dropWhile
    have hhead := List.head?_dropWhile_not (· != 0) k
    cases hrest : k.dropWhile (· != 0) with
    | nil =>
      rw [hrest, List.append_nil] at hsplit
      exact .inl hsplit.symm
    | cons c rest =>
      rw [hrest] at hsplit hhead
      obtain rfl : c = 0 := by simpa using hhead
      refine .inr ⟨rest, ?_⟩
      rw [List.append_assoc, List.singleton_append, hsplit]
  · rintro (rfl | ⟨rest, rfl⟩)
    · rw [cstr, List.takeWhile_eq_self_iff]
      exact fun c hc => bne_iff_ne.mpr fun h => hkey (h ▸ hc)
    · rw [List.append_assoc]
      exact cstr_append_nul hkey rest

/-- The places of a list that is not empty: the first one, and those of its tail. -/
theorem forall_eq_append_cons {α : Type} {x : α} {l : List α} {P : List α → α → Prop} :
    (∀ before y after, x :: l = before ++ y :: after → P before y) ↔
      P [] x ∧ ∀ before y after, l = before ++ y :: after → P (x :: before) y := by
  constructor
  · exact fun h => ⟨h [] x l rfl, fun before y after hl => h (x :: before) y after (by rw [hl]; rfl)⟩
  · rintro ⟨hx, hl⟩ before y after heq
    cases before with
    | nil =>
      rw [← (List.cons.inj heq).1]
      exact hx
    | cons z before =>
      rw [← (List.cons.inj heq).1]
      exact hl before y after (List.cons.inj heq).2

/-- Two searches find the same place, where the second test is the stronger one, exactly if
each item that passes only the first comes after one that passes the second. -/
theorem findIdx?_eq_iff {α : Type} {p q : α → Bool} (hqp : ∀ x, q x = true → p x = true)
    (l : List α) : l.findIdx? p = l.findIdx? q ↔
      ∀ before x after, l = before ++ x :: after → p x = true → q x = false →
        ∃ y ∈ before, q y = true := by
  induction l with
  | nil =>
    refine iff_of_true rfl fun before x after h => ?_
    exact absurd h.symm (List.append_ne_nil_of_right_ne_nil _ (List.cons_ne_nil _ _))
  | cons x l ih =>
    rw [List.findIdx?_cons, List.findIdx?_cons, forall_eq_append_cons]
    cases hp : p x with
    | true =>
      rw [if_pos rfl]
      cases hq : q x with
      | true =>
        rw [if_pos rfl]
        refine iff_of_true rfl ⟨fun _ h => ?_, fun _ _ _ _ _ _ => ⟨x, List.mem_cons_self, hq⟩⟩
        cases h
      | false =>
        rw [if_neg Bool.false_ne_true]
        refine iff_of_false (fun h => ?_) (fun h => ?_)
        · cases hfound : l.findIdx? q with
          | none =>
            rw [hfound] at h
            cases h
          | some i =>
            rw [hfound] at h
            exact absurd (Option.some.inj h) (Nat.succ_ne_zero i).symm
        · obtain ⟨y, hy, _⟩ := h.1 rfl rfl
          cases hy
    | false =>
      have hq : q x = false := by
        by_contra hno
        rw [hqp x (by simpa using hno)] at hp
        cases hp
      have hsucc : Function.Injective fun i : Nat => i + 1 := fun i j h => Nat.succ.inj h
      have hmem : ∀ before, (∃ y ∈ x :: before, q y = true) ↔ ∃ y ∈ before, q y = true := by
        intro before
        rw [List.exists_mem_cons_iff, hq]
        exact or_iff_right Bool.false_ne_true
      rw [hq, if_neg Bool.false_ne_true, if_neg Bool.false_ne_true,
        (Option.map_injective hsucc).eq_iff, ih]
      simp only [hmem, Bool.false_eq_true, false_implies, true_and]

/-- The lookup is by exact key, exactly if no extension of the key comes before it. -/
theorem looksUpExactly_iff (pairs : Pairs) {key : Bytes} (hkey : 0 ∉ key) :
    LooksUpExactly pairs key ↔ ExtensionsComeLater pairs key := by
  have hexact : cstr key = key := (cstr_eq_iff hkey).mpr (.inl rfl)
  have hstronger : ∀ pair : Bytes × Ben, decide (pair.1 = key) = true →
      decide (cstr pair.1 = key) = true := by
    intro pair hpair
    rw [of_decide_eq_true hpair]
    exact decide_eq_true hexact
  rw [LooksUpExactly, Pairs.getIndex, Pairs.exactIndex, findIdx?_eq_iff hstronger]
  constructor
  · intro h before k value after hpairs hextends
    have hne : k ≠ key := by
      rintro rfl
      have hle := hextends.length_le
      rw [List.length_append, List.length_singleton] at hle
      omega
    obtain ⟨pair, hmem, hpair⟩ := h before (k, value) after hpairs
      (decide_eq_true ((cstr_eq_iff hkey).mpr (.inr hextends))) (decide_eq_false hne)
    exact ⟨pair, hmem, of_decide_eq_true hpair⟩
  · rintro h before ⟨k, value⟩ after hpairs hstops hne
    have hextends := ((cstr_eq_iff hkey).mp (of_decide_eq_true hstops)).resolve_left
      (of_decide_eq_false hne)
    obtain ⟨pair, hmem, hpair⟩ := h before k value after hpairs hextends
    exact ⟨pair, hmem, decide_eq_true hpair⟩

/-- In `d1:ai1e3:a\0bi2ee` the key `a` comes before the one that extends it. -/
theorem looksUpExactly_iff_first :
    LooksUpExactly (.cons [97] (.int 1) (.cons [97, 0, 98] (.int 2) .nil)) [97] := by
  refine (looksUpExactly_iff _ (by decide)).mpr ?_
  intro before k value after hpairs hextends
  cases before with
  | nil =>
    rw [← (Prod.mk.inj (List.cons.inj hpairs).1).1] at hextends
    exact absurd hextends (by decide)
  | cons pair before =>
    exact ⟨pair, List.mem_cons_self, by rw [← (List.cons.inj hpairs).1]⟩

/-- A decoded dictionary without a key `a`, in which the lookup of `a` finds a value. -/
theorem looksUp_extension :
    ∃ data pairs key value, bencodeDecode data = .ok (some (.dict pairs)) ∧ 0 ∉ key ∧
      (∀ pair ∈ pairs.toList, pair.1 ≠ key) ∧ bencodeDictGet (.dict pairs) key = some value ∧
      ¬LooksUpExactly pairs key := by
  refine ⟨[100, 51, 58, 97, 0, 98, 105, 49, 101, 101], .cons [97, 0, 98] (.int 1) .nil, [97],
    .int 1, by decide +kernel, by decide, ?_, by decide, by unfold LooksUpExactly; decide⟩
  intro pair hpair
  rw [List.mem_singleton.mp hpair]
  decide

end CourseWork.Bencode
