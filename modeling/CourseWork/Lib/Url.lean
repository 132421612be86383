import Mathlib.Data.List.TakeWhile

/-!
# URLs

Percent encoding of bytes, and the parameters in the query part of a URL. Encoded bytes
decode to themselves and hold no separator.
-/

namespace Url

/-! ## Percent encoding -/

/-- The hexadecimal digit of `d`, in upper case. -/
def hexDigit (d : Nat) : UInt8 := if d < 10 then UInt8.ofNat (48 + d) else UInt8.ofNat (55 + d)

/-- The value of a hexadecimal digit, in upper or lower case. -/
def hexValue (c : UInt8) : Option Nat :=
  if 48 ≤ c ∧ c ≤ 57 then some (c.toNat - 48)
  else if 65 ≤ c ∧ c ≤ 70 then some (c.toNat - 55)
  else if 97 ≤ c ∧ c ≤ 102 then some (c.toNat - 87)
  else none

/-- `%XX`. -/
def encodeByte (c : UInt8) : List UInt8 := [37, hexDigit (c.toNat / 16), hexDigit (c.toNat % 16)]

/-- The bytes of `data`, each as `%XX`. -/
def percentEncode (data : List UInt8) : List UInt8 := data.flatMap encodeByte

mutual
/-- Each `%` has to be followed by two hexadecimal digits. Other bytes stand for themselves. -/
def percentDecode : List UInt8 → Option (List UInt8)
  | [] => some []
  | c :: s => if c = 37 then decodeEscape s else (percentDecode s).map (c :: ·)

def decodeEscape : List UInt8 → Option (List UInt8)
  | high :: low :: s => do
    let high ← hexValue high
    let low ← hexValue low
    let data ← percentDecode s
    return UInt8.ofNat (16 * high + low) :: data
  | _ => none
end

theorem hexValue_hexDigit : ∀ {d : Nat}, d < 16 → hexValue (hexDigit d) = some d := by
  decide

theorem length_percentEncode (data : List UInt8) :
    (percentEncode data).length = 3 * data.length := by
  induction data with
  | nil => rfl
  | cons c data ih =>
    rw [percentEncode, List.flatMap_cons, List.length_append, List.length_cons]
    rw [percentEncode] at ih
    rw [ih]
    show 3 + 3 * data.length = _
    omega

/-- Encoding loses nothing. -/
theorem percentDecode_percentEncode (data : List UInt8) :
    percentDecode (percentEncode data) = some data := by
  induction data with
  | nil => rfl
  | cons c data ih =>
    have hbyte := c.toNat_lt
    have hhigh : hexValue (hexDigit (c.toNat / 16)) = some (c.toNat / 16) :=
      hexValue_hexDigit (by omega)
    have hlow : hexValue (hexDigit (c.toNat % 16)) = some (c.toNat % 16) :=
      hexValue_hexDigit (by omega)
    have hsplit : 16 * (c.toNat / 16) + c.toNat % 16 = c.toNat := Nat.div_add_mod _ _
    rw [percentEncode] at ih
    rw [percentEncode, List.flatMap_cons, encodeByte, List.cons_append, percentDecode, if_pos rfl,
      List.cons_append, List.cons_append, List.nil_append, decodeEscape, hhigh, hlow, ih]
    simp only [bind, Option.bind, pure, hsplit, UInt8.ofNat_toNat]

/-- Only `%` and hexadecimal digits occur in encoded bytes. -/
theorem not_mem_percentEncode {c : UInt8} (hc : c ≠ 37) (hdigit : hexValue c = none)
    (data : List UInt8) : c ∉ percentEncode data := by
  have hne : ∀ d, d < 16 → c ≠ hexDigit d := by
    rintro d hd rfl
    rw [hexValue_hexDigit hd] at hdigit
    cases hdigit
  intro hmem
  obtain ⟨x, _, hx⟩ := List.mem_flatMap.mp hmem
  have hbyte := x.toNat_lt
  simp only [encodeByte, List.mem_cons, List.not_mem_nil, or_false] at hx
  rcases hx with hx | hx | hx
  · exact hc hx
  · exact hne _ (by omega) hx
  · exact hne _ (by omega) hx

/-! ## Parameters -/

/-- What follows the first `?`. -/
def query (url : List UInt8) : List UInt8 := (url.dropWhile (· != 63)).tail

/-- The parameters in the query part: those between the `&`. A URL without `?` has none. -/
def parameters (url : List UInt8) : List (List UInt8) :=
  if 63 ∈ url then (query url).splitOn 38 else []

section

variable {base : List UInt8}

theorem parameters_eq_nil (hbase : 63 ∉ base) : parameters base = [] := if_neg hbase

theorem parameters_append (hbase : 63 ∉ base) (s : List UInt8) :
    parameters (base ++ 63 :: s) = s.splitOn 38 := by
  have hdrop : base.dropWhile (· != 63) = [] := by
    rw [List.dropWhile_eq_nil_iff]
    exact fun c hc => bne_iff_ne.mpr fun h => hbase (h ▸ hc)
  rw [parameters, if_pos (List.mem_append_right _ List.mem_cons_self), query,
    List.dropWhile_append, hdrop]
  rfl

/-- Behind a query part the text goes on in its last parameter. -/
theorem splitOn_append_last {x : List UInt8} (hx : 38 ∉ x) : ∀ s : List UInt8,
    ∃ before last, s.splitOn 38 = before ++ [last] ∧
      (s ++ x).splitOn 38 = before ++ [last ++ x] := by
  intro s
  induction s with
  | nil => exact ⟨[], [], rfl, List.splitOn_eq_singleton hx⟩
  | cons c s ih =>
    obtain ⟨before, last, hs, hsx⟩ := ih
    rw [List.cons_append, List.splitOn_cons_eq_if_modifyHead, List.splitOn_cons_eq_if_modifyHead,
      hs, hsx]
    cases hc : c == 38 with
    | true => exact ⟨[] :: before, last, rfl, rfl⟩
    | false =>
      cases before with
      | nil => exact ⟨[], c :: last, rfl, rfl⟩
      | cons p before => exact ⟨(c :: p) :: before, last, rfl, rfl⟩

/-- Parameters that are appended to a URL with a query part, with another `?` before them. -/
theorem parameters_append_twice (hbase : 63 ∉ base) (q : List UInt8) {p : List UInt8}
    {ps : List (List UInt8)} (hps : ∀ p' ∈ p :: ps, 38 ∉ p') :
    ∃ before last, parameters (base ++ 63 :: q) = before ++ [last] ∧
      parameters (base ++ 63 :: q ++ 63 :: [38].intercalate (p :: ps)) =
        before ++ (last ++ 63 :: p) :: ps := by
  have hp : 38 ∉ 63 :: p := by
    rw [List.mem_cons, not_or]
    exact ⟨by decide, hps p List.mem_cons_self⟩
  obtain ⟨before, last, hq, hqp⟩ := splitOn_append_last hp q
  refine ⟨before, last, by rw [parameters_append hbase, hq], ?_⟩
  rw [List.append_assoc, List.cons_append, parameters_append hbase]
  cases ps with
  | nil => rw [List.intercalate_singleton, hqp]
  | cons p' ps =>
    have hrest := List.splitOn_intercalate 38 (fun r hr => hps r (List.mem_cons_of_mem _ hr))
      (List.cons_ne_nil p' ps)
    have hassoc : q ++ 63 :: ([38].intercalate (p :: p' :: ps)) =
        (q ++ 63 :: p) ++ 38 :: [38].intercalate (p' :: ps) := by
      simp only [List.intercalate_cons_cons, List.append_assoc, List.cons_append, List.nil_append]
    rw [hassoc, List.splitOn_append_cons_self, hqp, hrest, List.append_assoc]
    rfl

end

end Url
