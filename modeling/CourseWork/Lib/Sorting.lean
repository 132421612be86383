import Mathlib.Data.List.Sort

/-!
# Sorting with a comparator

`qsort` as a function of a comparator and an array, what two sorted arrays with the same
elements have in common, and tables of the largest elements of a list.
-/

namespace Sorting

variable {α : Type}

/-! ## `qsort` -/

/-- A sort with a comparator. It may have no result if a comparison has none. -/
abbrev Qsort (α : Type) := (α → α → Option Int) → List α → Option (List α)

/-- The first element does not come after the second one. -/
def Precedes (compare : α → α → Option Int) (a b : α) : Prop :=
  ∃ n, compare a b = some n ∧ n ≤ 0

theorem precedes_iff {compare : α → α → Option Int} {a b : α} :
    Precedes compare a b ↔ (compare a b).getD 1 ≤ 0 := by
  cases hn : compare a b with
  | none =>
    refine ⟨?_, fun h => absurd h (by decide)⟩
    rintro ⟨n, h, _⟩
    rw [hn] at h
    cases h
  | some n =>
    refine ⟨?_, fun h => ⟨n, hn, h⟩⟩
    rintro ⟨m, h, hm⟩
    rw [hn] at h
    cases h
    exact hm

instance (compare : α → α → Option Int) : DecidableRel (Precedes compare) :=
  fun _ _ => decidable_of_iff _ precedes_iff.symm

/-- The comparator orders the elements of the array. -/
structure Orders (compare : α → α → Option Int) (l : List α) : Prop where
  defined : ∀ a ∈ l, ∀ b ∈ l, (compare a b).isSome
  total : ∀ a ∈ l, ∀ b ∈ l, Precedes compare a b ∨ Precedes compare b a
  trans : ∀ a ∈ l, ∀ b ∈ l, ∀ c ∈ l,
    Precedes compare a b → Precedes compare b c → Precedes compare a c

/-- What the C library promises of `qsort`. -/
structure IsQsort (qsort : Qsort α) : Prop where
  perm : ∀ {compare l sorted}, qsort compare l = some sorted → sorted.Perm l
  sorts : ∀ {compare l}, Orders compare l →
    ∃ sorted, qsort compare l = some sorted ∧ sorted.Pairwise (Precedes compare)

/-- A comparator that puts the larger keys first orders every array. -/
theorem IsQsort.sorts_by_key {κ : Type} [LinearOrder κ] {qsort : Qsort α} (h : IsQsort qsort)
    {compare : α → α → Option Int} {l : List α} (key : α → κ)
    (hkey : ∀ a ∈ l, ∀ b ∈ l, ∃ n, compare a b = some n ∧ (n ≤ 0 ↔ key b ≤ key a)) :
    ∃ sorted, qsort compare l = some sorted ∧ sorted.Perm l ∧
      sorted.Pairwise fun a b => key b ≤ key a := by
  have hprecedes : ∀ a ∈ l, ∀ b ∈ l, (Precedes compare a b ↔ key b ≤ key a) := by
    intro a ha b hb
    obtain ⟨n, hn, hle⟩ := hkey a ha b hb
    constructor
    · rintro ⟨m, hm, hm0⟩
      rw [hn] at hm
      cases hm
      exact hle.mp hm0
    · exact fun hab => ⟨n, hn, hle.mpr hab⟩
  have horders : Orders compare l := by
    refine ⟨fun a ha b hb => ?_, fun a ha b hb => ?_, fun a ha b hb c hc hab hbc => ?_⟩
    · obtain ⟨n, hn, _⟩ := hkey a ha b hb
      rw [hn]
      rfl
    · rw [hprecedes a ha b hb, hprecedes b hb a ha]
      exact le_total (key b) (key a)
    · rw [hprecedes a ha b hb] at hab
      rw [hprecedes b hb c hc] at hbc
      rw [hprecedes a ha c hc]
      exact hbc.trans hab
  obtain ⟨sorted, hsorted, hpairwise⟩ := h.sorts horders
  have hperm := h.perm hsorted
  refine ⟨sorted, hsorted, hperm, hpairwise.imp_of_mem fun ha hb hab => ?_⟩
  exact (hprecedes _ (hperm.subset ha) _ (hperm.subset hb)).mp hab

/-- Insertion sort, if all comparisons have a result. -/
def checkedSort : Qsort α := fun compare l =>
  if l.all fun a => l.all fun b => (compare a b).isSome then
    some (l.insertionSort (Precedes compare))
  else none

theorem isQsort_checkedSort : IsQsort (checkedSort : Qsort α) where
  perm {compare l sorted} h := by
    unfold checkedSort at h
    split at h
    · rw [← Option.some.inj h]
      exact List.perm_insertionSort _ l
    · cases h
  sorts {compare l} h := by
    have hall : (l.all fun a => l.all fun b => (compare a b).isSome) = true :=
      List.all_eq_true.mpr fun a ha => List.all_eq_true.mpr fun b hb => h.defined a ha b hb
    refine ⟨_, if_pos hall, ?_⟩
    -- On the elements of the array alone the comparator is a total preorder.
    let before (a b : { a // a ∈ l }) : Prop := Precedes compare a b
    have : DecidableRel before := fun a b => inferInstanceAs (Decidable (Precedes compare a b))
    have : Std.Total before := ⟨fun a b => h.total a a.2 b b.2⟩
    have : IsTrans _ before := ⟨fun a b c => h.trans a a.2 b b.2 c c.2⟩
    have hmap := List.map_insertionSort before (Precedes compare) Subtype.val l.attach
      fun _ _ _ _ => Iff.rfl
    rw [List.attach_map_subtype_val] at hmap
    rw [← hmap, List.pairwise_map]
    exact List.pairwise_insertionSort before l.attach

/-! ## Sorted arrays -/

section Descending

variable {κ : Type} [LinearOrder κ] {key : α → κ} {l l' : List α}

/-- Two sorted arrays with the same elements have the same keys in the same order. -/
theorem map_key_eq (h : l.Pairwise fun a b => key b ≤ key a)
    (h' : l'.Pairwise fun a b => key b ≤ key a) (hperm : l.Perm l') : l.map key = l'.map key := by
  have hantisymm : ∀ a b : κ, b ≤ a → a ≤ b → a = b := fun a b hba hab => le_antisymm hab hba
  exact List.Perm.eq_of_pairwise (fun a b _ _ => hantisymm a b) (List.pairwise_map.mpr h)
    (List.pairwise_map.mpr h') (hperm.map key)

/-- Among the first elements, one with a larger key than the last of them is in both arrays. -/
theorem mem_take_of_lt (h : l.Pairwise fun a b => key b ≤ key a)
    (h' : l'.Pairwise fun a b => key b ≤ key a) (hperm : l.Perm l') {n : Nat} {a b : α}
    (ha : a ∈ l.take n) (hb : b ∈ l.take n) (hlt : key b < key a) : a ∈ l'.take n := by
  have hmem : a ∈ l'.take n ++ l'.drop n := by
    rw [List.take_append_drop]
    exact hperm.subset (List.mem_of_mem_take ha)
  rcases List.mem_append.mp hmem with hmem | hdrop
  · exact hmem
  · -- Nothing before an element of the rest has a smaller key.
    exfalso
    have hkeys : key b ∈ (l'.take n).map key := by
      rw [List.map_take, ← map_key_eq h h' hperm, ← List.map_take]
      exact List.mem_map_of_mem hb
    obtain ⟨c, hc, hcb⟩ := List.mem_map.mp hkeys
    rw [← List.take_append_drop n l'] at h'
    have hle := (List.pairwise_append.mp h').2.2 c hc a hdrop
    rw [hcb] at hle
    exact absurd hlt (not_lt.mpr hle)

/-- An element whose key no other has stands at one place in all sorted arrays. -/
theorem getElem?_eq_of_unique (h : l.Pairwise fun a b => key b ≤ key a)
    (h' : l'.Pairwise fun a b => key b ≤ key a) (hperm : l.Perm l') {i : Nat} {a : α}
    (ha : l[i]? = some a) (hunique : ∀ b ∈ l, key b = key a → b = a) : l'[i]? = some a := by
  have hkey : (l'.map key)[i]? = some (key a) := by
    rw [← map_key_eq h h' hperm, List.getElem?_map, ha, Option.map_some]
  rw [List.getElem?_map] at hkey
  obtain ⟨b, hb, hba⟩ := Option.map_eq_some_iff.mp hkey
  rw [hb, hunique b (hperm.symm.subset (List.mem_of_getElem? hb)) hba]

end Descending

/-! ## Tables of the largest elements -/

section Largest

variable {κ : Type} [LinearOrder κ]

/-- The `k` largest elements, or all if there are fewer. -/
def largest (k : Nat) (l : List κ) : List κ := (l.insertionSort (· ≥ ·)).take k

/-- A table holds the `k` largest elements: what it leaves out is not larger. -/
def Holds (k : Nat) (table l : List κ) : Prop :=
  ∃ rest, (table ++ rest).Perm l ∧ table.length = min k l.length ∧
    ∀ a ∈ table, ∀ b ∈ rest, b ≤ a

variable {k : Nat} {table l : List κ}

theorem holds_iff : Holds k table l ↔ table.Perm (largest k l) := by
  constructor
  · rintro ⟨rest, hperm, hlen, hle⟩
    -- The table and the rest, each sorted, are the sorted list.
    have hsorted : (table.insertionSort (· ≥ ·) ++ rest.insertionSort (· ≥ ·)) =
        l.insertionSort (· ≥ ·) := by
      have hantisymm : ∀ a b : κ, a ≥ b → b ≥ a → a = b := fun a b hab hba => le_antisymm hba hab
      refine List.Perm.eq_of_pairwise (fun a b _ _ => hantisymm a b)
        (List.pairwise_append.mpr ⟨List.pairwise_insertionSort _ table,
          List.pairwise_insertionSort _ rest, fun a ha b hb => ?_⟩)
        (List.pairwise_insertionSort _ l) ?_
      · exact hle a ((List.mem_insertionSort _).mp ha) b ((List.mem_insertionSort _).mp hb)
      · exact ((List.perm_insertionSort _ table).append (List.perm_insertionSort _ rest)).trans
          (hperm.trans (List.perm_insertionSort _ l).symm)
    have htotal := hperm.length_eq
    rw [List.length_append] at htotal
    have htake : largest k l = table.insertionSort (· ≥ ·) := by
      rw [largest, ← hsorted, List.take_append, List.length_insertionSort]
      rcases Nat.le_total k l.length with hk | hk
      · rw [Nat.min_eq_left hk] at hlen
        rw [hlen, Nat.sub_self, List.take_zero, List.append_nil, List.take_of_length_le]
        rw [List.length_insertionSort, hlen]
      · rw [Nat.min_eq_right hk] at hlen
        have hnil : rest = [] := List.eq_nil_of_length_eq_zero (by omega)
        rw [hnil, List.insertionSort_nil, List.take_nil, List.append_nil, List.take_of_length_le]
        rw [List.length_insertionSort]
        omega
    rw [htake]
    exact (List.perm_insertionSort _ table).symm
  · intro h
    have hpairwise := List.pairwise_insertionSort (· ≥ ·) l
    rw [← List.take_append_drop k (l.insertionSort (· ≥ ·))] at hpairwise
    refine ⟨(l.insertionSort (· ≥ ·)).drop k, ?_, ?_, fun a ha b hb => ?_⟩
    · refine (h.append_right _).trans ?_
      rw [largest, List.take_append_drop]
      exact List.perm_insertionSort _ l
    · rw [h.length_eq, largest, List.length_take, List.length_insertionSort]
    · exact (List.pairwise_append.mp hpairwise).2.2 a (h.subset ha) b hb

/-- A table that is not larger than allowed holds itself. -/
theorem holds_self (h : table.length ≤ k) : Holds k table table :=
  ⟨[], by rw [List.append_nil], (Nat.min_eq_right h).symm, nofun⟩

theorem Holds.perm {table' : List κ} (h : Holds k table l) (hperm : table'.Perm table) :
    Holds k table' l := holds_iff.mpr (hperm.trans (holds_iff.mp h))

theorem Holds.congr {l' : List κ} (h : Holds k table l) (hperm : l.Perm l') : Holds k table l' := by
  obtain ⟨rest, hrest, hlen, hle⟩ := h
  exact ⟨rest, hrest.trans hperm, by rw [hlen, hperm.length_eq], hle⟩

/-- While there is room, all elements are in the table. -/
theorem Holds.extend (h : Holds k table l) (hroom : table.length < k) (a : κ) :
    Holds k (table ++ [a]) (l ++ [a]) := by
  obtain ⟨rest, hperm, hlen, _⟩ := h
  have htotal := hperm.length_eq
  rw [List.length_append] at htotal
  have hnil : rest = [] := List.eq_nil_of_length_eq_zero (by omega)
  rw [hnil, List.append_nil] at hperm
  refine ⟨[], ?_, ?_, nofun⟩
  · rw [List.append_nil]
    exact hperm.append_right [a]
  · rw [List.length_append, List.length_append, List.length_singleton]
    omega

/-- An element that is not larger than those of a full table is left out. -/
theorem Holds.reject (h : Holds k table l) (hfull : table.length = k) {a : κ}
    (ha : ∀ b ∈ table, a ≤ b) : Holds k table (l ++ [a]) := by
  obtain ⟨rest, hperm, hlen, hle⟩ := h
  refine ⟨rest ++ [a], ?_, ?_, fun b hb c hc => ?_⟩
  · rw [← List.append_assoc]
    exact hperm.append_right [a]
  · rw [List.length_append, List.length_singleton]
    omega
  · rcases List.mem_append.mp hc with hc | hc
    · exact hle b hb c hc
    · rw [List.mem_singleton.mp hc]
      exact ha b hb

/-- A larger element takes the place of the smallest one of a full table. -/
theorem Holds.replace {last : κ} (h : Holds k (table ++ [last]) l)
    (hfull : (table ++ [last]).length = k) (hlast : ∀ b ∈ table, last ≤ b) {a : κ}
    (ha : last ≤ a) : Holds k (table ++ [a]) (l ++ [a]) := by
  obtain ⟨rest, hperm, hlen, hle⟩ := h
  rw [List.length_append, List.length_singleton] at hlen hfull
  refine ⟨last :: rest, ?_, ?_, fun b hb c hc => ?_⟩
  · rw [List.append_assoc, List.singleton_append]
    refine List.Perm.trans ?_ (hperm.append_right [a])
    rw [List.append_assoc, List.append_assoc]
    refine List.Perm.append_left table ?_
    exact List.perm_append_singleton a (last :: rest) |>.symm
  · rw [List.length_append, List.length_append, List.length_singleton]
    omega
  · have hlastb : last ≤ b := by
      rcases List.mem_append.mp hb with hb | hb
      · exact hlast b hb
      · rw [List.mem_singleton.mp hb]
        exact ha
    rcases List.mem_cons.mp hc with rfl | hc
    · exact hlastb
    · exact (hle last (List.mem_append_right _ List.mem_cons_self) c hc).trans hlastb

end Largest

end Sorting
