import Mathlib.Algebra.BigOperators.Group.List.Basic
import Mathlib.Algebra.GroupWithZero.Nat
import Mathlib.Data.List.Nodup

/-!
# Hash tables that add up

Chained hash tables with one summed value for each key. The abstract content of a table is
the tally of the contributions that were added to it. The order of the contributions does
not matter, and the entries of a table are contributions with the same tally.
-/

namespace HashTable

variable {K V : Type*}

section

variable [DecidableEq K]

/-! ## Tallies -/

/-- The values contributed to a key. -/
def amounts (l : List (K × V)) (k : K) : List V :=
  (l.filter fun e => e.1 = k).map Prod.snd

/-- The sum of the values contributed to a key; `none` if there are none. -/
def tally [Add V] [Zero V] (l : List (K × V)) (k : K) : Option V :=
  if amounts l k = [] then none else some (amounts l k).sum

theorem amounts_append (l l' : List (K × V)) (k : K) :
    amounts (l ++ l') k = amounts l k ++ amounts l' k := by
  rw [amounts, List.filter_append, List.map_append, amounts, amounts]

section Tally

variable [AddCommMonoid V] {l l' : List (K × V)} {k : K}

theorem tally_append (l l' : List (K × V)) (k : K) :
    tally (l ++ l') k = (tally l k).merge (· + ·) (tally l' k) := by
  rw [tally, tally, tally, amounts_append]
  by_cases hl : amounts l k = []
  · rw [hl, List.nil_append, if_pos rfl, Option.merge_none_left]
  · by_cases hl' : amounts l' k = []
    · rw [hl', List.append_nil, if_pos rfl, Option.merge_none_right]
    · rw [if_neg hl, if_neg hl', if_neg (fun h => hl (List.append_eq_nil_iff.mp h).1),
        List.sum_append, Option.merge_some_some]

theorem tally_singleton (k : K) (v : V) (k' : K) :
    tally [(k, v)] k' = if k = k' then some v else none := by
  by_cases h : k = k'
  · have hamounts : amounts [(k, v)] k' = [v] := by simp [amounts, h]
    rw [if_pos h, tally, hamounts, if_neg (List.cons_ne_nil _ _), List.sum_singleton]
  · have hamounts : amounts [(k, v)] k' = [] := by simp [amounts, h]
    rw [if_neg h, tally, hamounts, if_pos rfl]

theorem tally_cons (k : K) (v : V) (l : List (K × V)) (k' : K) :
    tally ((k, v) :: l) k' =
      if k = k' then (some v).merge (· + ·) (tally l k') else tally l k' := by
  rw [← List.singleton_append, tally_append, tally_singleton]
  split
  · rfl
  · rw [Option.merge_none_left]

/-- The order of the contributions does not matter. -/
theorem tally_perm (h : l.Perm l') (k : K) : tally l k = tally l' k := by
  have hperm : (amounts l k).Perm (amounts l' k) := (h.filter _).map _
  have hnil : amounts l k = [] ↔ amounts l' k = [] :=
    ⟨fun h => List.nil_perm.mp (h ▸ hperm), fun h => List.perm_nil.mp (h ▸ hperm)⟩
  rw [tally, tally, hperm.sum_eq]
  simp only [hnil]

theorem tally_eq_none (h : k ∉ l.map Prod.fst) : tally l k = none := by
  refine if_pos ?_
  rw [amounts, List.map_eq_nil_iff, List.filter_eq_nil_iff]
  intro e he hek
  exact h (List.mem_map.mpr ⟨e, he, of_decide_eq_true hek⟩)

/-- If no key occurs twice the tally looks the key up. -/
theorem tally_eq_lookup (h : (l.map Prod.fst).Nodup) : tally l k = l.lookup k := by
  induction l with
  | nil => rfl
  | cons e l ih =>
    obtain ⟨k', v⟩ := e
    obtain ⟨hk', hl⟩ := List.nodup_cons.mp h
    rw [tally_cons, List.lookup_cons, ih hl]
    by_cases hk : k' = k
    · subst hk
      have hnone : l.lookup k' = none := (ih hl).symm.trans (tally_eq_none hk')
      rw [if_pos rfl, hnone, Option.merge_none_right, beq_self_eq_true]
    · rw [if_neg hk, beq_eq_false_iff_ne.mpr (Ne.symm hk)]

theorem mem_of_tally_eq_some {v : V} (h : tally l k = some v) : k ∈ l.map Prod.fst :=
  Decidable.byContradiction fun hmem => by
    rw [tally_eq_none hmem] at h
    cases h

theorem tally_pos {l : List (K × Nat)} {count : Nat} (hl : ∀ e ∈ l, 0 < e.2)
    (h : tally l k = some count) : 0 < count := by
  induction l with
  | nil => cases h
  | cons e l ih =>
    obtain ⟨he, hl⟩ := List.forall_mem_cons.mp hl
    rw [tally_cons] at h
    split at h
    · cases hrest : tally l k with
      | none =>
        rw [hrest, Option.merge_none_right] at h
        exact Option.some.inj h ▸ he
      | some rest =>
        rw [hrest, Option.merge_some_some] at h
        have hcount := Option.some.inj h
        omega
    · exact ih hl h

/-- A positive count is a tally of ones. -/
theorem tally_replicate_one (k : K) {count : Nat} (h : 0 < count) (k' : K) :
    tally (List.replicate count (k, 1)) k' = tally [(k, count)] k' := by
  induction count with
  | zero => cases h
  | succ count ih =>
    rw [List.replicate_succ, tally_cons, tally_singleton]
    cases count with
    | zero =>
      rw [List.replicate_zero]
      rfl
    | succ count =>
      rw [ih (Nat.succ_pos _), tally_singleton]
      by_cases hk : k = k'
      · rw [if_pos hk, if_pos hk, if_pos hk, Option.merge_some_some, Nat.add_comm 1]
      · rw [if_neg hk, if_neg hk, if_neg hk]

theorem tally_flatMap_replicate {l : List (K × Nat)} (h : ∀ e ∈ l, 0 < e.2) (k : K) :
    tally (l.flatMap fun e => List.replicate e.2 (e.1, 1)) k = tally l k := by
  induction l with
  | nil => rfl
  | cons e l ih =>
    obtain ⟨he, hl⟩ := List.forall_mem_cons.mp h
    rw [List.flatMap_cons, tally_append, tally_replicate_one e.1 he, ih hl, ← tally_append,
      List.singleton_append]

end Tally

theorem lookup_eq_some {k : K} {v : V} :
    ∀ {l : List (K × V)}, (l.map Prod.fst).Nodup → (l.lookup k = some v ↔ (k, v) ∈ l)
  | [], _ => ⟨nofun, nofun⟩
  | (k', v') :: l, h => by
    obtain ⟨hk', hl⟩ := List.nodup_cons.mp h
    rw [List.lookup_cons, List.mem_cons, Prod.mk.injEq]
    by_cases hk : k = k'
    · subst hk
      rw [beq_self_eq_true]
      constructor
      · rintro ⟨⟩
        exact .inl ⟨rfl, rfl⟩
      · rintro (⟨_, rfl⟩ | hmem)
        · rfl
        · exact absurd (List.mem_map.mpr ⟨_, hmem, rfl⟩) hk'
    · rw [beq_eq_false_iff_ne.mpr hk]
      constructor
      · exact fun hlookup => .inr ((lookup_eq_some hl).mp hlookup)
      · rintro (⟨rfl, _⟩ | hmem)
        · exact absurd rfl hk
        · exact (lookup_eq_some hl).mpr hmem

/-! ## Chains -/

/-- Adds to the first entry with the key, if there is one. -/
def addTo [Add V] : List (K × V) → K → V → Option (List (K × V))
  | [], _, _ => none
  | (k', v') :: chain, k, v =>
    if k' = k then some ((k', v' + v) :: chain)
    else (addTo chain k v).map ((k', v') :: ·)

/-- Adds to the entry with the key. A new entry stands at the front. -/
def upsert [Add V] (chain : List (K × V)) (k : K) (v : V) : List (K × V) :=
  (addTo chain k v).getD ((k, v) :: chain)

section Chains

variable [AddCommMonoid V] {chain : List (K × V)} {k : K} {v : V}

/-- What the search does to the chain. -/
theorem addTo_cases : ∀ (chain : List (K × V)) (k : K) (v : V),
    (addTo chain k v = none ∧ k ∉ chain.map Prod.fst) ∨
      ∃ chain', addTo chain k v = some chain' ∧ chain'.map Prod.fst = chain.map Prod.fst ∧
        k ∈ chain.map Prod.fst ∧ (chain'.map Prod.snd).sum = (chain.map Prod.snd).sum + v ∧
        ∀ k', chain'.lookup k' =
          if k = k' then (chain.lookup k').merge (· + ·) (some v) else chain.lookup k'
  | [], _, _ => .inl ⟨rfl, List.not_mem_nil⟩
  | (k', v') :: chain, k, v => by
    by_cases hk : k' = k
    · subst hk
      refine .inr ⟨_, if_pos rfl, rfl, List.mem_cons_self, ?_, fun k'' => ?_⟩
      · simp only [List.map_cons, List.sum_cons]
        rw [add_right_comm]
      · rw [List.lookup_cons, List.lookup_cons]
        by_cases hk'' : k' = k''
        · subst hk''
          rw [beq_self_eq_true, if_pos rfl]
          rfl
        · rw [beq_eq_false_iff_ne.mpr (Ne.symm hk''), if_neg hk'']
    · rw [addTo, if_neg hk]
      rcases addTo_cases chain k v with ⟨hnone, hmem⟩ | ⟨chain', hsome, hkeys, hmem, hsum, hlookup⟩
      · refine .inl ⟨by rw [hnone, Option.map_none], ?_⟩
        rw [List.map_cons, List.mem_cons, not_or]
        exact ⟨Ne.symm hk, hmem⟩
      · refine .inr ⟨_, by rw [hsome, Option.map_some], ?_, List.mem_cons_of_mem _ hmem, ?_,
          fun k'' => ?_⟩
        · rw [List.map_cons, List.map_cons, hkeys]
        · rw [List.map_cons, List.map_cons, List.sum_cons, List.sum_cons, hsum, add_assoc]
        · rw [List.lookup_cons, List.lookup_cons, hlookup]
          by_cases hk'' : k'' = k'
          · subst hk''
            rw [if_neg (Ne.symm hk), if_neg (Ne.symm hk)]
          · rw [beq_eq_false_iff_ne.mpr hk'']

theorem lookup_upsert (chain : List (K × V)) (k : K) (v : V) (k' : K) :
    (upsert chain k v).lookup k' =
      if k = k' then (chain.lookup k').merge (· + ·) (some v) else chain.lookup k' := by
  rw [upsert]
  rcases addTo_cases chain k v with ⟨hnone, hmem⟩ | ⟨chain', hsome, _, _, _, hlookup⟩
  · rw [hnone, Option.getD_none, List.lookup_cons]
    by_cases hk : k = k'
    · subst hk
      have hlookup : chain.lookup k = none := by
        rw [List.lookup_eq_none_iff]
        intro e he
        exact bne_iff_ne.mpr fun hek => hmem (List.mem_map.mpr ⟨e, he, hek.symm⟩)
      rw [beq_self_eq_true, if_pos rfl, hlookup, Option.merge_none_left]
    · rw [beq_eq_false_iff_ne.mpr (Ne.symm hk), if_neg hk]
  · rw [hsome, Option.getD_some, hlookup]

theorem keys_upsert (chain : List (K × V)) (k : K) (v : V) :
    (upsert chain k v).map Prod.fst = chain.map Prod.fst ∨
      k ∉ chain.map Prod.fst ∧ (upsert chain k v).map Prod.fst = k :: chain.map Prod.fst := by
  rw [upsert]
  rcases addTo_cases chain k v with ⟨hnone, hmem⟩ | ⟨chain', hsome, hkeys, _⟩
  · rw [hnone]
    exact .inr ⟨hmem, rfl⟩
  · rw [hsome]
    exact .inl hkeys

theorem sum_upsert (chain : List (K × V)) (k : K) (v : V) :
    ((upsert chain k v).map Prod.snd).sum = (chain.map Prod.snd).sum + v := by
  rw [upsert]
  rcases addTo_cases chain k v with ⟨hnone, _⟩ | ⟨chain', hsome, _, _, hsum, _⟩
  · rw [hnone, Option.getD_none, List.map_cons, List.sum_cons, add_comm]
  · rw [hsome]
    exact hsum

end Chains

theorem merge_assoc [AddCommMonoid V] (a b c : Option V) :
    (a.merge (· + ·) b).merge (· + ·) c = a.merge (· + ·) (b.merge (· + ·) c) := by
  cases a with
  | none => rw [Option.merge_none_left, Option.merge_none_left]
  | some a =>
    cases b with
    | none => rw [Option.merge_none_left, Option.merge_none_right]
    | some b =>
      cases c with
      | none => rw [Option.merge_none_right, Option.merge_none_right]
      | some c => exact congrArg some (add_assoc a b c)

end

/-! ## Tables -/

/-- The chains of a table. -/
structure Table (K V : Type*) where
  buckets : List (List (K × V))

namespace Table

/-- The number of chains. -/
def size (t : Table K V) : Nat := t.buckets.length

/-- The entries, chain by chain. -/
def entries (t : Table K V) : List (K × V) := t.buckets.flatten

/-- A table with empty chains. -/
def create (size : Nat) : Table K V := ⟨List.replicate size []⟩

section Operations

variable [DecidableEq K] (hash : K → Nat)

/-- The value of a key, searched for in the chain of its hash. -/
def get (t : Table K V) (k : K) : Option V :=
  (t.buckets[hash k % t.size]?).bind (·.lookup k)

/-- Adds to the value of a key. -/
def update [Add V] (t : Table K V) (k : K) (v : V) : Table K V :=
  ⟨t.buckets.modify (hash k % t.size) (upsert · k v)⟩

/-- Adds one contribution after another. -/
def addAll [Add V] (t : Table K V) (l : List (K × V)) : Table K V :=
  l.foldl (fun t e => t.update hash e.1 e.2) t

end Operations

/-- Every key stands in the chain of its hash, and only once. -/
structure Valid (hash : K → Nat) (t : Table K V) : Prop where
  size_pos : 0 < t.size
  placed : ∀ i (h : i < t.buckets.length), ∀ e ∈ t.buckets[i], hash e.1 % t.size = i
  nodup : ∀ chain ∈ t.buckets, (chain.map Prod.fst).Nodup

section Lemmas

variable {hash : K → Nat} {t : Table K V}

theorem valid_create {size : Nat} (h : 0 < size) : (create size : Table K V).Valid hash := by
  refine ⟨?_, fun i hi e he => ?_, fun chain hchain => ?_⟩
  · rwa [Table.size, create, List.length_replicate]
  · simp only [create, List.getElem_replicate] at he
    cases he
  · rw [List.eq_of_mem_replicate hchain]
    exact List.nodup_nil

/-- The chain that is searched for a key. -/
theorem Valid.exists_chain (h : t.Valid hash) (k : K) :
    ∃ chain ∈ t.buckets, t.buckets[hash k % t.size]? = some chain :=
  ⟨_, List.getElem_mem (Nat.mod_lt _ h.size_pos), List.getElem?_eq_getElem _⟩

/-- No key occurs twice. -/
theorem Valid.nodup_keys (h : t.Valid hash) : (t.entries.map Prod.fst).Nodup := by
  rw [entries, List.map_flatten, List.nodup_flatten]
  refine ⟨?_, ?_⟩
  · rintro keys hkeys
    obtain ⟨chain, hchain, rfl⟩ := List.mem_map.mp hkeys
    exact h.nodup chain hchain
  · rw [List.pairwise_map, List.pairwise_iff_getElem]
    intro i j hi hj hij
    -- Two chains have no key in common, because its hash tells the chain.
    rw [List.disjoint_left]
    intro k hki hkj
    obtain ⟨e, he, rfl⟩ := List.mem_map.mp hki
    obtain ⟨e', he', hkey⟩ := List.mem_map.mp hkj
    have hi' := h.placed i hi e he
    have hj' := h.placed j hj e' he'
    rw [hkey] at hj'
    omega

variable [DecidableEq K]

theorem get_create (size : Nat) (k : K) : (create size : Table K V).get hash k = none := by
  rw [get, create, List.getElem?_replicate]
  split
  · rfl
  · rfl

theorem Valid.get_eq_some (h : t.Valid hash) {k : K} {v : V} :
    t.get hash k = some v ↔ (k, v) ∈ t.entries := by
  obtain ⟨chain, hchain, hget⟩ := h.exists_chain k
  rw [get, hget, Option.bind_some, lookup_eq_some (h.nodup chain hchain), entries,
    List.mem_flatten]
  constructor
  · exact fun hmem => ⟨chain, hchain, hmem⟩
  · rintro ⟨chain', hchain', hmem⟩
    obtain ⟨i, hi, rfl⟩ := List.getElem_of_mem hchain'
    have hplaced := h.placed i hi _ hmem
    rw [← hplaced] at hi
    have heq := List.getElem?_eq_getElem hi
    rw [hget] at heq
    simp only [hplaced, Option.some.injEq] at heq
    rwa [heq]

/-- The entries of a table tell the value of every key. -/
theorem Valid.tally_entries [AddCommMonoid V] (h : t.Valid hash) (k : K) :
    tally t.entries k = t.get hash k := by
  rw [tally_eq_lookup h.nodup_keys]
  apply Option.ext
  intro v
  rw [h.get_eq_some, lookup_eq_some h.nodup_keys]

section Update

variable [AddCommMonoid V]

theorem size_update (t : Table K V) (k : K) (v : V) : (t.update hash k v).size = t.size :=
  List.length_modify _ _ _

theorem Valid.update (h : t.Valid hash) (k : K) (v : V) : (t.update hash k v).Valid hash := by
  refine ⟨by rw [size_update]; exact h.size_pos, fun i hi e he => ?_, fun chain hchain => ?_⟩
  · rw [size_update]
    simp only [Table.update, List.length_modify] at hi he
    rw [List.getElem_modify] at he
    split at he
    · next heq =>
      have hkey : e.1 ∈ (upsert t.buckets[i] k v).map Prod.fst := List.mem_map.mpr ⟨e, he, rfl⟩
      have hold : e.1 ∈ t.buckets[i].map Prod.fst → hash e.1 % t.size = i := fun hmem => by
        obtain ⟨e', he', hkey'⟩ := List.mem_map.mp hmem
        rw [← hkey']
        exact h.placed i hi e' he'
      rcases keys_upsert t.buckets[i] k v with hkeys | ⟨_, hkeys⟩
      · rw [hkeys] at hkey
        exact hold hkey
      · rw [hkeys] at hkey
        rcases List.mem_cons.mp hkey with hk | hmem
        · rw [hk]
          exact heq
        · exact hold hmem
    · exact h.placed i hi e he
  · obtain ⟨i, hi, rfl⟩ := List.getElem_of_mem hchain
    simp only [Table.update, List.length_modify] at hi ⊢
    have hnodup := h.nodup _ (List.getElem_mem hi)
    rw [List.getElem_modify]
    split
    · rcases keys_upsert t.buckets[i] k v with hkeys | ⟨hmem, hkeys⟩
      · rw [hkeys]
        exact hnodup
      · rw [hkeys]
        exact List.nodup_cons.mpr ⟨hmem, hnodup⟩
    · exact hnodup

theorem Valid.get_update (h : t.Valid hash) (k : K) (v : V) (k' : K) :
    (t.update hash k v).get hash k' = (t.get hash k').merge (· + ·) (tally [(k, v)] k') := by
  obtain ⟨chain, _, hget⟩ := h.exists_chain k'
  rw [get, get, size_update, Table.update, List.getElem?_modify, hget, tally_singleton]
  simp only [Option.map_eq_map, Option.map_some, Option.bind_some]
  by_cases hk : k = k'
  · subst hk
    rw [if_pos rfl, if_pos rfl, lookup_upsert, if_pos rfl]
  · rw [if_neg hk, Option.merge_none_right]
    split
    · rw [lookup_upsert, if_neg hk]
    · rfl

theorem Valid.addAll (h : t.Valid hash) (l : List (K × V)) : (t.addAll hash l).Valid hash := by
  induction l generalizing t with
  | nil => exact h
  | cons e l ih => exact ih (h.update e.1 e.2)

/-- A table holds the tally of what was added to it. -/
theorem Valid.get_addAll (h : t.Valid hash) (l : List (K × V)) (k : K) :
    (t.addAll hash l).get hash k = (t.get hash k).merge (· + ·) (tally l k) := by
  induction l generalizing t with
  | nil => exact Option.merge_none_right.symm
  | cons e l ih =>
    rw [Table.addAll, List.foldl_cons, ← Table.addAll, ih (h.update e.1 e.2), h.get_update,
      merge_assoc, ← tally_append, List.singleton_append]

/-- The values of a table sum up to what was added to it. -/
theorem Valid.sum_update (h : t.Valid hash) (k : K) (v : V) :
    ((t.update hash k v).entries.map Prod.snd).sum = (t.entries.map Prod.snd).sum + v := by
  have hlt : hash k % t.size < t.buckets.length := Nat.mod_lt _ h.size_pos
  have hsplit : t.buckets = t.buckets.take (hash k % t.size) ++
      t.buckets[hash k % t.size] :: t.buckets.drop (hash k % t.size + 1) := by
    rw [List.getElem_cons_drop, List.take_append_drop]
  have hsum : ∀ chain, ((t.buckets.take (hash k % t.size) ++
      chain :: t.buckets.drop (hash k % t.size + 1)).flatten.map Prod.snd).sum =
        ((t.buckets.take (hash k % t.size)).flatten.map Prod.snd).sum +
          ((chain.map Prod.snd).sum +
            ((t.buckets.drop (hash k % t.size + 1)).flatten.map Prod.snd).sum) := fun chain => by
    simp only [List.flatten_append, List.flatten_cons, List.map_append, List.sum_append]
  rw [entries, Table.update, List.modify_eq_take_cons_drop hlt, hsum, sum_upsert]
  conv_rhs => rw [entries, hsplit, hsum]
  rw [add_right_comm, ← add_assoc]

theorem Valid.sum_addAll (h : t.Valid hash) (l : List (K × V)) :
    ((t.addAll hash l).entries.map Prod.snd).sum =
      (t.entries.map Prod.snd).sum + (l.map Prod.snd).sum := by
  induction l generalizing t with
  | nil => exact (add_zero _).symm
  | cons e l ih =>
    rw [Table.addAll, List.foldl_cons, ← Table.addAll, ih (h.update e.1 e.2), h.sum_update,
      List.map_cons, List.sum_cons, add_assoc]

end Update

end Lemmas

end Table

end HashTable
