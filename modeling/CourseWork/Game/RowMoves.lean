import CourseWork.Game.RowLoops
import Mathlib.Algebra.BigOperators.Fin
import Mathlib.Algebra.Order.BigOperators.Group.Finset
import Mathlib.Data.Nat.Log
import Mathlib.Tactic.Ring

/-!
# Moves of a row

What a move does to the tiles of a row, by measures of its cells: a move keeps the sum of
the values, makes a large tile only of two that are at least half as large, and scores the
difference of the potentials.
-/

namespace CourseWork.Game

/-! ## Measures -/

/-- The value of a tile. -/
def IsTile (v : Int) : Prop := ∃ n : Nat, 1 ≤ n ∧ v = 2 ^ n

/-- What a cell can hold. -/
def IsCell (v : Int) : Prop := v = 0 ∨ IsTile v

/-- Counts the cells from `t` on. -/
def atLeast (t v : Int) : Nat := if t ≤ v then 1 else 0

/-- Counts the tiles. -/
def nonzero (v : Int) : Nat := if v = 0 then 0 else 1

/-- What building a tile from tiles of value 2 scores. -/
def potential (v : Int) : Nat := (Nat.log 2 v.toNat - 1) * v.toNat

/-- The sum of a measure over a row. -/
def rowTotal (g : Int → Nat) (row : Row) : Nat := ∑ j, g (row j)

/-- The sum of a measure over the board. -/
def total (g : Int → Nat) (board : Board) : Nat := ∑ i, rowTotal g (board i)

theorem toNat_two_pow (n : Nat) : ((2 : Int) ^ n).toNat = 2 ^ n := by
  have hcast : (2 : Int) ^ n = ((2 ^ n : Nat) : Int) := by simp
  rw [hcast, Int.toNat_natCast]

theorem potential_two_pow (n : Nat) : potential (2 ^ n) = (n - 1) * 2 ^ n := by
  rw [potential, toNat_two_pow, Nat.log_pow (by decide)]

theorem IsTile.pos {v : Int} (h : IsTile v) : 0 < v := by
  obtain ⟨n, _, rfl⟩ := h
  exact Int.pow_pos (by decide)

theorem IsTile.double {v : Int} (h : IsTile v) : IsTile (v * 2) := by
  obtain ⟨n, _, rfl⟩ := h
  exact ⟨n + 1, by omega, by rw [Int.pow_succ]⟩

/-- Merging two tiles scores the difference of the potentials. -/
theorem IsTile.potential_double {v : Int} (h : IsTile v) :
    ((potential (v * 2) : Nat) : Int) = 2 * potential v + v * 2 := by
  obtain ⟨n, hn, rfl⟩ := h
  obtain ⟨n, rfl⟩ := Nat.exists_eq_add_of_le' hn
  have hdouble : (2 : Int) ^ (n + 1) * 2 = 2 ^ (n + 2) := (pow_succ 2 (n + 1)).symm
  rw [hdouble, potential_two_pow, potential_two_pow, ← hdouble]
  push_cast
  ring

/-! ## Moves of a row -/

/-- The tiles merge in pairs of equal neighbours, with the given gain. -/
inductive Merges : List Int → List Int → Int → Prop
  | nil : Merges [] [] 0
  | keep {temp temp' : List Int} {gain : Int} (a : Int) :
      Merges temp temp' gain → Merges (a :: temp) (a :: temp') gain
  | merge {temp temp' : List Int} {gain : Int} (a : Int) :
      Merges temp temp' gain → Merges (a :: a :: temp) (a * 2 :: temp') (a * 2 + gain)

section Merges

variable {temp temp' : List Int} {gain : Int}

theorem Merges.refl : ∀ temp : List Int, Merges temp temp 0
  | [] => .nil
  | a :: temp => .keep a (Merges.refl temp)

theorem Merges.tiles (h : Merges temp temp' gain) (htiles : ∀ v ∈ temp, IsTile v) :
    ∀ v ∈ temp', IsTile v := by
  induction h with
  | nil => exact htiles
  | keep a _ ih =>
    obtain ⟨ha, htiles⟩ := List.forall_mem_cons.mp htiles
    exact List.forall_mem_cons.mpr ⟨ha, ih htiles⟩
  | merge a _ ih =>
    obtain ⟨ha, htiles⟩ := List.forall_mem_cons.mp htiles
    exact List.forall_mem_cons.mpr ⟨ha.double, ih (List.forall_mem_cons.mp htiles).2⟩

theorem Merges.value (h : Merges temp temp' gain) (htiles : ∀ v ∈ temp, IsTile v) :
    (temp'.map Int.toNat).sum = (temp.map Int.toNat).sum := by
  induction h with
  | nil => rfl
  | keep a _ ih =>
    rw [List.map_cons, List.map_cons, List.sum_cons, List.sum_cons,
      ih (List.forall_mem_cons.mp htiles).2]
  | merge a _ ih =>
    obtain ⟨ha, htiles⟩ := List.forall_mem_cons.mp htiles
    have hpos := ha.pos
    simp only [List.map_cons, List.sum_cons, ih (List.forall_mem_cons.mp htiles).2]
    omega

theorem Merges.gain_nonneg (h : Merges temp temp' gain) (htiles : ∀ v ∈ temp, IsTile v) :
    0 ≤ gain ∧ gain ≤ (temp.map Int.toNat).sum := by
  induction h with
  | nil => exact ⟨Int.le_refl 0, Int.le_refl 0⟩
  | keep a _ ih =>
    have hrest := ih (List.forall_mem_cons.mp htiles).2
    simp only [List.map_cons, List.sum_cons]
    omega
  | merge a _ ih =>
    obtain ⟨ha, htiles⟩ := List.forall_mem_cons.mp htiles
    have hrest := ih (List.forall_mem_cons.mp htiles).2
    have hpos := ha.pos
    simp only [List.map_cons, List.sum_cons]
    omega

theorem Merges.length (h : Merges temp temp' gain) :
    temp'.length ≤ temp.length ∧ temp.length ≤ 2 * temp'.length := by
  induction h with
  | nil => exact ⟨Nat.le_refl 0, Nat.le_refl 0⟩
  | keep a _ ih => simp only [List.length_cons]; omega
  | merge a _ ih => simp only [List.length_cons]; omega

/-- A large tile is an old one or made of two that are at least half as large. -/
theorem Merges.count (h : Merges temp temp' gain) (htiles : ∀ v ∈ temp, IsTile v) (m : Nat) :
    2 * (temp'.map (atLeast (2 ^ (m + 1)))).sum ≤
      (temp.map (atLeast (2 ^ (m + 1)))).sum + (temp.map (atLeast (2 ^ m))).sum := by
  have hpow : (2 : Int) ^ (m + 1) = 2 ^ m * 2 := Int.pow_succ 2 m
  have hpos : (0 : Int) < 2 ^ m := Int.pow_pos (by decide)
  induction h with
  | nil => exact Nat.le_refl 0
  | keep a _ ih =>
    have hrest := ih (List.forall_mem_cons.mp htiles).2
    simp only [List.map_cons, List.sum_cons, atLeast] at hrest ⊢
    split <;> split <;> omega
  | merge a _ ih =>
    obtain ⟨ha, htiles⟩ := List.forall_mem_cons.mp htiles
    have hrest := ih (List.forall_mem_cons.mp htiles).2
    simp only [List.map_cons, List.sum_cons, atLeast] at hrest ⊢
    split <;> split <;> split <;> omega

theorem Merges.potential (h : Merges temp temp' gain) (htiles : ∀ v ∈ temp, IsTile v) :
    ((temp'.map potential).sum : Int) = (temp.map potential).sum + gain := by
  induction h with
  | nil => rfl
  | keep a _ ih =>
    have hrest := ih (List.forall_mem_cons.mp htiles).2
    simp only [List.map_cons, List.sum_cons, Nat.cast_add] at hrest ⊢
    omega
  | merge a _ ih =>
    obtain ⟨ha, htiles⟩ := List.forall_mem_cons.mp htiles
    have hrest := ih (List.forall_mem_cons.mp htiles).2
    have hdouble := ha.potential_double
    simp only [List.map_cons, List.sum_cons, Nat.cast_add] at hrest ⊢
    omega

end Merges

/-- The merging loop on tiles whose values do not add up to an overflow. -/
theorem mergeTiles_merges : ∀ (temp : List Int) (score : Int) (changed : Bool),
    (∀ v ∈ temp, IsTile v) → 0 ≤ score → score + (temp.map Int.toNat).sum < 2 ^ 31 →
    ∃ temp' gain changed', mergeTiles score changed temp = some (temp', score + gain, changed') ∧
      Merges temp temp' gain ∧
      (changed' = true → changed = true ∨ temp'.length < temp.length) ∧
      (changed' = false → changed = false ∧ temp' = temp ∧ gain = 0)
  | [], score, changed, _, _, _ =>
    ⟨[], 0, changed, by rw [mergeTiles, Int.add_zero]; exact nofun, .nil, .inl,
      fun h => ⟨h, rfl, rfl⟩⟩
  | [a], score, changed, _, _, _ =>
    ⟨[a], 0, changed, by rw [mergeTiles, Int.add_zero]; exact nofun, .refl _, .inl,
      fun h => ⟨h, rfl, rfl⟩⟩
  | a :: b :: temp, score, changed, htiles, hscore, hlt => by
    obtain ⟨ha, htiles'⟩ := List.forall_mem_cons.mp htiles
    have hpos := ha.pos
    simp only [List.map_cons, List.sum_cons, Nat.cast_add] at hlt
    by_cases hab : a = b
    · subst hab
      obtain ⟨temp', gain, changed', hrest, hmerges, htrue, hfalse⟩ :=
        mergeTiles_merges temp (score + a * 2) true
          (List.forall_mem_cons.mp htiles').2 (by omega) (by omega)
      have hlen := hmerges.length
      refine ⟨a * 2 :: temp', a * 2 + gain, changed', ?_, .merge a hmerges, fun _ => .inr ?_,
        fun h => absurd (hfalse h).1 nofun⟩
      · rw [mergeTiles, if_pos rfl, checkInt, if_pos (by omega)]
        simp only [Option.bind_eq_bind, Option.bind_some]
        rw [checkInt, if_pos (by omega)]
        simp only [Option.bind_some, hrest, Int.add_assoc]
        rfl
      · simp only [List.length_cons]
        omega
    · obtain ⟨temp', gain, changed', hrest, hmerges, htrue, hfalse⟩ :=
        mergeTiles_merges (b :: temp) score changed htiles' hscore (by
          simp only [List.map_cons, List.sum_cons, Nat.cast_add]
          omega)
      refine ⟨a :: temp', gain, changed', ?_, .keep a hmerges, fun h => ?_, fun h => ?_⟩
      · rw [mergeTiles, if_neg hab, hrest]
        rfl
      · rcases htrue h with h | h
        · exact .inl h
        · exact .inr (Nat.succ_lt_succ h)
      · obtain ⟨hchanged, rfl, hgain⟩ := hfalse h
        exact ⟨hchanged, rfl, hgain⟩

/-- Padding adds nothing to a measure that is 0 at 0. -/
theorem sum_getD {g : Int → Nat} (hg : g 0 = 0) : ∀ (n : Nat) (temp : List Int),
    temp.length ≤ n → ∑ j : Fin n, g (temp.getD j 0) = (temp.map g).sum
  | 0, temp, h => by
    rw [List.eq_nil_of_length_eq_zero (Nat.le_zero.mp h)]
    rfl
  | n + 1, [], _ => by simp [hg]
  | n + 1, a :: temp, h => by
    rw [Fin.sum_univ_succ, List.map_cons, List.sum_cons,
      ← sum_getD hg n temp (Nat.le_of_succ_le_succ h)]
    rfl

theorem rowTotal_padRow {g : Int → Nat} (hg : g 0 = 0) {temp : List Int}
    (h : temp.length ≤ size) : rowTotal g (padRow temp) = (temp.map g).sum :=
  sum_getD hg size temp h

theorem isTile_of_mem_tiles {row : Row} (h : ∀ j, IsCell (row j)) : ∀ v ∈ tiles row, IsTile v := by
  intro v hv
  obtain ⟨hmem, hne⟩ := List.mem_filter.mp hv
  obtain ⟨j, rfl⟩ := List.mem_ofFn.mp hmem
  exact (h j).resolve_left (of_decide_eq_true hne)

/-- The cells that are 0 add nothing to a measure that is 0 at 0. -/
theorem rowTotal_eq_tiles {g : Int → Nat} (hg : g 0 = 0) (row : Row) :
    rowTotal g row = ((tiles row).map g).sum := by
  have hfilter : ∀ l : List Int, ((l.filter (· ≠ 0)).map g).sum = (l.map g).sum := by
    intro l
    induction l with
    | nil => rfl
    | cons v l ih =>
      rw [List.filter_cons]
      by_cases hv : v = 0
      · rw [if_neg (by simp [hv]), ih, List.map_cons, List.sum_cons, hv, hg, Nat.zero_add]
      · rw [if_pos (by simp [hv]), List.map_cons, List.map_cons, List.sum_cons, List.sum_cons, ih]
  rw [tiles, hfilter, List.map_ofFn, List.sum_ofFn]
  rfl

/-- What a move does to a row. -/
structure RowMoved (row row' : Row) (gain : Int) (changed : Bool) : Prop where
  cells : ∀ j, IsCell (row' j)
  value : rowTotal Int.toNat row' = rowTotal Int.toNat row
  gain_bounds : 0 ≤ gain ∧ gain ≤ rowTotal Int.toNat row
  half : rowTotal nonzero row ≤ 2 * rowTotal nonzero row'
  count : ∀ m, 2 * rowTotal (atLeast (2 ^ (m + 1))) row' ≤
    rowTotal (atLeast (2 ^ (m + 1))) row + rowTotal (atLeast (2 ^ m)) row
  scored : (rowTotal potential row' : Int) = rowTotal potential row + gain
  kept : changed = false → row' = row ∧ gain = 0
  room : changed = true → ∃ j, row' j = 0

/-- A function that moves every row whose values do not add up to an overflow. -/
def MovesRow (moveRow : Row → Int → Option (Row × Int × Bool)) : Prop :=
  ∀ (row : Row) (score : Int), (∀ j, IsCell (row j)) → 0 ≤ score →
    score + rowTotal Int.toNat row < 2 ^ 31 →
    ∃ row' gain changed, moveRow row score = some (row', score + gain, changed) ∧
      RowMoved row row' gain changed

theorem padRow_ofFn (row : Row) : padRow (List.ofFn row) = row := by
  funext i
  rw [padRow, List.getD_eq_getElem?_getD, List.getElem?_ofFn, dif_pos i.isLt, Option.getD_some]

theorem atLeast_zero (m : Nat) : atLeast (2 ^ m) 0 = 0 := by
  have hpos : (0 : Int) < 2 ^ m := Int.pow_pos (by decide)
  rw [atLeast, if_neg (by omega)]

theorem length_eq_nonzero {temp : List Int} (h : ∀ v ∈ temp, IsTile v) :
    (temp.map nonzero).sum = temp.length := by
  induction temp with
  | nil => rfl
  | cons v temp ih =>
    obtain ⟨hv, h⟩ := List.forall_mem_cons.mp h
    have hpos := hv.pos
    rw [List.map_cons, List.sum_cons, ih h, nonzero, if_neg (by omega), List.length_cons,
      Nat.add_comm]

theorem moveRowLeft_movesRow : MovesRow moveRowLeft := by
  intro row score hcells hscore hlt
  have htiles := isTile_of_mem_tiles hcells
  have hlen := length_tiles row
  rw [rowTotal_eq_tiles rfl] at hlt
  obtain ⟨temp', gain, changed, hmerge, hmerges, htrue, hfalse⟩ :=
    mergeTiles_merges (tiles row) score false htiles hscore hlt
  have hlen' : temp'.length ≤ size := Nat.le_trans hmerges.length.1 hlen
  refine ⟨padRow temp', gain, _, by rw [moveRowLeft_eq, moveTiles, hmerge]; rfl, ?_⟩
  refine ⟨fun j => ?_, ?_, ?_, ?_, fun m => ?_, ?_, fun h => ?_, fun h => ?_⟩
  · rw [padRow, List.getD_eq_getElem?_getD]
    cases hget : temp'[j.val]? with
    | none => exact .inl rfl
    | some v => exact .inr (hmerges.tiles htiles v (List.mem_of_getElem? hget))
  · rw [rowTotal_padRow rfl hlen', rowTotal_eq_tiles rfl]
    exact hmerges.value htiles
  · rw [rowTotal_eq_tiles rfl]
    exact hmerges.gain_nonneg htiles
  · rw [rowTotal_padRow rfl hlen', rowTotal_eq_tiles rfl, length_eq_nonzero htiles,
      length_eq_nonzero (hmerges.tiles htiles)]
    exact hmerges.length.2
  · rw [rowTotal_padRow (atLeast_zero _) hlen', rowTotal_eq_tiles (atLeast_zero _),
      rowTotal_eq_tiles (atLeast_zero _)]
    exact hmerges.count htiles m
  · rw [rowTotal_padRow rfl hlen', rowTotal_eq_tiles rfl]
    exact hmerges.potential htiles
  · obtain ⟨hchanged, hsame⟩ := Bool.or_eq_false_iff.mp h
    refine ⟨funext fun i => ?_, (hfalse hchanged).2.2⟩
    have hi := List.any_eq_false.mp hsame i (List.mem_finRange i)
    exact (Decidable.not_not.mp (fun hne => hi (decide_eq_true hne))).symm
  · -- Without a zero all four cells are tiles and none has merged.
    by_contra hfull
    have hfour : temp'.length = size := by
      by_contra hne
      refine hfull ⟨⟨3, by decide⟩, ?_⟩
      rw [padRow, List.getD_eq_getElem?_getD, List.getElem?_eq_none (show temp'.length ≤ 3 from
        Nat.le_of_lt_succ (Nat.lt_of_le_of_ne hlen' hne)), Option.getD_none]
    have hchanged : changed = false := by
      cases hc : changed with
      | false => rfl
      | true =>
        rcases htrue hc with h | h
        · exact absurd h Bool.false_ne_true
        · omega
    have htemp := (hfalse hchanged).2.1
    have hall : tiles row = List.ofFn row := by
      refine List.filter_eq_self.mpr ((List.length_filter_eq_length_iff).mp ?_)
      rw [List.length_ofFn]
      exact (congrArg List.length htemp).symm.trans hfour
    rw [hchanged, htemp, hall, padRow_ofFn] at h
    simp at h

theorem rowTotal_reverseRow (g : Int → Nat) (row : Row) :
    rowTotal g (reverseRow row) = rowTotal g row :=
  Equiv.sum_comp Fin.revPerm fun j => g (row j)

theorem reverseRow_reverseRow (row : Row) : reverseRow (reverseRow row) = row := by
  funext i
  rw [reverseRow, reverseRow, Fin.rev_rev]

theorem moveRowRight_movesRow : MovesRow moveRowRight := by
  intro row score hcells hscore hlt
  rw [← rowTotal_reverseRow] at hlt
  obtain ⟨row', gain, changed, hmove, hmoved⟩ :=
    moveRowLeft_movesRow (reverseRow row) score (fun j => hcells j.rev) hscore hlt
  refine ⟨reverseRow row', gain, changed, by rw [moveRowRight, hmove]; rfl, ?_⟩
  refine ⟨fun j => hmoved.cells j.rev, ?_, ?_, ?_, fun m => ?_, ?_, fun h => ?_, fun h => ?_⟩
  · rw [rowTotal_reverseRow, hmoved.value, rowTotal_reverseRow]
  · have hbounds := hmoved.gain_bounds
    rwa [rowTotal_reverseRow] at hbounds
  · have hhalf := hmoved.half
    rwa [rowTotal_reverseRow] at hhalf ⊢
  · have hcount := hmoved.count m
    rw [rowTotal_reverseRow, rowTotal_reverseRow] at hcount
    rwa [rowTotal_reverseRow]
  · have hscored := hmoved.scored
    rwa [rowTotal_reverseRow] at hscored ⊢
  · obtain ⟨hrow, hgain⟩ := hmoved.kept h
    exact ⟨by rw [hrow, reverseRow_reverseRow], hgain⟩
  · obtain ⟨j, hj⟩ := hmoved.room h
    exact ⟨j.rev, by rw [reverseRow, Fin.rev_rev]; exact hj⟩

end CourseWork.Game
