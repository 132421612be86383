import CourseWork.Game.Moves
import Mathlib.Data.List.FinRange

/-!
# The loops of `moveRowLeft`

The loops of `moveRowLeft` on its array `temp` do what a recursion over the list of tiles does, and
what follows about moves goes through that. The used part of the array is the list, padded with
zeros.
-/

namespace CourseWork.Game

/-! ## Tiles -/

/-- The tiles of a row. -/
def tiles (row : Row) : List Int := (List.ofFn row).filter (· ≠ 0)

/-- Equal neighbours are merged, on the tiles from `temp[i]` on. After a merge
it goes on behind the merged tile. -/
def mergeTiles (score : Int) (changed : Bool) : List Int → Option (List Int × Int × Bool)
  | a :: b :: temp =>
    if a = b then do
      let doubled ← checkInt (a * 2)
      let score ← checkInt (score + doubled)
      let (temp, score, changed) ← mergeTiles score true temp
      return (doubled :: temp, score, changed)
    else do
      let (temp, score, changed) ← mergeTiles score changed (b :: temp)
      return (a :: temp, score, changed)
  | temp => some (temp, score, changed)

/-- The tiles as a row, with zeros behind them. -/
def padRow (temp : List Int) : Row := fun i => temp.getD i 0

/-- `moveRowLeft` by a recursion over the tiles. -/
def moveTiles (row : Row) (score : Int) : Option (Row × Int × Bool) := do
  let (temp, score, changed) ← mergeTiles score false (tiles row)
  let differs := (List.finRange size).any fun i => row i ≠ padRow temp i
  return (padRow temp, score, changed || differs)

theorem length_tiles (row : Row) : (tiles row).length ≤ size := by
  have hle := List.length_filter_le (fun v : Int => decide (v ≠ 0)) (List.ofFn row)
  rwa [List.length_ofFn] at hle

/-! ## The used part of the array -/

section Lists

variable {done rest : List Int}

theorem readAt_padRow {line : List Int} {i : Nat} (h : line.length ≤ size) :
    readAt (padRow line) i = line.getD i 0 := by
  unfold readAt
  split
  · rfl
  · next hi => rw [List.getD_eq_getElem?_getD, List.getElem?_eq_none (by omega), Option.getD_none]

theorem readAt_append (done : List Int) (value : Int) (rest : List Int)
    (h : (done ++ value :: rest).length ≤ size) :
    readAt (padRow (done ++ value :: rest)) done.length = value := by
  rw [readAt_padRow h, List.getD_eq_getElem?_getD, List.getElem?_append_right (Nat.le_refl _),
    Nat.sub_self]
  rfl

theorem writeAt_padRow (done : List Int) (old value : Int) (rest : List Int) :
    writeAt (padRow (done ++ old :: rest)) done.length value = padRow (done ++ value :: rest) := by
  funext k
  rw [writeAt, padRow, padRow, List.getD_eq_getElem?_getD, List.getD_eq_getElem?_getD,
    List.getElem?_append, List.getElem?_append]
  by_cases hk : k.val = done.length
  · rw [if_pos hk, hk, if_neg (Nat.lt_irrefl _), Nat.sub_self, List.getElem?_cons_zero,
      Option.getD_some]
  · rw [if_neg hk]
    by_cases hlt : k.val < done.length
    · rw [if_pos hlt, if_pos hlt]
    · obtain ⟨d, hd⟩ := Nat.exists_eq_add_of_lt (show done.length < k.val by omega)
      rw [if_neg hlt, if_neg hlt, hd, Nat.add_assoc, Nat.add_sub_cancel_left,
        List.getElem?_cons_succ, List.getElem?_cons_succ]

/-- Padding ends with zeros. -/
theorem padRow_append_zero (line : List Int) : padRow (line ++ [0]) = padRow line := by
  funext k
  rw [padRow, padRow, List.getD_eq_getElem?_getD, List.getD_eq_getElem?_getD,
    List.getElem?_append]
  split
  · rfl
  · next hk =>
    rw [List.getElem?_eq_none (Nat.le_of_not_lt hk), Option.getD_none]
    cases k.val - line.length with
    | zero => rfl
    | succ d => rfl

theorem writeAt_append (line : List Int) (value : Int) :
    writeAt (padRow line) line.length value = padRow (line ++ [value]) := by
  rw [← padRow_append_zero line]
  exact writeAt_padRow line 0 value []

theorem writeAt_last (line : List Int) (old : Int) :
    writeAt (padRow (line ++ [old])) line.length 0 = padRow line :=
  (writeAt_padRow line old 0 []).trans (padRow_append_zero line)

end Lists

/-! ## What the loops do -/

/-- The index behind a tile that is done. -/
theorem length_snoc (done : List Int) (a : Int) : done.length + 1 = (done ++ [a]).length := by
  rw [List.length_append, List.length_singleton]

theorem collectLoop_eq (row : Row) : ∀ (cols : List (Fin size)) (line : List Int),
    collectLoop row cols (padRow line) line.length =
      (padRow (line ++ (cols.map row).filter (· ≠ 0)),
        (line ++ (cols.map row).filter (· ≠ 0)).length)
  | [], line => by
    rw [List.map_nil, List.filter_nil, List.append_nil]
    rfl
  | i :: cols, line => by
    rw [collectLoop, List.map_cons]
    by_cases hi : row i = 0
    · rw [if_neg (not_not.mpr hi), List.filter_cons_of_neg (by simp [hi])]
      exact collectLoop_eq row cols line
    · rw [if_pos hi, List.filter_cons_of_pos (by simp [hi]), writeAt_append,
        length_snoc line (row i), collectLoop_eq row cols, List.append_assoc,
        List.singleton_append]

theorem readAt_neighbours (done : List Int) (a b : Int) (rest : List Int)
    (h : done.length + (rest.length + 1 + 1) ≤ size) :
    readAt (padRow (done ++ a :: b :: rest)) done.length = a ∧
      readAt (padRow (done ++ a :: b :: rest)) (done.length + 1) = b := by
  have hfirst := readAt_append done a (b :: rest) (by
    simp only [List.length_append, List.length_cons]
    omega)
  have hsecond := readAt_append (done ++ [a]) b rest (by
    simp only [List.length_append, List.length_cons, List.length_nil]
    omega)
  rw [List.append_assoc, List.singleton_append, List.length_append, List.length_singleton]
    at hsecond
  exact ⟨hfirst, hsecond⟩

/-- The shift overwrites the tile at its start with those behind it. -/
theorem shiftLoop_eq {last : Nat} : ∀ (fuel : Nat) (done : List Int) (old : Int)
    (rest : List Int), rest.length ≤ fuel → done.length + rest.length = last → last < size →
    writeAt (shiftLoop last fuel done.length (padRow (done ++ old :: rest))) last 0 =
      padRow (done ++ rest)
  | fuel, done, old, [], _, hlast, _ => by
    have hloop : shiftLoop last fuel done.length (padRow (done ++ [old])) =
        padRow (done ++ [old]) := by
      cases fuel with
      | zero => rfl
      | succ fuel => exact if_neg (by rw [← hlast]; exact Nat.lt_irrefl _)
    rw [hloop, List.append_nil, ← hlast]
    exact writeAt_last done old
  | 0, _, _, _ :: _, hfuel, _, _ => absurd hfuel (Nat.not_succ_le_zero _)
  | fuel + 1, done, old, value :: rest, hfuel, hlast, hsize => by
    rw [List.length_cons] at hfuel hlast
    have hread : readAt (padRow (done ++ old :: value :: rest)) (done.length + 1) = value :=
      (readAt_neighbours done old value rest (by omega)).2
    have hrest := shiftLoop_eq fuel (done ++ [value]) value rest (Nat.le_of_succ_le_succ hfuel)
      (by rw [List.length_append, List.length_singleton]; omega) hsize
    rw [List.length_append, List.length_singleton, List.append_assoc, List.append_assoc,
      List.singleton_append, List.singleton_append] at hrest
    rw [shiftLoop, if_pos (by omega), hread, writeAt_padRow]
    exact hrest

/-- The loop merges the tiles from `i` on as the recursion does. -/
theorem mergeLoop_eq (rest : List Int) (score : Int) (changed : Bool) :
    ∀ (fuel : Nat) (done : List Int), rest.length ≤ fuel + 1 → (done ++ rest).length ≤ size →
      mergeLoop fuel done.length (padRow (done ++ rest)) (done ++ rest).length score changed =
        (mergeTiles score changed rest).map fun merged =>
          (padRow (done ++ merged.1), merged.2.1, merged.2.2) := by
  fun_induction mergeTiles score changed rest with
  | case1 score changed a rest ih =>
    intro fuel done hfuel hsize
    simp only [List.length_append, List.length_cons] at hfuel hsize
    obtain ⟨fuel, rfl⟩ := Nat.exists_eq_add_of_le' (show 1 ≤ fuel by omega)
    obtain ⟨hfirst, hsecond⟩ := readAt_neighbours done a a rest (by omega)
    rw [mergeLoop, if_pos (by simp only [List.length_append, List.length_cons]; omega), hfirst,
      hsecond, if_pos rfl]
    cases checkInt (a * 2) with
    | none => rfl
    | some doubled =>
      simp only [Option.bind_eq_bind, Option.bind_some]
      cases checkInt (score + doubled) with
      | none => rfl
      | some score =>
        -- The merged tile is done, and its neighbour is shifted out.
        have hpos : (done ++ a :: a :: rest).length - 1 = (done ++ [doubled] ++ rest).length := by
          simp only [List.length_append, List.length_cons, List.length_nil]
          omega
        have hshift := shiftLoop_eq size (done ++ [doubled]) a rest (by omega)
          List.length_append.symm (by
            simp only [List.length_append, List.length_cons, List.length_nil]
            omega)
        have hrest := ih score fuel (done ++ [doubled]) (by omega) (by
          simp only [List.length_append, List.length_cons, List.length_nil]
          omega)
        simp only [Option.bind_some, writeAt_padRow]
        rw [hpos, length_snoc done doubled, List.append_cons done doubled (a :: rest), hshift,
          hrest]
        cases mergeTiles score true rest with
        | none => rfl
        | some merged => simp
  | case2 score changed a b rest hab ih =>
    intro fuel done hfuel hsize
    simp only [List.length_append, List.length_cons] at hfuel hsize
    obtain ⟨fuel, rfl⟩ := Nat.exists_eq_add_of_le' (show 1 ≤ fuel by omega)
    obtain ⟨hfirst, hsecond⟩ := readAt_neighbours done a b rest (by omega)
    have hrest := ih fuel (done ++ [a]) (by rw [List.length_cons]; omega) (by
      simp only [List.length_append, List.length_cons, List.length_nil]
      omega)
    rw [mergeLoop, if_pos (by simp only [List.length_append, List.length_cons]; omega), hfirst,
      hsecond, if_neg hab, length_snoc done a, List.append_cons done a (b :: rest), hrest]
    cases mergeTiles score changed (b :: rest) with
    | none => rfl
    | some merged => simp
  | case3 score changed rest hshort =>
    intro fuel done hfuel hsize
    have hend : ¬done.length < (done ++ rest).length - 1 := by
      rcases rest with _ | ⟨a, _ | ⟨b, rest⟩⟩
      · simp
      · simp
      · exact absurd rfl (hshort a b rest)
    cases fuel with
    | zero => rfl
    | succ fuel =>
      rw [mergeLoop, if_neg hend]
      rfl

theorem writeAt_of_ne {k i : Fin size} (h : k ≠ i) (row : Row) (value : Int) :
    writeAt row i value k = row k := if_neg fun heq => h (Fin.ext heq)

theorem writeAt_self (row : Row) (i : Fin size) : writeAt row i (row i) = row := by
  funext k
  unfold writeAt
  split
  · next h => rw [Fin.ext h]
  · rfl

/-- The copy compares cell by cell. -/
theorem copyLoop_eq (temp : Row) : ∀ (cols : List (Fin size)) (row : Row) (changed : Bool),
    cols.Nodup → copyLoop temp cols row changed =
      (fun k => if k ∈ cols then temp k else row k,
        changed || cols.any fun i => decide (row i ≠ temp i))
  | [], row, changed, _ => by
    rw [copyLoop, List.any_nil, Bool.or_false]
    simp only [List.not_mem_nil, if_false]
  | i :: cols, row, changed, hnodup => by
    obtain ⟨hi, hnodup⟩ := List.nodup_cons.mp hnodup
    have hsame : ∀ k ∈ cols, writeAt row i (temp i) k = row k := fun k hk =>
      writeAt_of_ne (ne_of_mem_of_not_mem hk hi) row (temp i)
    -- The cell is only compared before it is written, and again only if it stands in the rest.
    have hwrite : copyLoop temp (i :: cols) row changed =
        copyLoop temp cols (writeAt row i (temp i)) (changed || decide (row i ≠ temp i)) := by
      rw [copyLoop]
      by_cases heq : row i = temp i
      · rw [if_neg (not_not.mpr heq), ← heq, writeAt_self, decide_eq_false (not_not.mpr rfl),
          Bool.or_false]
      · rw [if_pos heq, decide_eq_true heq, Bool.or_true]
    have hany : (cols.any fun k => decide (writeAt row i (temp i) k ≠ temp k)) =
        cols.any fun k => decide (row k ≠ temp k) := by
      rw [Bool.eq_iff_iff, List.any_eq_true, List.any_eq_true]
      exact exists_congr fun k => and_congr_right fun hk => by rw [hsame k hk]
    rw [hwrite, copyLoop_eq temp cols _ _ hnodup, hany, List.any_cons, Bool.or_assoc]
    refine congrArg (Prod.mk · _) (funext fun k => ?_)
    by_cases hk : k = i
    · subst hk
      rw [if_neg hi, if_pos List.mem_cons_self]
      exact if_pos rfl
    · have hiff : k ∈ i :: cols ↔ k ∈ cols := by rw [List.mem_cons, or_iff_right hk]
      rw [writeAt_of_ne hk]
      exact if_congr hiff.symm rfl rfl

/-- The loops compute the row that the recursion over the tiles describes. -/
theorem moveRowLeft_eq (row : Row) (score : Int) : moveRowLeft row score = moveTiles row score := by
  have hcollect := collectLoop_eq row (List.finRange size) []
  have hmap : (List.finRange size).map row = List.ofFn row := List.ofFn_eq_map.symm
  have hmerge := mergeLoop_eq (tiles row) score false size []
    (Nat.le_succ_of_le (length_tiles row)) (length_tiles row)
  have hall : ∀ temp : Row,
      (fun k => if k ∈ List.finRange size then temp k else row k) = temp :=
    fun temp => funext fun k => if_pos (List.mem_finRange k)
  have hcopy := fun temp changed =>
    copyLoop_eq temp (List.finRange size) row changed (List.nodup_finRange size)
  rw [hmap, List.nil_append, ← tiles] at hcollect
  rw [List.nil_append] at hmerge
  simp only [hall] at hcopy
  rw [moveRowLeft, moveTiles, show (fun _ => 0 : Row) = padRow [] from rfl]
  simp only [List.length_nil] at hcollect hmerge
  rw [hcollect]
  simp only [hmerge, hcopy]
  cases mergeTiles score false (tiles row) with
  | none => rfl
  | some merged => rfl

end CourseWork.Game
