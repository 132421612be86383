import CourseWork.Game.RowMoves
import Mathlib.Algebra.Order.Ring.Int

/-!
# Bounds of 2048

No game overflows an `int`. The cells are 0 or powers of two, and the `k`-th largest of
them is at most `2 ^ (18 - k)`: of the tiles from `2 ^ m` on there are at most `18 - m`. A
move keeps this, because it makes such a tile only of two from `2 ^ (m - 1)` on, and a new
tile is at most 4. The score is bounded by the potential of the tiles, which is what
building them from tiles of value 2 scores.
-/

namespace CourseWork.Game

/-! ## Moves of the board -/

/-- What a move does to the board. -/
structure BoardMoved (board board' : Board) (gain : Int) (changed : Bool) : Prop where
  rows : ∀ i, ∃ rowGain rowChanged, RowMoved (board i) (board' i) rowGain rowChanged
  gain_nonneg : 0 ≤ gain
  scored : (total potential board' : Int) = total potential board + gain
  kept : changed = false → board' = board ∧ gain = 0
  room : changed = true → ∃ i j, board' i j = 0

/-- What a move of some rows does to the board, the others stay as they are. -/
structure RowsMoved (rows : List (Fin size)) (board board' : Board) (gain : Int)
    (changed : Bool) : Prop where
  moved : ∀ i ∈ rows, ∃ rowGain rowChanged, RowMoved (board i) (board' i) rowGain rowChanged
  others : ∀ i, i ∉ rows → board' i = board i
  gain_nonneg : 0 ≤ gain
  scored : (((rows.map fun i => rowTotal potential (board' i)).sum : Nat) : Int) =
    (rows.map fun i => rowTotal potential (board i)).sum + gain
  kept : changed = false → board' = board ∧ gain = 0
  room : changed = true → ∃ i j, board' i j = 0

/-- The board with another row. -/
def setRow (board : Board) (i : Fin size) (row : Row) : Board :=
  fun k => if k = i then row else board k

section Rows

variable {board board' : Board} {i k : Fin size} {rows : List (Fin size)} {row : Row}

theorem setRow_self : setRow board i row i = row := if_pos rfl

theorem setRow_of_ne (h : k ≠ i) : setRow board i row k = board k := if_neg h

theorem map_setRow {α : Type} (hi : i ∉ rows) (g : Row → α) :
    (rows.map fun k => g (setRow board i row k)) = rows.map fun k => g (board k) :=
  List.map_congr_left fun k hk => by rw [setRow_of_ne fun h : k = i => hi (h ▸ hk)]

theorem RowsMoved.nil (board : Board) : RowsMoved [] board board 0 false where
  moved := nofun
  others _ _ := rfl
  gain_nonneg := Int.le_refl 0
  scored := rfl
  kept _ := ⟨rfl, rfl⟩
  room := nofun

/-- One row is moved, then others. -/
theorem RowsMoved.cons {rowGain gain : Int} {rowChanged changed : Bool} (hi : i ∉ rows)
    (hrow : RowMoved (board i) row rowGain rowChanged)
    (h : RowsMoved rows (setRow board i row) board' gain changed) :
    RowsMoved (i :: rows) board board' (rowGain + gain) (rowChanged || changed) := by
  have hfinal : board' i = row := by rw [h.others i hi, setRow_self]
  refine ⟨fun k hk => ?_, fun k hk => ?_, ?_, ?_, fun hfalse => ?_, fun htrue => ?_⟩
  · rcases List.mem_cons.mp hk with rfl | hk
    · exact ⟨rowGain, rowChanged, hfinal ▸ hrow⟩
    · have hmoved := h.moved k hk
      rwa [setRow_of_ne fun heq : k = i => hi (heq ▸ hk)] at hmoved
  · rw [h.others k fun hmem => hk (List.mem_cons_of_mem _ hmem)]
    exact setRow_of_ne fun heq => hk (heq ▸ List.mem_cons_self)
  · exact Int.add_nonneg hrow.gain_bounds.1 h.gain_nonneg
  · have hscored := h.scored
    have hrowScored := hrow.scored
    rw [map_setRow hi (rowTotal potential)] at hscored
    simp only [List.map_cons, List.sum_cons, Nat.cast_add, hfinal]
    omega
  · obtain ⟨hrowChanged, hchanged⟩ := Bool.or_eq_false_iff.mp hfalse
    obtain ⟨hsame, hrowGain⟩ := hrow.kept hrowChanged
    obtain ⟨hboard, hgain⟩ := h.kept hchanged
    refine ⟨?_, by rw [hrowGain, hgain, Int.add_zero]⟩
    rw [hboard]
    funext k
    by_cases hk : k = i
    · rw [hk, setRow_self, hsame]
    · exact setRow_of_ne hk
  · rcases Bool.or_eq_true_iff.mp htrue with hrowChanged | hchanged
    · obtain ⟨j, hj⟩ := hrow.room hrowChanged
      exact ⟨i, j, by rw [hfinal]; exact hj⟩
    · exact h.room hchanged

end Rows

/-- The loop over the rows. -/
theorem moveRows_moved {moveRow : Row → Int → Option (Row × Int × Bool)}
    (hmove : MovesRow moveRow) : ∀ (rows : List (Fin size)), rows.Nodup →
    ∀ (board : Board) (score : Int) (changed : Bool), (∀ i j, IsCell (board i j)) → 0 ≤ score →
    score + (rows.map fun i => rowTotal Int.toNat (board i)).sum < 2 ^ 31 →
    ∃ board' gain rowsChanged,
      moveRows moveRow rows board score changed =
        some (board', score + gain, changed || rowsChanged) ∧
      RowsMoved rows board board' gain rowsChanged
  | [], _, board, score, changed, _, _, _ =>
    ⟨board, 0, false, by rw [moveRows, Int.add_zero, Bool.or_false], .nil board⟩
  | i :: rows, hnodup, board, score, changed, hcells, hscore, hlt => by
    obtain ⟨hi, hnodup⟩ := List.nodup_cons.mp hnodup
    simp only [List.map_cons, List.sum_cons, Nat.cast_add] at hlt
    obtain ⟨row, rowGain, rowChanged, hrow, hmoved⟩ :=
      hmove (board i) score (hcells i) hscore (by omega)
    have hgain := hmoved.gain_bounds
    have hcells' : ∀ k j, IsCell (setRow board i row k j) := by
      intro k j
      by_cases hk : k = i
      · rw [hk, setRow_self]
        exact hmoved.cells j
      · rw [setRow_of_ne hk]
        exact hcells k j
    obtain ⟨board', gain, rowsChanged, hrest, hrows⟩ :=
      moveRows_moved hmove rows hnodup (setRow board i row) (score + rowGain)
        (changed || rowChanged) hcells' (by omega)
        (by rw [map_setRow hi (rowTotal Int.toNat)]; omega)
    refine ⟨board', rowGain + gain, rowChanged || rowsChanged, ?_, hrows.cons hi hmoved⟩
    rw [moveRows, hrow, ← Int.add_assoc, ← Bool.or_assoc]
    exact hrest

theorem moveRows_boardMoved {moveRow : Row → Int → Option (Row × Int × Bool)}
    (hmove : MovesRow moveRow) {board : Board} {score : Int} (hcells : ∀ i j, IsCell (board i j))
    (hscore : 0 ≤ score) (hlt : score + total Int.toNat board < 2 ^ 31) :
    ∃ board' gain changed,
      moveRows moveRow (List.finRange size) board score false =
        some (board', score + gain, changed) ∧ BoardMoved board board' gain changed := by
  rw [total, Fin.sum_univ_def] at hlt
  obtain ⟨board', gain, changed, hrun, h⟩ :=
    moveRows_moved hmove (List.finRange size) (List.nodup_finRange size) board score false hcells
      hscore hlt
  rw [Bool.false_or] at hrun
  refine ⟨board', gain, changed, hrun, fun i => h.moved i (List.mem_finRange i), h.gain_nonneg,
    ?_, h.kept, h.room⟩
  rw [total, total, Fin.sum_univ_def, Fin.sum_univ_def]
  exact h.scored

/-! ## Random tiles -/

/-- The loop finds an empty cell if there are more than `target` of them. -/
theorem placeTile_added (value : Int) (board : Board) : ∀ (cells : List (Fin size × Fin size))
    (target : Nat), target < (cells.filter fun cell => board cell.1 cell.2 = 0).length →
    ∃ i j, board i j = 0 ∧ placeTile value cells target board = (.added, setCell board i j value)
  | [], target, h => absurd h (Nat.not_lt_zero target)
  | (i, j) :: cells, target, h => by
    rw [placeTile]
    by_cases hzero : board i j = 0
    · rw [List.filter_cons_of_pos (by simpa using hzero), List.length_cons] at h
      rw [if_pos hzero]
      by_cases htarget : target = 0
      · exact ⟨i, j, hzero, by rw [if_pos htarget]⟩
      · rw [if_neg htarget]
        exact placeTile_added value board cells (target - 1) (by omega)
    · rw [List.filter_cons_of_neg (by simpa using hzero)] at h
      rw [if_neg hzero]
      exact placeTile_added value board cells target h

/-- The last `return` of `gameAddRandomTile` is not reached. -/
theorem gameAddRandomTile_ne_notReached (rands : Rands) (state : GameState) :
    (gameAddRandomTile rands state).1 ≠ .notReached := by
  rw [gameAddRandomTile]
  dsimp only
  split
  · exact nofun
  · next hempty =>
    obtain ⟨i, j, _, hplace⟩ := placeTile_added rands.value state.board cells
      (rands.cell % (cells.filter fun cell => state.board cell.1 cell.2 = 0).length)
      (Nat.mod_lt _ (Nat.pos_of_ne_zero hempty))
    rw [hplace]
    exact nofun

theorem mem_cells (i j : Fin size) : (i, j) ∈ cells :=
  List.mem_flatMap.mpr ⟨i, List.mem_finRange i, List.mem_map_of_mem (List.mem_finRange j)⟩

/-- Where there is an empty cell, a tile is added. -/
theorem gameAddRandomTile_added (rands : Rands) (state : GameState)
    (hroom : ∃ i j, state.board i j = 0) : ∃ i j, state.board i j = 0 ∧
    gameAddRandomTile rands state =
      (.added, { state with board := setCell state.board i j rands.value }) := by
  obtain ⟨i, j, hzero⟩ := hroom
  have hmem : (i, j) ∈ cells.filter fun cell => state.board cell.1 cell.2 = 0 :=
    List.mem_filter.mpr ⟨mem_cells i j, decide_eq_true hzero⟩
  have hpos := List.length_pos_of_mem hmem
  obtain ⟨i, j, hzero, hplace⟩ := placeTile_added rands.value state.board cells _
    (Nat.mod_lt rands.cell hpos)
  refine ⟨i, j, hzero, ?_⟩
  rw [gameAddRandomTile]
  dsimp only
  rw [if_neg (Nat.ne_of_gt hpos), hplace]

theorem sum_change {n : Nat} (f f' : Fin n → Nat) (i : Fin n) (h : ∀ k, k ≠ i → f' k = f k) :
    ∑ k, f' k + f i = ∑ k, f k + f' i := by
  have hrest : ∑ k ∈ Finset.univ.erase i, f' k = ∑ k ∈ Finset.univ.erase i, f k :=
    Finset.sum_congr rfl fun k hk => h k (Finset.ne_of_mem_erase hk)
  have hf := Finset.add_sum_erase Finset.univ f (Finset.mem_univ i)
  have hf' := Finset.add_sum_erase Finset.univ f' (Finset.mem_univ i)
  omega

/-- A measure counts the tile put into an empty cell. -/
theorem total_setCell {g : Int → Nat} (hg : g 0 = 0) {board : Board} {i j : Fin size}
    (hzero : board i j = 0) (value : Int) :
    total g (setCell board i j value) = total g board + g value := by
  have hrow : rowTotal g (setCell board i j value i) + g (board i j) =
      rowTotal g (board i) + g value := by
    have hchange := sum_change (fun l => g (board i l))
      (fun l => g (setCell board i j value i l)) j fun l hl => congrArg g (if_neg fun h => hl h.2)
    rwa [show setCell board i j value i j = value from if_pos ⟨rfl, rfl⟩] at hchange
  have htotal := sum_change (fun k => rowTotal g (board k))
    (fun k => rowTotal g (setCell board i j value k)) i fun k hk =>
      congrArg (rowTotal g) (funext fun l => if_neg fun h => hk h.1)
  rw [hzero, hg] at hrow
  rw [total, total]
  omega

theorem Rands.isTile_value (rands : Rands) : IsTile rands.value := by
  unfold Rands.value
  split
  · exact ⟨1, by omega, rfl⟩
  · exact ⟨2, by omega, rfl⟩

/-! ## The invariant -/

/-- The invariant of all games. -/
structure Bounded (state : GameState) : Prop where
  cells : ∀ i j, IsCell (state.board i j)
  count : ∀ m, 2 ≤ m → m ≤ 18 → total (atLeast (2 ^ m)) state.board ≤ 18 - m
  score_nonneg : 0 ≤ state.score
  score_le : state.score ≤ total potential state.board
  two_tiles : 2 ≤ total nonzero state.board

theorem total_le {g : Int → Nat} (hg : ∀ v, g v ≤ 1) (board : Board) : total g board ≤ 16 := by
  have hrow : ∀ i, rowTotal g (board i) ≤ 4 := fun i =>
    Nat.le_trans (Finset.sum_le_card_nsmul _ _ 1 fun j _ => hg (board i j)) (by simp)
  exact Finset.sum_le_card_nsmul _ _ 4 fun i _ => hrow i

theorem atLeast_le (t v : Int) : atLeast t v ≤ 1 := by
  unfold atLeast
  split <;> omega

/-- No tile is larger than `2 ^ 17`. -/
theorem cell_cases {board : Board} (hcells : ∀ i j, IsCell (board i j))
    (hcount : total (atLeast (2 ^ 18)) board = 0) (i j : Fin size) :
    board i j = 0 ∨ ∃ n, 1 ≤ n ∧ n ≤ 17 ∧ board i j = 2 ^ n := by
  refine (hcells i j).imp_right fun ⟨n, hn, hv⟩ => ⟨n, hn, ?_, hv⟩
  have hrow := Finset.sum_eq_zero_iff.mp hcount i (Finset.mem_univ i)
  have hcell := Finset.sum_eq_zero_iff.mp hrow j (Finset.mem_univ j)
  by_contra hlarge
  have hpow : (2 : Int) ^ 18 ≤ 2 ^ n := pow_le_pow_right₀ (by decide) (by omega)
  rw [atLeast, if_pos (hv ▸ hpow)] at hcell
  exact absurd hcell Nat.one_ne_zero

/-- The potential of a cell by the powers of two up to it. -/
theorem potential_eq_sum {v : Int} (h : v = 0 ∨ ∃ n, 1 ≤ n ∧ n ≤ 17 ∧ v = 2 ^ n) :
    potential v = ∑ m ∈ Finset.Icc 2 17, atLeast (2 ^ m) v * (m * 2 ^ (m - 1)) := by
  rcases h with rfl | ⟨n, _, hn, rfl⟩
  · refine (Finset.sum_eq_zero fun m _ => ?_).symm
    rw [atLeast_zero, Nat.zero_mul]
  · have hlevel : ∀ m, atLeast (2 ^ m) (2 ^ n) = if m ≤ n then 1 else 0 := fun m => by
      have hiff : (2 : Int) ^ m ≤ 2 ^ n ↔ m ≤ n := pow_le_pow_iff_right₀ (by decide)
      simp only [atLeast, hiff]
    have hsum : ∀ n ≤ 17, (n - 1) * 2 ^ n =
        ∑ m ∈ Finset.Icc 2 17, (if m ≤ n then 1 else 0) * (m * 2 ^ (m - 1)) := by decide +kernel
    rw [potential_two_pow, hsum n hn]
    exact Finset.sum_congr rfl fun m _ => by rw [hlevel]

theorem total_sum (g : Nat → Int → Nat) (levels : Finset Nat) (board : Board) :
    total (fun v => ∑ m ∈ levels, g m v) board = ∑ m ∈ levels, total (g m) board :=
  calc ∑ i, ∑ j, ∑ m ∈ levels, g m (board i j)
      = ∑ i, ∑ m ∈ levels, ∑ j, g m (board i j) :=
        Finset.sum_congr rfl fun _ _ => Finset.sum_comm
    _ = ∑ m ∈ levels, ∑ i, ∑ j, g m (board i j) := Finset.sum_comm

theorem total_mul (g : Int → Nat) (c : Nat) (board : Board) :
    total (fun v => g v * c) board = total g board * c := by
  simp only [total, rowTotal, Finset.sum_mul]

/-- The potential of all tiles is below `2 ^ 22`. -/
theorem total_potential_lt {board : Board}
    (hcells : ∀ i j, board i j = 0 ∨ ∃ n, 1 ≤ n ∧ n ≤ 17 ∧ board i j = 2 ^ n)
    (hcount : ∀ m, 2 ≤ m → m ≤ 18 → total (atLeast (2 ^ m)) board ≤ 18 - m) :
    total potential board < 2 ^ 22 :=
  calc total potential board
      = total (fun v => ∑ m ∈ Finset.Icc 2 17, atLeast (2 ^ m) v * (m * 2 ^ (m - 1))) board :=
        Finset.sum_congr rfl fun i _ => Finset.sum_congr rfl fun j _ =>
          potential_eq_sum (hcells i j)
    _ = ∑ m ∈ Finset.Icc 2 17, total (atLeast (2 ^ m)) board * (m * 2 ^ (m - 1)) := by
        rw [total_sum]
        exact Finset.sum_congr rfl fun m _ => total_mul _ _ _
    _ ≤ ∑ m ∈ Finset.Icc 2 17, (18 - m) * (m * 2 ^ (m - 1)) := by
        refine Finset.sum_le_sum fun m hm => Nat.mul_le_mul_right _ ?_
        obtain ⟨h2, h17⟩ := Finset.mem_Icc.mp hm
        exact hcount m h2 (Nat.le_succ_of_le h17)
    _ < 2 ^ 22 := by decide +kernel

/-- The values of all tiles add up to at most `2 ^ 21`. -/
theorem total_toNat_le {board : Board}
    (hcells : ∀ i j, board i j = 0 ∨ ∃ n, 1 ≤ n ∧ n ≤ 17 ∧ board i j = 2 ^ n) :
    total Int.toNat board ≤ 2 ^ 21 := by
  have hcell : ∀ i j, (board i j).toNat ≤ 2 ^ 17 := by
    intro i j
    rcases hcells i j with h | ⟨n, _, hn, h⟩
    · rw [h]
      exact Nat.zero_le _
    · rw [h, toNat_two_pow]
      exact Nat.pow_le_pow_right (by decide) hn
  have hrow : ∀ i, rowTotal Int.toNat (board i) ≤ 4 * 2 ^ 17 := fun i =>
    Finset.sum_le_card_nsmul _ _ (2 ^ 17) fun j _ => hcell i j
  exact Finset.sum_le_card_nsmul _ _ (4 * 2 ^ 17) fun i _ => hrow i

theorem atLeast_value {m : Nat} (h : 3 ≤ m) (rands : Rands) : atLeast (2 ^ m) rands.value = 0 := by
  have hpow : (2 : Int) ^ 3 ≤ 2 ^ m := pow_le_pow_right₀ (by decide) h
  unfold Rands.value atLeast
  rw [if_neg]
  split <;> omega

section Bounded

variable {state : GameState}

theorem Bounded.cell_cases (h : Bounded state) (i j : Fin size) :
    state.board i j = 0 ∨ ∃ n, 1 ≤ n ∧ n ≤ 17 ∧ state.board i j = 2 ^ n :=
  Game.cell_cases h.cells (Nat.le_zero.mp (h.count 18 (by decide) (by decide))) i j

theorem Bounded.score_lt (h : Bounded state) : state.score < 2 ^ 22 := by
  have hpotential := total_potential_lt h.cell_cases h.count
  have hscore := h.score_le
  omega

/-- A measure of the board does not depend on its orientation. -/
theorem total_transpose (g : Int → Nat) (state : GameState) :
    total g (transpose state).board = total g state.board := Finset.sum_comm

theorem Bounded.transpose (h : Bounded state) : Bounded (transpose state) where
  cells i j := h.cells j i
  count m h2 h18 := by
    rw [total_transpose]
    exact h.count m h2 h18
  score_nonneg := h.score_nonneg
  score_le := by
    rw [total_transpose]
    exact h.score_le
  two_tiles := by
    rw [total_transpose]
    exact h.two_tiles

/-- What a move leaves before the new tile. -/
structure Moved (board : Board) (score : Int) : Prop where
  cells : ∀ i j, IsCell (board i j)
  count : ∀ m, 3 ≤ m → m ≤ 18 → total (atLeast (2 ^ m)) board ≤ 18 - m
  score_nonneg : 0 ≤ score
  score_le : score ≤ total potential board
  one_tile : 1 ≤ total nonzero board

theorem Bounded.moved (h : Bounded state) {board' : Board} {gain : Int} {changed : Bool}
    (hmoved : BoardMoved state.board board' gain changed) :
    Moved board' (state.score + gain) where
  cells i := by
    obtain ⟨_, _, hrow⟩ := hmoved.rows i
    exact hrow.cells
  count m h3 h18 := by
    obtain ⟨m, rfl⟩ := Nat.exists_eq_add_of_le' (Nat.le_trans (by decide : 1 ≤ 3) h3)
    have hsum : 2 * total (atLeast (2 ^ (m + 1))) board' ≤
        total (atLeast (2 ^ (m + 1))) state.board + total (atLeast (2 ^ m)) state.board := by
      rw [total, total, total, Finset.mul_sum, ← Finset.sum_add_distrib]
      refine Finset.sum_le_sum fun i _ => ?_
      obtain ⟨_, _, hrow⟩ := hmoved.rows i
      exact hrow.count m
    have hlarge := h.count (m + 1) (by omega) h18
    have hhalf := h.count m (by omega) (by omega)
    omega
  score_nonneg := Int.add_nonneg h.score_nonneg hmoved.gain_nonneg
  score_le := by
    have hscore := h.score_le
    have hscored := hmoved.scored
    omega
  one_tile := by
    have hsum : total nonzero state.board ≤ 2 * total nonzero board' := by
      rw [total, total, Finset.mul_sum]
      refine Finset.sum_le_sum fun i _ => ?_
      obtain ⟨_, _, hrow⟩ := hmoved.rows i
      exact hrow.half
    have htwo := h.two_tiles
    omega

/-- A new tile completes the invariant. -/
theorem Moved.add {board : Board} {score : Int} (h : Moved board score) {i j : Fin size}
    (hzero : board i j = 0) (rands : Rands) (gameOver win : Bool) :
    Bounded ⟨setCell board i j rands.value, score, gameOver, win⟩ where
  cells k l := by
    show IsCell (if k = i ∧ l = j then rands.value else board k l)
    split
    · exact .inr rands.isTile_value
    · exact h.cells k l
  count m h2 h18 := by
    rcases Nat.eq_or_lt_of_le h2 with rfl | h3
    · exact total_le (atLeast_le _) _
    · rw [total_setCell (atLeast_zero m) hzero, atLeast_value h3]
      exact h.count m h3 h18
  score_nonneg := h.score_nonneg
  score_le := by
    rw [total_setCell rfl hzero]
    have hscore := h.score_le
    show score ≤ _
    omega
  two_tiles := by
    have hone := h.one_tile
    have hpos := rands.isTile_value.pos
    rw [total_setCell rfl hzero, nonzero, if_neg (by omega)]
    omega

/-- A move of the rows does not overflow and keeps the invariant. -/
theorem Bounded.gameMove (h : Bounded state)
    {moveRow : Row → Int → Option (Row × Int × Bool)} (hmove : MovesRow moveRow)
    (rands : Rands) :
    ∃ changed state', gameMove moveRow rands state = some (changed, state') ∧ Bounded state' := by
  have hlt := h.score_lt
  have hvalue := total_toNat_le h.cell_cases
  obtain ⟨board', gain, changed, hrun, hmoved⟩ :=
    moveRows_boardMoved hmove h.cells h.score_nonneg (by omega)
  rw [Game.gameMove, hrun]
  cases changed with
  | false =>
    obtain ⟨hboard, hgain⟩ := hmoved.kept rfl
    refine ⟨false, _, rfl, ?_⟩
    rw [hboard, hgain, Int.add_zero]
    exact ⟨h.cells, h.count, h.score_nonneg, h.score_le, h.two_tiles⟩
  | true =>
    obtain ⟨i, j, hzero, hadd⟩ := gameAddRandomTile_added rands
      { state with board := board', score := state.score + gain } (hmoved.room rfl)
    refine ⟨true, _, rfl, ?_⟩
    rw [hadd]
    exact (h.moved hmoved).add hzero rands _ _

theorem Bounded.move (h : Bounded state) (direction : Direction) (rands : Rands) :
    ∃ changed state', direction.move rands state = some (changed, state') ∧ Bounded state' := by
  cases direction with
  | left => exact h.gameMove moveRowLeft_movesRow rands
  | right => exact h.gameMove moveRowRight_movesRow rands
  | up =>
    obtain ⟨changed, state', hmove, hbounded⟩ :=
      h.transpose.gameMove moveRowLeft_movesRow rands
    refine ⟨changed, Game.transpose state', ?_, hbounded.transpose⟩
    rw [Direction.move, gameMoveUp, gameMoveLeft, hmove]
    rfl
  | down =>
    obtain ⟨changed, state', hmove, hbounded⟩ :=
      h.transpose.gameMove moveRowRight_movesRow rands
    refine ⟨changed, Game.transpose state', ?_, hbounded.transpose⟩
    rw [Direction.move, gameMoveDown, gameMoveRight, hmove]
    rfl

end Bounded

theorem total_zero {g : Int → Nat} (hg : g 0 = 0) : total g (fun _ _ => 0) = 0 :=
  Finset.sum_eq_zero fun _ _ => Finset.sum_eq_zero fun _ _ => hg

/-- The two first tiles. -/
theorem bounded_gameInit (first second : Rands) : Bounded (gameInit first second) := by
  obtain ⟨i, j, hzero, hfirst⟩ := gameAddRandomTile_added first
    ⟨fun _ _ => 0, 0, false, false⟩ ⟨0, 0, rfl⟩
  have hone : Moved (setCell (fun _ _ => 0) i j first.value) 0 := by
    refine ⟨fun k l => ?_, fun m h3 _ => ?_, Int.le_refl 0, Int.natCast_nonneg _, ?_⟩
    · rw [setCell]
      split
      · exact .inr first.isTile_value
      · exact .inl rfl
    · rw [total_setCell (atLeast_zero m) rfl, total_zero (atLeast_zero m), atLeast_value h3]
      exact Nat.zero_le _
    · have hpos := first.isTile_value.pos
      rw [total_setCell rfl rfl, total_zero rfl, nonzero, if_neg (by omega)]
  have hroom : ∃ k l, setCell (fun _ _ => 0) i j first.value k l = 0 := by
    by_cases hi : i = 0
    · exact ⟨1, j, if_neg fun h => absurd (h.1.trans hi) (by decide)⟩
    · exact ⟨0, j, if_neg fun h => hi h.1.symm⟩
  obtain ⟨k, l, hzero', hsecond⟩ := gameAddRandomTile_added second
    ⟨setCell (fun _ _ => 0) i j first.value, 0, false, false⟩ hroom
  rw [gameInit, hfirst, hsecond]
  exact hone.add hzero' second false false

theorem Reachable.bounded {state : GameState} (h : Reachable state) : Bounded state := by
  induction h with
  | init first second => exact bounded_gameInit first second
  | move direction rands _ hmove ih =>
    obtain ⟨changed, state', hmove', hbounded⟩ := ih.move direction rands
    rw [hmove'] at hmove
    cases hmove
    exact hbounded

/-- The number of tiles as the loops count them. -/
theorem length_filter_cells (board : Board) :
    (cells.filter fun cell => board cell.1 cell.2 ≠ 0).length = total nonzero board := by
  have hcount : ∀ l : List Int, l.countP (fun v => decide (v ≠ 0)) = (l.map nonzero).sum := by
    intro l
    induction l with
    | nil => rfl
    | cons v l ih =>
      rw [List.countP_cons, ih, List.map_cons, List.sum_cons, Nat.add_comm, nonzero]
      by_cases hv : v = 0
      · simp [hv]
      · simp [hv]
  have hrow : ∀ i, ((List.finRange size).map fun j => (i, j)).countP
      (fun cell => decide (board cell.1 cell.2 ≠ 0)) = rowTotal nonzero (board i) := by
    intro i
    rw [rowTotal, Fin.sum_univ_def, List.countP_map,
      show (fun j => nonzero (board i j)) = nonzero ∘ board i from rfl, ← List.map_map, ← hcount,
      List.countP_map]
    rfl
  rw [← List.countP_eq_length_filter, cells, List.countP_flatMap, total, Fin.sum_univ_def]
  exact congrArg List.sum (List.map_congr_left fun i _ => hrow i)

/-- In every state of every game each cell is 0 or a power of two from 2 to `2 ^ 17`, the
score is below `2 ^ 22`, and there are two tiles. No move from it overflows, and a random
tile never takes the last `return`. -/
theorem reachable_bounds (state : GameState) (h : Reachable state) :
    (∀ i j, state.board i j = 0 ∨ ∃ n, 1 ≤ n ∧ n ≤ 17 ∧ state.board i j = 2 ^ n) ∧
    (0 ≤ state.score ∧ state.score < 2 ^ 22) ∧
    2 ≤ (cells.filter fun cell => state.board cell.1 cell.2 ≠ 0).length ∧
    (∀ (direction : Direction) (rands : Rands), (direction.move rands state).isSome) ∧
    ∀ (rands : Rands) (between : GameState), (gameAddRandomTile rands between).1 ≠ .notReached := by
  have hbounded := h.bounded
  refine ⟨hbounded.cell_cases, ⟨hbounded.score_nonneg, hbounded.score_lt⟩, ?_, fun direction rands
    => ?_, gameAddRandomTile_ne_notReached⟩
  · rw [length_filter_cells]
    exact hbounded.two_tiles
  · obtain ⟨changed, state', hmove, _⟩ := hbounded.move direction rands
    rw [hmove]
    rfl

/-- A game of 15 moves with a full board at its end. -/
theorem reachable_bounds_short : ∃ state,
    playMoves shortGame (gameInit ⟨11, 0⟩ ⟨3, 9⟩) = some (List.replicate 15 true, state) ∧
    (cells.map fun cell => state.board cell.1 cell.2) =
      [2, 8, 2, 4, 4, 2, 4, 2, 2, 4, 2, 4, 4, 2, 4, 2] ∧ state.score = 8 ∧
    (∀ i j, state.board i j = 0 ∨ ∃ n, 1 ≤ n ∧ n ≤ 17 ∧ state.board i j = 2 ^ n) ∧
    (0 ≤ state.score ∧ state.score < 2 ^ 22) ∧
    2 ≤ (cells.filter fun cell => state.board cell.1 cell.2 ≠ 0).length ∧
    ∀ (direction : Direction) (rands : Rands), (direction.move rands state).isSome := by
  obtain ⟨state, hrun, hboard, hscore, -⟩ := shortGame_over
  obtain ⟨hcells, hbounds, htiles, hmoves, -⟩ :=
    reachable_bounds state ((Reachable.init _ _).playMoves hrun)
  exact ⟨state, hrun, hboard, hscore, hcells, hbounds, htiles, hmoves⟩

end CourseWork.Game
