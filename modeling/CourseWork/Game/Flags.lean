import CourseWork.Game.Bounds
import Mathlib.Data.List.ChainOfFn
import Mathlib.Data.List.GetD

/-!
# The flags of 2048

`gameOver` and `win` are computed after a move that changed the board, and a move up or
down computes them on the transposed board. They are exact nevertheless: a row does not
move to the left if no tile stands behind an empty cell or behind a tile of its own value,
and a board with a tile that moves in none of the four directions is full and has no
equal neighbours, which is what `gameCanMove` looks for.
-/

namespace CourseWork.Game

/-! ## Rows that do not move -/

/-- The tile `b` stays where it is, with `a` on its left. -/
def Blocked (a b : Int) : Prop := b ≠ 0 → a ≠ 0 ∧ a ≠ b

/-- No tile of the row moves to the left. -/
def StuckLeft (row : Row) : Prop := ∀ j : Fin (size - 1), Blocked (row j.castSucc) (row j.succ)

/-- No tile of the row moves to the right. -/
def StuckRight (row : Row) : Prop := StuckLeft (reverseRow row)

/-- The loop merges nothing exactly if no two neighbours are equal, and then it leaves
everything as it is. -/
theorem mergeTiles_unchanged : ∀ (temp : List Int) (score : Int) (changed : Bool)
    {temp' : List Int} {score' : Int} {changed' : Bool},
    mergeTiles score changed temp = some (temp', score', changed') →
    (changed' = false ↔ changed = false ∧ temp.IsChain (· ≠ ·)) ∧
    (changed' = false → temp' = temp ∧ score' = score)
  | [], score, changed, _, _, _, h => by
    cases h
    exact ⟨⟨fun h => ⟨h, .nil⟩, fun h => h.1⟩, fun _ => ⟨rfl, rfl⟩⟩
  | [a], score, changed, _, _, _, h => by
    cases h
    exact ⟨⟨fun h => ⟨h, .singleton a⟩, fun h => h.1⟩, fun _ => ⟨rfl, rfl⟩⟩
  | a :: b :: temp, score, changed, temp', score', changed', h => by
    rw [mergeTiles] at h
    by_cases hab : a = b
    · rw [if_pos hab] at h
      obtain ⟨doubled, _, h⟩ := Option.bind_eq_some_iff.mp h
      obtain ⟨total, _, h⟩ := Option.bind_eq_some_iff.mp h
      obtain ⟨⟨rest, restScore, restChanged⟩, hrest, h⟩ := Option.bind_eq_some_iff.mp h
      cases h
      have hchanged := (mergeTiles_unchanged temp total true hrest).1
      have htrue : changed' ≠ false := fun hfalse => absurd (hchanged.mp hfalse).1 (by decide)
      exact ⟨⟨fun hfalse => absurd hfalse htrue,
        fun hchain => absurd hab (List.isChain_cons_cons.mp hchain.2).1⟩,
        fun hfalse => absurd hfalse htrue⟩
    · rw [if_neg hab] at h
      obtain ⟨⟨rest, restScore, restChanged⟩, hrest, h⟩ := Option.bind_eq_some_iff.mp h
      cases h
      obtain ⟨hchanged, hkept⟩ := mergeTiles_unchanged (b :: temp) score changed hrest
      refine ⟨hchanged.trans (and_congr_right fun _ => ?_), fun hfalse => ?_⟩
      · exact ⟨fun hchain => hchain.cons_cons hab, fun hchain => (List.isChain_cons_cons.mp hchain).2⟩
      · obtain ⟨rfl, hscore⟩ := hkept hfalse
        exact ⟨rfl, hscore⟩

/-- Behind an empty cell only empty cells do not move. -/
theorem eq_zero_of_chain_zero {row : List Int} (h : (0 :: row).IsChain Blocked) :
    ∀ v ∈ row, v = 0 := by
  induction row with
  | nil => exact fun v hv => absurd hv List.not_mem_nil
  | cons b row ih =>
    obtain ⟨hblocked, hchain⟩ := List.isChain_cons_cons.mp h
    have hb : b = 0 := by
      by_contra hb
      exact (hblocked hb).1 rfl
    subst hb
    exact List.forall_mem_cons.mpr ⟨rfl, ih hchain⟩

/-- A list that does not move has its tiles in front, and no two of them are equal. -/
theorem chain_filter {row : List Int} (h : row.IsChain Blocked) :
    (row.filter (· ≠ 0)).IsChain (· ≠ ·) ∧
    ∀ i, (row.filter (· ≠ 0)).getD i 0 = row.getD i 0 := by
  induction row with
  | nil => exact ⟨.nil, fun i => rfl⟩
  | cons a row ih =>
    by_cases ha : a = 0
    · subst ha
      have hzero := eq_zero_of_chain_zero h
      have hfilter : (0 :: row).filter (· ≠ 0) = [] := by simpa using hzero
      rw [hfilter]
      refine ⟨.nil, fun i => ?_⟩
      rw [List.getD_eq_getElem?_getD, List.getD_eq_getElem?_getD]
      cases hget : (0 :: row)[i]? with
      | none => rfl
      | some v =>
        rcases List.mem_cons.mp (List.mem_of_getElem? hget) with rfl | hv
        · rfl
        · rw [hzero v hv]
          rfl
    · obtain ⟨hchain, hget⟩ := ih h.of_cons
      rw [List.filter_cons_of_pos (by simpa using ha)]
      refine ⟨List.isChain_cons.mpr ⟨fun b hb => ?_, hchain⟩, fun i => ?_⟩
      · -- The first tile of the rest is its first cell.
        cases row with
        | nil => exact absurd hb (by simp)
        | cons c row =>
          have hb0 := hget 0
          rw [List.getD_eq_getElem?_getD, ← List.head?_eq_getElem?, Option.mem_def.mp hb] at hb0
          have hmem := (List.mem_filter.mp (List.mem_of_mem_head? hb)).2
          have hbc : b = c := hb0
          subst hbc
          exact ((List.isChain_cons_cons.mp h).1 (of_decide_eq_true hmem)).2
      · cases i with
        | zero => rfl
        | succ i => exact hget i

theorem stuckLeft_iff_chain {row : Row} : StuckLeft row ↔ (List.ofFn row).IsChain Blocked := by
  rw [List.isChain_ofFn]
  exact ⟨fun h i hi => h ⟨i, Nat.lt_of_succ_lt_succ hi⟩, fun h j => h j (Nat.succ_lt_succ j.isLt)⟩

/-- A row does not move if the tiles are in front and no two of them are equal. -/
theorem stuckLeft_iff {row : Row} :
    StuckLeft row ↔ (tiles row).IsChain (· ≠ ·) ∧ padRow (tiles row) = row := by
  constructor
  · intro h
    obtain ⟨hchain, hget⟩ := chain_filter (stuckLeft_iff_chain.mp h)
    have hpad : padRow (tiles row) = padRow (List.ofFn row) := funext fun i => hget i
    exact ⟨hchain, hpad.trans (padRow_ofFn row)⟩
  · rintro ⟨hchain, hpad⟩ j hne
    have hcell : ∀ i, (tiles row).getD i.val 0 = row i := fun i => congrFun hpad i
    have hlt : j.val + 1 < (tiles row).length := by
      by_contra hle
      refine hne ?_
      rw [← hcell j.succ]
      exact List.getD_eq_default _ _ (Nat.not_lt.mp hle)
    have hleft : (tiles row).getD j.val 0 = row j.castSucc := hcell j.castSucc
    have hright : (tiles row).getD (j.val + 1) 0 = row j.succ := hcell j.succ
    rw [List.getD_eq_getElem _ _ (Nat.lt_of_succ_lt hlt)] at hleft
    rw [List.getD_eq_getElem _ _ hlt] at hright
    rw [← hleft, ← hright]
    have hmem : (tiles row)[j.val] ∈ tiles row := List.getElem_mem _
    exact ⟨of_decide_eq_true (List.mem_filter.mp hmem).2,
      List.isChain_iff_getElem.mp hchain j.val hlt⟩

/-! ## Moves that change nothing -/

/-- A move of a row tells the rows with `Stuck` from the others, and leaves them as they
are. -/
def Tells (moveRow : Row → Int → Option (Row × Int × Bool)) (Stuck : Row → Prop) : Prop :=
  ∀ {row : Row} {score : Int} {row' : Row} {score' : Int} {changed : Bool},
    moveRow row score = some (row', score', changed) →
    (changed = false ↔ Stuck row) ∧ (changed = false → row' = row ∧ score' = score)

theorem moveRowLeft_tells : Tells moveRowLeft StuckLeft := by
  intro row score row' score' changed h
  rw [moveRowLeft_eq, moveTiles] at h
  obtain ⟨⟨temp', gained, merged⟩, hmerge, h⟩ := Option.bind_eq_some_iff.mp h
  cases h
  obtain ⟨hmerged, hkept⟩ := mergeTiles_unchanged _ _ _ hmerge
  have hdiffers : ((List.finRange size).any fun i => row i ≠ padRow temp' i) = false ↔
      padRow temp' = row := by
    rw [List.any_eq_false]
    exact ⟨fun hall => funext fun i =>
      (by simpa using hall i (List.mem_finRange i) : row i = padRow temp' i).symm,
      fun heq i _ => by simp [heq]⟩
  rw [Bool.or_eq_false_iff, hdiffers, stuckLeft_iff, hmerged]
  refine ⟨?_, fun hfalse => ⟨hfalse.2, (hkept (hmerged.mpr hfalse.1)).2⟩⟩
  constructor
  · rintro ⟨hchain, hpad⟩
    obtain ⟨rfl, -⟩ := hkept (hmerged.mpr hchain)
    exact ⟨hchain.2, hpad⟩
  · rintro ⟨hchain, hpad⟩
    obtain ⟨rfl, -⟩ := hkept (hmerged.mpr ⟨rfl, hchain⟩)
    exact ⟨⟨rfl, hchain⟩, hpad⟩

theorem moveRowRight_tells : Tells moveRowRight StuckRight := by
  intro row score row' score' changed h
  obtain ⟨⟨moved, gained, merged⟩, hmove, h⟩ := Option.bind_eq_some_iff.mp h
  cases h
  obtain ⟨hstuck, hkept⟩ := moveRowLeft_tells hmove
  refine ⟨hstuck, fun hfalse => ?_⟩
  obtain ⟨rfl, hscore⟩ := hkept hfalse
  exact ⟨reverseRow_reverseRow row, hscore⟩

section Tells

variable {moveRow : Row → Int → Option (Row × Int × Bool)} {Stuck : Row → Prop}

theorem moveRows_tells (htells : Tells moveRow Stuck) : ∀ {rows : List (Fin size)},
    rows.Nodup → ∀ {board : Board} {score : Int} {changed : Bool} {board' : Board}
    {score' : Int} {changed' : Bool},
    moveRows moveRow rows board score changed = some (board', score', changed') →
    (changed' = false ↔ changed = false ∧ ∀ i ∈ rows, Stuck (board i)) ∧
    (changed' = false → board' = board ∧ score' = score)
  | [], _, board, score, changed, _, _, _, h => by
    cases h
    exact ⟨⟨fun h => ⟨h, fun i hi => absurd hi List.not_mem_nil⟩, fun h => h.1⟩,
      fun _ => ⟨rfl, rfl⟩⟩
  | i :: rows, hnodup, board, score, changed, board', score', changed', h => by
    obtain ⟨hi, hnodup⟩ := List.nodup_cons.mp hnodup
    obtain ⟨⟨row, rowScore, rowChanged⟩, hrow, h⟩ := Option.bind_eq_some_iff.mp h
    obtain ⟨hrowStuck, hrowKept⟩ := htells hrow
    obtain ⟨hrest, hkept⟩ := moveRows_tells htells hnodup h
    have hothers : (∀ k ∈ rows, Stuck (setRow board i row k)) ↔ ∀ k ∈ rows, Stuck (board k) :=
      forall₂_congr fun k hk => by rw [setRow_of_ne fun heq : k = i => hi (heq ▸ hk)]
    have hiff : changed' = false ↔
        changed = false ∧ Stuck (board i) ∧ ∀ k ∈ rows, Stuck (board k) := by
      rw [hrest, Bool.or_eq_false_iff, hrowStuck, and_assoc]
      exact and_congr_right fun _ => and_congr_right fun _ => hothers
    refine ⟨hiff.trans (and_congr_right fun _ => ?_), fun hfalse => ?_⟩
    · exact (List.forall_mem_cons (p := fun k => Stuck (board k))).symm
    · obtain ⟨rfl, rfl⟩ := hrowKept (hrowStuck.mpr (hiff.mp hfalse).2.1)
      obtain ⟨rfl, hscore⟩ := hkept hfalse
      refine ⟨funext fun k => ?_, hscore⟩
      by_cases hk : k = i
      · rw [if_pos hk, hk]
      · exact if_neg hk

/-- The flags are those of the board. -/
structure Flagged (state : GameState) : Prop where
  win : state.win = gameCheckWin state
  gameOver : state.gameOver = gameCheckGameOver state

/-- A move that changes nothing returns the state, the others compute the flags. -/
theorem gameMove_tells (htells : Tells moveRow Stuck) {rands : Rands} {state state' : GameState}
    {changed : Bool} (h : gameMove moveRow rands state = some (changed, state')) :
    (changed = false ↔ ∀ i, Stuck (state.board i)) ∧ (changed = false → state' = state) ∧
    (changed = true → Flagged state') := by
  obtain ⟨⟨board, score, differs⟩, hrows, h⟩ := Option.bind_eq_some_iff.mp h
  obtain ⟨hstuck, hkept⟩ := moveRows_tells htells (List.nodup_finRange size) hrows
  have hall : differs = false ↔ ∀ i, Stuck (state.board i) := by
    rw [hstuck]
    exact ⟨fun h i => h.2 i (List.mem_finRange i), fun h => ⟨rfl, fun i _ => h i⟩⟩
  cases differs with
  | false =>
    cases h
    obtain ⟨rfl, rfl⟩ := hkept rfl
    exact ⟨hall, fun _ => rfl, fun h => absurd h (by decide)⟩
  | true =>
    cases h
    exact ⟨hall, fun h => absurd h (by decide), fun _ => ⟨rfl, rfl⟩⟩

end Tells

/-! ## The four directions -/

/-- No tile of the board moves in the direction. -/
def Direction.Stuck : Direction → Board → Prop
  | .left, board => ∀ i, StuckLeft (board i)
  | .right, board => ∀ i, StuckRight (board i)
  | .up, board => ∀ j, StuckLeft fun i => board i j
  | .down, board => ∀ j, StuckRight fun i => board i j

theorem gameCheckWin_iff {state : GameState} :
    gameCheckWin state = true ↔ ∃ i j, state.board i j = target := by
  rw [gameCheckWin, List.any_eq_true]
  constructor
  · rintro ⟨⟨i, j⟩, _, h⟩
    exact ⟨i, j, of_decide_eq_true h⟩
  · rintro ⟨i, j, h⟩
    exact ⟨(i, j), mem_cells i j, decide_eq_true h⟩

theorem gameCanMove_iff {state : GameState} :
    gameCanMove state = true ↔ (∃ i j, state.board i j = 0) ∨
      (∃ i, ∃ j : Fin (size - 1), state.board i j.castSucc = state.board i j.succ) ∨
      ∃ j, ∃ i : Fin (size - 1), state.board i.castSucc j = state.board i.succ j := by
  rw [gameCanMove, Bool.or_eq_true, Bool.or_eq_true, or_assoc]
  simp only [List.any_eq_true, List.mem_finRange, true_and, decide_eq_true_eq]
  refine or_congr_left ?_
  constructor
  · rintro ⟨⟨i, j⟩, _, h⟩
    exact ⟨i, j, h⟩
  · rintro ⟨i, j, h⟩
    exact ⟨(i, j), mem_cells i j, h⟩

/-- The flags do not depend on the orientation of the board. -/
theorem Flagged.transpose {state : GameState} (h : Flagged state) : Flagged (transpose state) where
  win := by
    refine h.win.trans (Bool.eq_iff_iff.mpr ?_)
    rw [gameCheckWin_iff, gameCheckWin_iff]
    exact exists_comm
  gameOver := by
    refine h.gameOver.trans (congrArg (fun b => !b) (Bool.eq_iff_iff.mpr ?_))
    rw [gameCanMove_iff, gameCanMove_iff]
    exact or_congr exists_comm Or.comm

theorem Direction.move_tells {direction : Direction} {rands : Rands} {state state' : GameState}
    {changed : Bool} (h : direction.move rands state = some (changed, state')) :
    (changed = false ↔ direction.Stuck state.board) ∧ (changed = false → state' = state) ∧
    (changed = true → Flagged state') := by
  cases direction with
  | left => exact gameMove_tells moveRowLeft_tells h
  | right => exact gameMove_tells moveRowRight_tells h
  | up =>
    obtain ⟨⟨moved, between⟩, hmove, h⟩ := Option.bind_eq_some_iff.mp h
    cases h
    obtain ⟨hstuck, hkept, hflagged⟩ := gameMove_tells moveRowLeft_tells hmove
    exact ⟨hstuck, fun hfalse => congrArg Game.transpose (hkept hfalse),
      fun htrue => (hflagged htrue).transpose⟩
  | down =>
    obtain ⟨⟨moved, between⟩, hmove, h⟩ := Option.bind_eq_some_iff.mp h
    cases h
    obtain ⟨hstuck, hkept, hflagged⟩ := gameMove_tells moveRowRight_tells hmove
    exact ⟨hstuck, fun hfalse => congrArg Game.transpose (hkept hfalse),
      fun htrue => (hflagged htrue).transpose⟩

/-! ## Boards on which nothing moves -/

/-- What holds at a cell exactly if it holds at the next one holds everywhere or nowhere. -/
theorem forall_of_neighbours {n : Nat} {P : Fin (n + 1) → Prop}
    (h : ∀ j : Fin n, P j.castSucc ↔ P j.succ) (i j : Fin (n + 1)) (hi : P i) : P j := by
  have hfirst : ∀ k, P k ↔ P 0 := fun k => by
    induction k using Fin.induction with
    | zero => exact Iff.rfl
    | succ k ih => exact (h k).symm.trans ih
  exact (hfirst j).mpr ((hfirst i).mp hi)

/-- Neighbours in a row that moves neither to the left nor to the right. -/
theorem stuck_both_iff {row : Row} : StuckLeft row ∧ StuckRight row ↔
    ∀ j : Fin (size - 1), Blocked (row j.castSucc) (row j.succ) ∧
      Blocked (row j.succ) (row j.castSucc) := by
  have hrev : StuckRight row ↔ ∀ j : Fin (size - 1), Blocked (row j.succ) (row j.castSucc) := by
    constructor
    · intro h j
      have hj : Blocked (row j.rev.castSucc.rev) (row j.rev.succ.rev) := h j.rev
      rwa [Fin.rev_castSucc, Fin.rev_succ, Fin.rev_rev] at hj
    · intro h j
      show Blocked (row j.castSucc.rev) (row j.succ.rev)
      rw [Fin.rev_castSucc, Fin.rev_succ]
      exact h j.rev
  rw [hrev]
  exact forall_and.symm

/-- In a row that does not move, all cells are empty or none is. -/
theorem ne_zero_of_stuck {row : Row} (h : StuckLeft row ∧ StuckRight row) (i j : Fin size)
    (hi : row i ≠ 0) : row j ≠ 0 :=
  forall_of_neighbours (P := fun k => row k ≠ 0) (fun k =>
    have hk := stuck_both_iff.mp h k
    ⟨fun hne => (hk.2 hne).1, fun hne => (hk.1 hne).1⟩) i j hi

/-- The row is full and no two neighbours are equal. -/
theorem stuck_of_full {row : Row} (hfull : ∀ j, row j ≠ 0)
    (hne : ∀ j : Fin (size - 1), row j.castSucc ≠ row j.succ) : StuckLeft row ∧ StuckRight row :=
  stuck_both_iff.mpr fun j =>
    ⟨fun _ => ⟨hfull j.castSucc, hne j⟩, fun _ => ⟨hfull j.succ, (hne j).symm⟩⟩

/-- A board with a tile moves in no direction exactly if `gameCanMove` says so. -/
theorem stuck_iff_gameCanMove {state : GameState} (htile : ∃ i j, state.board i j ≠ 0) :
    (∀ direction : Direction, direction.Stuck state.board) ↔ gameCanMove state = false := by
  rw [Bool.eq_false_iff, Ne, gameCanMove_iff]
  constructor
  · intro hstuck
    have hrow : ∀ i, StuckLeft (state.board i) ∧ StuckRight (state.board i) :=
      fun i => ⟨hstuck .left i, hstuck .right i⟩
    have hcol : ∀ j, (StuckLeft fun i => state.board i j) ∧ StuckRight fun i => state.board i j :=
      fun j => ⟨hstuck .up j, hstuck .down j⟩
    -- The tile spreads over its row and from there over all columns.
    obtain ⟨i, j, hne⟩ := htile
    have hfull : ∀ k l, state.board k l ≠ 0 := fun k l =>
      ne_zero_of_stuck (hcol l) i k (ne_zero_of_stuck (hrow i) j l hne)
    rintro (⟨k, l, hzero⟩ | ⟨k, l, heq⟩ | ⟨l, k, heq⟩)
    · exact hfull k l hzero
    · exact (hstuck .left k l (hfull k l.succ)).2 heq
    · exact (hstuck .up l k (hfull k.succ l)).2 heq
  · intro hcan
    obtain ⟨hfull, hsame⟩ := not_or.mp hcan
    obtain ⟨hrow, hcol⟩ := not_or.mp hsame
    have hne : ∀ k l, state.board k l ≠ 0 := fun k l hzero => hfull ⟨k, l, hzero⟩
    have hrows : ∀ i, StuckLeft (state.board i) ∧ StuckRight (state.board i) := fun i =>
      stuck_of_full (hne i) fun j heq => hrow ⟨i, j, heq⟩
    have hcols : ∀ j, (StuckLeft fun i => state.board i j) ∧
        StuckRight fun i => state.board i j := fun j =>
      stuck_of_full (fun i => hne i j) fun i heq => hcol ⟨j, i, heq⟩
    intro direction
    cases direction with
    | left => exact fun i => (hrows i).1
    | right => exact fun i => (hrows i).2
    | up => exact fun j => (hcols j).1
    | down => exact fun j => (hcols j).2

/-! ## Moves that change the board -/

theorem total_congr_rows {g : Int → Nat} {board board' : Board}
    (h : ∀ i, rowTotal g (board' i) = rowTotal g (board i)) : total g board' = total g board :=
  Finset.sum_congr rfl fun i _ => h i

/-- After a change the values of the tiles add up to more. -/
theorem gameMove_grows {state state' : GameState} (hbounded : Bounded state)
    {moveRow : Row → Int → Option (Row × Int × Bool)} (hmove : MovesRow moveRow) {rands : Rands}
    (h : gameMove moveRow rands state = some (true, state')) :
    total Int.toNat state.board < total Int.toNat state'.board := by
  have hlt := hbounded.score_lt
  have hvalue := total_toNat_le hbounded.cell_cases
  obtain ⟨board', gain, changed, hrun, hmoved⟩ :=
    moveRows_boardMoved hmove hbounded.cells hbounded.score_nonneg (by omega)
  rw [gameMove, hrun] at h
  cases changed with
  | false => cases h
  | true =>
    obtain ⟨i, j, hzero, hadd⟩ := gameAddRandomTile_added rands
      { state with board := board', score := state.score + gain } (hmoved.room rfl)
    have hsame : total Int.toNat board' = total Int.toNat state.board :=
      total_congr_rows fun k => by
        obtain ⟨_, _, hrow⟩ := hmoved.rows k
        exact hrow.value
    have hboard : state'.board = setCell board' i j rands.value := by
      simp only [Option.bind_eq_bind, Option.bind_some, hadd] at h
      cases h
      rfl
    have hpos := rands.isTile_value.pos
    rw [hboard, total_setCell rfl hzero, hsame]
    omega

theorem Direction.move_grows {direction : Direction} {rands : Rands} {state state' : GameState}
    (hbounded : Bounded state) (h : direction.move rands state = some (true, state')) :
    total Int.toNat state.board < total Int.toNat state'.board := by
  cases direction with
  | left => exact gameMove_grows hbounded moveRowLeft_movesRow h
  | right => exact gameMove_grows hbounded moveRowRight_movesRow h
  | up =>
    obtain ⟨⟨moved, between⟩, hmove, h⟩ := Option.bind_eq_some_iff.mp h
    cases h
    have hgrows := gameMove_grows hbounded.transpose moveRowLeft_movesRow hmove
    rwa [total_transpose, ← total_transpose Int.toNat between] at hgrows
  | down =>
    obtain ⟨⟨moved, between⟩, hmove, h⟩ := Option.bind_eq_some_iff.mp h
    cases h
    have hgrows := gameMove_grows hbounded.transpose moveRowRight_movesRow hmove
    rwa [total_transpose, ← total_transpose Int.toNat between] at hgrows

/-! ## The states of all games -/

theorem Rands.value_cases (rands : Rands) : rands.value = 2 ∨ rands.value = 4 := by
  unfold Rands.value
  split
  · exact .inl rfl
  · exact .inr rfl

theorem setCell_cases (board : Board) (i j : Fin size) (value : Int) (k l : Fin size) :
    setCell board i j value k l = value ∨ setCell board i j value k l = board k l := by
  unfold setCell
  split
  · exact .inl rfl
  · exact .inr rfl

/-- On the board of a new game there is an empty cell, and no tile is larger than 4. -/
theorem flagged_gameInit (first second : Rands) : Flagged (gameInit first second) := by
  have hspare : ∀ a b : Fin size, ∃ c, c ≠ a ∧ c ≠ b := by decide
  obtain ⟨i, j, hzero, hfirst⟩ := gameAddRandomTile_added first
    ⟨fun _ _ => 0, 0, false, false⟩ ⟨0, 0, rfl⟩
  obtain ⟨c, hc, _⟩ := hspare i i
  obtain ⟨k, l, hzero', hsecond⟩ := gameAddRandomTile_added second
    ⟨setCell (fun _ _ => 0) i j first.value, 0, false, false⟩ ⟨c, 0, if_neg fun h => hc h.1⟩
  rw [gameInit, hfirst, hsecond]
  constructor
  · refine (Bool.eq_false_iff.mpr fun hwin => ?_ : gameCheckWin _ = false).symm
    obtain ⟨a, b, htarget⟩ := gameCheckWin_iff.mp hwin
    have hlarge : setCell (setCell (fun _ _ => 0) i j first.value) k l second.value a b = 2048 :=
      htarget
    have hfirst := first.value_cases
    have hsecond := second.value_cases
    rcases setCell_cases (setCell (fun _ _ => 0) i j first.value) k l second.value a b with h | h
    · omega
    · rcases setCell_cases (fun _ _ => 0) i j first.value a b with h' | h' <;> omega
  · obtain ⟨c, hi, hk⟩ := hspare i k
    have hempty : setCell (setCell (fun _ _ => 0) i j first.value) k l second.value c 0 = 0 :=
      (if_neg fun h => hk h.1).trans (if_neg fun h => hi h.1)
    refine (?_ : gameCheckGameOver _ = false).symm
    rw [gameCheckGameOver, gameCanMove_iff.mpr (.inl ⟨c, 0, hempty⟩)]
    rfl

theorem Reachable.flagged {state : GameState} (h : Reachable state) : Flagged state := by
  induction h with
  | init first second => exact flagged_gameInit first second
  | @move state state' changed direction rands _ hmove ih =>
    obtain ⟨_, hkept, hflagged⟩ := Direction.move_tells hmove
    cases changed with
    | false => exact hkept rfl ▸ ih
    | true => exact hflagged rfl

theorem Bounded.exists_tile {state : GameState} (h : Bounded state) :
    ∃ i j, state.board i j ≠ 0 := by
  by_contra hnone
  have hzero : total nonzero state.board = 0 :=
    Finset.sum_eq_zero fun i _ => Finset.sum_eq_zero fun j _ =>
      if_pos (not_not.mp fun hne => hnone ⟨i, j, hne⟩)
  have htwo := h.two_tiles
  omega

/-- A move returns false, whatever `rand()` returns, exactly if nothing moves in its
direction. -/
theorem move_fst_eq {state : GameState} (h : Bounded state) (direction : Direction)
    (rands : Rands) (value : Bool) :
    (direction.move rands state).map Prod.fst = some value ↔
      (value = false ↔ direction.Stuck state.board) := by
  obtain ⟨changed, state', hmove, _⟩ := h.move direction rands
  have hstuck := (Direction.move_tells hmove).1
  rw [hmove, ← hstuck]
  cases changed <;> cases value <;> simp

/-- As long as a game is not over, something moves in some direction. -/
theorem exists_move {state : GameState} (hreachable : Reachable state)
    (hopen : state.gameOver = false) : ∃ direction : Direction, ∀ rands : Rands,
      (direction.move rands state).map Prod.fst = some true := by
  have hbounded := hreachable.bounded
  have hsome : ∃ direction : Direction, ¬direction.Stuck state.board := by
    rw [← not_forall, stuck_iff_gameCanMove hbounded.exists_tile, ← Bool.not_eq_true',
      ← gameCheckGameOver, ← hreachable.flagged.gameOver, hopen]
    decide
  obtain ⟨direction, hfree⟩ := hsome
  refine ⟨direction, fun rands => (move_fst_eq hbounded direction rands true).mpr ?_⟩
  exact iff_of_false (by decide) hfree

/-- No move in any direction changes a game that is over. -/
theorem move_of_gameOver {state : GameState} (hreachable : Reachable state)
    (hover : state.gameOver = true) (direction : Direction) (rands : Rands) :
    direction.move rands state = some (false, state) := by
  have hstuck : direction.Stuck state.board := by
    have hcannot : gameCanMove state = false := by
      rw [← Bool.not_eq_true', ← gameCheckGameOver, ← hreachable.flagged.gameOver, hover]
    exact (stuck_iff_gameCanMove hreachable.bounded.exists_tile).mpr hcannot _
  obtain ⟨changed, state', hmove, _⟩ := hreachable.bounded.move direction rands
  obtain ⟨htells, hkept, _⟩ := Direction.move_tells hmove
  obtain rfl : changed = false := htells.mpr hstuck
  rw [hmove, hkept rfl]

/-- In every state of every game `gameOver` is set exactly if all four moves return false,
whatever `rand()` returns, and otherwise one of them returns true. `win` is set exactly if
there is a cell with 2048. A move returns true exactly if it changes the board, and else it
changes nothing at all. -/
theorem reachable_flags (state : GameState) (h : Reachable state) :
    (state.gameOver = true ↔ ∀ (direction : Direction) (rands : Rands),
      (direction.move rands state).map Prod.fst = some false) ∧
    (state.gameOver = false ↔ ∃ direction : Direction, ∀ rands : Rands,
      (direction.move rands state).map Prod.fst = some true) ∧
    (state.win = true ↔ ∃ i j, state.board i j = target) ∧
    ∀ (direction : Direction) (rands : Rands) (changed : Bool) (state' : GameState),
      direction.move rands state = some (changed, state') →
      (changed = true ↔ state'.board ≠ state.board) ∧ (changed = false → state' = state) := by
  have hbounded := h.bounded
  refine ⟨⟨fun hover direction rands => ?_, fun hall => ?_⟩, ⟨exists_move h, ?_⟩,
    by rw [h.flagged.win, gameCheckWin_iff], fun direction rands changed state' hmove => ?_⟩
  · rw [move_of_gameOver h hover]
    rfl
  · by_contra hopen
    obtain ⟨direction, hfree⟩ := exists_move h (Bool.eq_false_iff.mpr hopen)
    exact absurd ((hall direction ⟨0, 0⟩).symm.trans (hfree ⟨0, 0⟩)) (by decide)
  · rintro ⟨direction, hfree⟩
    refine Bool.eq_false_iff.mpr fun hover => ?_
    have hmove := hfree ⟨0, 0⟩
    rw [move_of_gameOver h hover] at hmove
    cases hmove
  · obtain ⟨_, hkept, _⟩ := Direction.move_tells hmove
    refine ⟨?_, hkept⟩
    cases changed with
    | false => simp [hkept rfl]
    | true =>
      have hgrows := Direction.move_grows hbounded hmove
      refine ⟨fun _ hsame => ?_, fun _ => rfl⟩
      rw [hsame] at hgrows
      exact Nat.lt_irrefl _ hgrows

/-- Before the last move of a game of 15 moves something moves, and behind it nothing does. -/
theorem reachable_flags_short : ∃ before after,
    playMoves (shortGame.take 14) (gameInit ⟨11, 0⟩ ⟨3, 9⟩) =
      some (List.replicate 14 true, before) ∧ before.gameOver = false ∧
    (∃ direction : Direction, ∀ rands : Rands,
      (direction.move rands before).map Prod.fst = some true) ∧
    playMoves shortGame (gameInit ⟨11, 0⟩ ⟨3, 9⟩) = some (List.replicate 15 true, after) ∧
    after.gameOver = true ∧ ∀ (direction : Direction) (rands : Rands),
      (direction.move rands after).map Prod.fst = some false := by
  have hbefore : (playMoves (shortGame.take 14) (gameInit ⟨11, 0⟩ ⟨3, 9⟩)).map (fun result =>
      (result.1, result.2.gameOver)) = some (List.replicate 14 true, false) := by decide +kernel
  obtain ⟨⟨changes, before⟩, hplay, hresult⟩ := Option.map_eq_some_iff.mp hbefore
  simp only [Prod.mk.injEq] at hresult
  obtain ⟨rfl, hopen⟩ := hresult
  obtain ⟨after, hrun, -, -, hover⟩ := shortGame_over
  have hfirst := reachable_flags before ((Reachable.init _ _).playMoves hplay)
  have hlast := reachable_flags after ((Reachable.init _ _).playMoves hrun)
  exact ⟨before, after, hplay, hopen, hfirst.2.1.mp hopen, hrun, hover, hlast.1.mp hover⟩

end CourseWork.Game
