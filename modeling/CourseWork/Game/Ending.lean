import CourseWork.Game.Flags
import CourseWork.Game.Slide

/-!
# The end of a game

A game is a ledger: the values on the board are those of the tiles that were placed, and the
score is what building the board from them scores. Every move that changes the board places a
tile, and there is no room for more than `2 ^ 18 - 4`, so that every game ends.
-/

namespace CourseWork.Game
open Runs

/-- The tiles that the moves have placed: those that returned true. -/
def placed (moves : List (Direction × Rands)) (changes : List Bool) : List Int :=
  ((moves.zip changes).filter (·.2)).map fun move => move.1.2.value

/-- The board and the score come from these tiles. -/
structure Accounted (tiles : List Int) (state : GameState) : Prop where
  value : total Int.toNat state.board = (tiles.map Int.toNat).sum
  score : state.score + (tiles.map potential).sum = total potential state.board

/-! ## One move -/

section Move

variable {state state' : GameState} {tiles : List Int} {rands : Rands} {changed : Bool}

/-- The tiles after a move. -/
def placedOne (rands : Rands) (changed : Bool) (tiles : List Int) : List Int :=
  if changed then rands.value :: tiles else tiles

theorem Accounted.add (h : Accounted tiles state) {i j : Fin size} (hzero : state.board i j = 0)
    (value : Int) (gameOver win : Bool) :
    Accounted (value :: tiles) ⟨setCell state.board i j value, state.score, gameOver, win⟩ where
  value := by
    rw [total_setCell rfl hzero, h.value, List.map_cons, List.sum_cons, Nat.add_comm]
  score := by
    have hscore := h.score
    rw [total_setCell rfl hzero, List.map_cons, List.sum_cons]
    show state.score + _ = _
    omega

theorem Accounted.transpose (h : Accounted tiles state) : Accounted tiles (transpose state) where
  value := (total_transpose _ _).trans h.value
  score := by
    rw [total_transpose]
    exact h.score

theorem gameMove_accounted (h : Accounted tiles state) (hbounded : Bounded state)
    {moveRow : Row → Int → Option (Row × Int × Bool)} (hmove : MovesRow moveRow)
    (hrun : gameMove moveRow rands state = some (changed, state')) :
    Accounted (placedOne rands changed tiles) state' := by
  have hlt := hbounded.score_lt
  have hvalue := total_toNat_le hbounded.cell_cases
  obtain ⟨board', gain, rowsChanged, hrows, hmoved⟩ :=
    moveRows_boardMoved hmove hbounded.cells hbounded.score_nonneg (by omega)
  rw [gameMove, hrows] at hrun
  cases rowsChanged with
  | false =>
    obtain ⟨hboard, hgain⟩ := hmoved.kept rfl
    cases hrun
    rw [hboard, hgain, Int.add_zero]
    exact ⟨h.value, h.score⟩
  | true =>
    obtain ⟨i, j, hzero, hadd⟩ := gameAddRandomTile_added rands
      { state with board := board', score := state.score + gain } (hmoved.room rfl)
    have hbetween :
        Accounted tiles { state with board := board', score := state.score + gain } := by
      constructor
      · rw [← h.value]
        exact total_congr_rows fun k => by
          obtain ⟨_, _, hrow⟩ := hmoved.rows k
          exact hrow.value
      · have hscored := hmoved.scored
        have hscore := h.score
        dsimp only
        omega
    simp only [Option.bind_eq_bind, Option.bind_some, hadd] at hrun
    cases hrun
    exact hbetween.add hzero rands.value _ _

theorem Direction.move_accounted {direction : Direction} (h : Accounted tiles state)
    (hbounded : Bounded state) (hmove : direction.move rands state = some (changed, state')) :
    Accounted (placedOne rands changed tiles) state' := by
  cases direction with
  | left => exact gameMove_accounted h hbounded moveRowLeft_movesRow hmove
  | right => exact gameMove_accounted h hbounded moveRowRight_movesRow hmove
  | up =>
    obtain ⟨⟨moved, between⟩, hrows, hlast⟩ := Option.bind_eq_some_iff.mp hmove
    cases hlast
    exact (gameMove_accounted h.transpose hbounded.transpose moveRowLeft_movesRow hrows).transpose
  | down =>
    obtain ⟨⟨moved, between⟩, hrows, hlast⟩ := Option.bind_eq_some_iff.mp hmove
    cases hlast
    exact (gameMove_accounted h.transpose hbounded.transpose moveRowRight_movesRow hrows).transpose

/-- A new game has two tiles. -/
theorem gameInit_accounted (first second : Rands) :
    Accounted [second.value, first.value] (gameInit first second) := by
  have hempty : Accounted [] ⟨fun _ _ => 0, 0, false, false⟩ :=
    ⟨total_zero rfl, by rw [total_zero rfl]; rfl⟩
  obtain ⟨i, j, hzero, hfirst⟩ := gameAddRandomTile_added first
    ⟨fun _ _ => 0, 0, false, false⟩ ⟨0, 0, rfl⟩
  have hone := hempty.add hzero first.value false false
  have hroom : ∃ k l, setCell (fun _ _ => 0) i j first.value k l = 0 := by
    by_cases hi : i = 0
    · exact ⟨1, j, if_neg fun h => absurd (h.1.trans hi) (by decide)⟩
    · exact ⟨0, j, if_neg fun h => hi h.1.symm⟩
  obtain ⟨k, l, hzero', hsecond⟩ := gameAddRandomTile_added second
    ⟨setCell (fun _ _ => 0) i j first.value, 0, false, false⟩ hroom
  rw [gameInit, hfirst, hsecond]
  exact hone.add hzero' second.value false false

end Move

/-! ## The room on the board -/

/-- A tile by the powers of two up to it. -/
theorem toNat_eq_sum {v : Int} (h : v = 0 ∨ ∃ n, 1 ≤ n ∧ n ≤ 17 ∧ v = 2 ^ n) :
    v.toNat = nonzero v * 2 + ∑ m ∈ Finset.Icc 2 17, atLeast (2 ^ m) v * 2 ^ (m - 1) := by
  rcases h with rfl | ⟨n, h1, hn, rfl⟩
  · rw [Finset.sum_eq_zero fun m _ => by rw [atLeast_zero, Nat.zero_mul]]
    rfl
  · have hlevel : ∀ m, atLeast (2 ^ m) (2 ^ n) = if m ≤ n then 1 else 0 := fun m => by
      have hiff : (2 : Int) ^ m ≤ 2 ^ n ↔ m ≤ n := pow_le_pow_iff_right₀ (by decide)
      simp only [atLeast, hiff]
    have hsum : ∀ n ≤ 17, 1 ≤ n → 2 ^ n =
        1 * 2 + ∑ m ∈ Finset.Icc 2 17, (if m ≤ n then 1 else 0) * 2 ^ (m - 1) := by decide +kernel
    have hnonzero : nonzero (2 ^ n) = 1 := if_neg (pow_ne_zero n (by decide))
    rw [toNat_two_pow, hnonzero, hsum n hn h1]
    exact congrArg _ (Finset.sum_congr rfl fun m _ => by rw [hlevel])

theorem total_add (f g : Int → Nat) (board : Board) :
    total (fun v => f v + g v) board = total f board + total g board := by
  simp only [total, rowTotal, Finset.sum_add_distrib]

/-- The largest tiles that fit at once are the powers of two from 4 to `2 ^ 17`. -/
theorem Bounded.total_le {state : GameState} (h : Bounded state) :
    total Int.toNat state.board ≤ 2 ^ 18 - 4 :=
  calc total Int.toNat state.board
      = total (fun v => nonzero v * 2 + ∑ m ∈ Finset.Icc 2 17, atLeast (2 ^ m) v * 2 ^ (m - 1))
          state.board :=
        Finset.sum_congr rfl fun i _ => Finset.sum_congr rfl fun j _ =>
          toNat_eq_sum (h.cell_cases i j)
    _ = total nonzero state.board * 2 +
          ∑ m ∈ Finset.Icc 2 17, total (atLeast (2 ^ m)) state.board * 2 ^ (m - 1) := by
        rw [total_add, total_mul, total_sum]
        exact congrArg _ (Finset.sum_congr rfl fun m _ => total_mul _ _ _)
    _ ≤ 16 * 2 + ∑ m ∈ Finset.Icc 2 17, (18 - m) * 2 ^ (m - 1) := by
        refine Nat.add_le_add (Nat.mul_le_mul_right _ (Game.total_le (fun v => ?_) _))
          (Finset.sum_le_sum fun m hm => Nat.mul_le_mul_right _ ?_)
        · unfold nonzero
          split <;> omega
        · obtain ⟨h2, h17⟩ := Finset.mem_Icc.mp hm
          exact h.count m h2 (Nat.le_succ_of_le h17)
    _ ≤ 2 ^ 18 - 4 := by decide +kernel

/-! ## Games -/

section Games

variable {moves : List (Direction × Rands)} {changes : List Bool} {state state' : GameState}

/-- Any moves can be made, and the account goes on. -/
theorem playMoves_accounted : ∀ (moves : List (Direction × Rands)) {tiles : List Int}
    {state : GameState}, Bounded state → Accounted tiles state →
    ∃ changes state', playMoves moves state = some (changes, state') ∧ Bounded state' ∧
      Accounted ((placed moves changes).reverse ++ tiles) state' ∧
        (placed moves changes).length = changes.count true
  | [], _, state, hbounded, h => ⟨[], state, rfl, hbounded, h, rfl⟩
  | (direction, rands) :: moves, tiles, state, hbounded, h => by
    obtain ⟨changed, between, hmove, hbetween⟩ := hbounded.move direction rands
    obtain ⟨changes, state', hrest, hbounded', h', hcount⟩ :=
      playMoves_accounted moves hbetween (Direction.move_accounted h hbounded hmove)
    have hrun : playMoves ((direction, rands) :: moves) state =
        some (changed :: changes, state') := by
      rw [playMoves, answers, hmove]
      simp only [Option.bind_eq_bind, Option.bind_some]
      rw [playMoves] at hrest
      rw [hrest]
      rfl
    refine ⟨changed :: changes, state', hrun, hbounded', ?_, ?_⟩
    · cases changed with
      | false => exact h'
      | true =>
        rw [placed, List.zip_cons_cons, List.filter_cons_of_pos rfl, List.map_cons,
          List.reverse_cons, List.append_assoc]
        exact h'
    · cases changed with
      | false => exact hcount
      | true =>
        rw [placed, List.zip_cons_cons, List.filter_cons_of_pos rfl, List.map_cons,
          List.length_cons, List.count_cons_self, ← hcount]
        rfl

/-- The tiles that `gameAddRandomTile` places. -/
def Placed (tiles : List Int) : Prop := ∀ value ∈ tiles, value = 2 ∨ value = 4

theorem placed_placed (moves : List (Direction × Rands)) (changes : List Bool) :
    Placed (placed moves changes) := by
  intro value hvalue
  obtain ⟨move, _, rfl⟩ := List.mem_map.mp hvalue
  exact move.1.2.value_cases

theorem placed_first (first second : Rands) : Placed [second.value, first.value] :=
  List.forall_mem_cons.mpr ⟨second.value_cases, List.forall_mem_singleton.mpr first.value_cases⟩

theorem Placed.sum_toNat {tiles : List Int} (h : Placed tiles) :
    ((tiles.map Int.toNat).sum : Int) = tiles.sum := by
  induction tiles with
  | nil => rfl
  | cons value tiles ih =>
    obtain ⟨hvalue, htiles⟩ := List.forall_mem_cons.mp h
    rw [List.map_cons, List.sum_cons, List.sum_cons, Nat.cast_add, ih htiles]
    omega

/-- Only a 4 has a potential. -/
theorem Placed.sum_potential {tiles : List Int} (h : Placed tiles) :
    (tiles.map potential).sum = 4 * tiles.count 4 := by
  have htwo : potential 2 = 0 := potential_two_pow 1
  have hfour : potential 4 = 4 := potential_two_pow 2
  induction tiles with
  | nil => rfl
  | cons value tiles ih =>
    obtain ⟨hvalue, htiles⟩ := List.forall_mem_cons.mp h
    rw [List.map_cons, List.sum_cons, ih htiles]
    rcases hvalue with rfl | rfl
    · rw [htwo, List.count_cons_of_ne (by decide), Nat.zero_add]
    · rw [hfour, List.count_cons_self]
      omega

/-- The board has room for so many tiles. -/
theorem Placed.length_le {tiles : List Int} (h : Placed tiles) (hbounded : Bounded state)
    (haccount : Accounted tiles state) : tiles.length ≤ 131070 := by
  have hroom := hbounded.total_le
  have htwo : ∀ value ∈ tiles, 2 ≤ value.toNat := by
    intro value hvalue
    rcases h value hvalue with rfl | rfl <;> decide
  have hsum := List.card_nsmul_le_sum (tiles.map Int.toNat) 2 (List.forall_mem_map.mpr htwo)
  rw [List.length_map, smul_eq_mul, ← haccount.value] at hsum
  omega

theorem boardSum_eq_total (h : Bounded state) :
    boardSum state.board = total Int.toNat state.board := by
  simp only [boardSum, total, rowTotal, Nat.cast_sum]
  refine Finset.sum_congr rfl fun i _ => Finset.sum_congr rfl fun j _ => ?_
  rcases h.cell_cases i j with hcell | ⟨n, _, _, hcell⟩
  · rw [hcell]
    rfl
  · rw [hcell, toNat_two_pow, Nat.cast_pow]
    rfl

/-- Whatever is played and whatever `rand()` returns, the values on the board are those of the
tiles that were placed, the score is what building the board scores without the tiles that were
placed, and no more than 131068 moves have returned true. -/
theorem game_account (first second : Rands) (moves : List (Direction × Rands)) :
    ∃ changes state, playMoves moves (gameInit first second) = some (changes, state) ∧
      boardSum state.board = first.value + second.value + (placed moves changes).sum ∧
      state.score + 4 * (first.value :: second.value :: placed moves changes).count 4 =
        total potential state.board ∧
      changes.count true ≤ 131068 := by
  obtain ⟨changes, state, hrun, hbounded, h, hcount⟩ := playMoves_accounted moves
    (bounded_gameInit first second) (gameInit_accounted first second)
  have hall : Placed ((placed moves changes).reverse ++ [second.value, first.value]) :=
    List.forall_mem_append.mpr ⟨fun value hvalue =>
      placed_placed moves changes value (List.mem_reverse.mp hvalue), placed_first first second⟩
  refine ⟨changes, state, hrun, ?_, ?_, ?_⟩
  · rw [boardSum_eq_total hbounded, h.value, hall.sum_toNat, List.sum_append, List.sum_reverse,
      List.sum_cons, List.sum_singleton]
    omega
  · have hscore := h.score
    rw [hall.sum_potential, List.count_append, List.count_reverse] at hscore
    simp only [List.count_cons, List.count_nil] at hscore ⊢
    push_cast at hscore ⊢
    omega
  · have hlength := hall.length_le hbounded h
    rw [List.length_append, List.length_reverse, hcount] at hlength
    exact Nat.le_of_add_le_add_right hlength

end Games

/-! ## Players -/

/-- The state after some moves of a player. -/
def course (player : GameState → Direction) (rands : Nat → Rands) (start : GameState) :
    Nat → Option GameState
  | 0 => some start
  | n + 1 => do
    let state ← course player rands start n
    let (_, state) ← (player state).move (rands n) state
    return state

/-- As long as a move is left, the player makes one that changes the board. -/
def Sensible (player : GameState → Direction) : Prop :=
  ∀ state, Reachable state → state.gameOver = false →
    ∀ rands, ((player state).move rands state).map Prod.fst = some true

section Players

variable {player : GameState → Direction} {rands : Nat → Rands} {first second : Rands}

/-- Up to the end of the game every move has placed a tile. -/
theorem course_accounted (hplayer : Sensible player) : ∀ n,
    (∀ k < n, ∀ state, course player rands (gameInit first second) k = some state →
      state.gameOver = false) →
    ∃ state tiles, course player rands (gameInit first second) n = some state ∧
      Reachable state ∧ Accounted tiles state ∧ Placed tiles ∧ tiles.length = n + 2
  | 0, _ => ⟨_, _, rfl, .init first second, gameInit_accounted first second,
      placed_first first second, rfl⟩
  | n + 1, hopen => by
    obtain ⟨state, tiles, hcourse, hreachable, haccount, hplaced, hlength⟩ :=
      course_accounted hplayer n fun k hk => hopen k (Nat.lt_succ_of_lt hk)
    have hmove := hplayer state hreachable (hopen n (Nat.lt_succ_self n) state hcourse) (rands n)
    obtain ⟨⟨changed, state'⟩, hrun, hchanged⟩ := Option.map_eq_some_iff.mp hmove
    obtain rfl : changed = true := hchanged
    refine ⟨state', (rands n).value :: tiles, ?_, .move _ _ hreachable hrun,
      Direction.move_accounted haccount hreachable.bounded hrun,
      List.forall_mem_cons.mpr ⟨(rands n).value_cases, hplaced⟩, by rw [List.length_cons, hlength]⟩
    rw [course, hcourse]
    simp only [Option.bind_eq_bind, Option.bind_some, hrun]
    rfl

/-- A game that is over stays as it is. -/
theorem course_over {start state : GameState} {n : Nat} (hreachable : Reachable state)
    (hover : state.gameOver = true) (hcourse : course player rands start n = some state) :
    ∀ k, course player rands start (n + k) = some state
  | 0 => hcourse
  | k + 1 => by
    rw [← Nat.add_assoc, course, course_over hreachable hover hcourse k]
    simp only [Option.bind_eq_bind, Option.bind_some, move_of_gameOver hreachable hover]
    rfl

/-- The first end of a game, if there is one below a bound. -/
theorem course_ends (hplayer : Sensible player) (rands : Nat → Rands) (first second : Rands) :
    ∃ n ≤ 131068, ∃ state, course player rands (gameInit first second) n = some state ∧
      Reachable state ∧ state.gameOver = true ∧ ∀ k < n, ∃ before,
        course player rands (gameInit first second) k = some before ∧ before.gameOver = false := by
  by_contra hnever
  have hopen : ∀ n ≤ 131069, ∀ k < n, ∀ state,
      course player rands (gameInit first second) k = some state → state.gameOver = false := by
    intro n hn
    induction n with
    | zero => exact fun k hk => absurd hk (Nat.not_lt_zero k)
    | succ n ih =>
      intro k hk state hcourse
      have hbefore := ih (Nat.le_of_succ_le hn)
      have hknown : ∀ j ≤ k, ∃ between, course player rands (gameInit first second) j =
          some between ∧ Reachable between := fun j hj => by
        obtain ⟨between, _, hcourse', hreachable, _⟩ := course_accounted hplayer j
          fun i hi => hbefore i (Nat.lt_of_lt_of_le hi (Nat.le_trans hj (Nat.le_of_lt_succ hk)))
        exact ⟨between, hcourse', hreachable⟩
      obtain ⟨state', hcourse', hreachable⟩ := hknown k (Nat.le_refl k)
      obtain rfl := Option.some.inj (hcourse.symm.trans hcourse')
      refine Bool.eq_false_iff.mpr fun hover => hnever
        ⟨k, by omega, state, hcourse, hreachable, hover, fun j hj => ?_⟩
      obtain ⟨between, hbetween, _⟩ := hknown j (Nat.le_of_lt hj)
      exact ⟨between, hbetween, hbefore j (by omega) between hbetween⟩
  obtain ⟨state, tiles, _, hreachable, haccount, hplaced, hlength⟩ :=
    course_accounted hplayer 131069 (hopen 131069 (Nat.le_refl _))
  have hroom := hplaced.length_le hreachable.bounded haccount
  omega

/-- As long as a game is not over something moves in some direction, and every player who takes
such a direction comes to the end of the game, whatever `rand()` returns. No move in any direction
changes anything from then on. -/
theorem play_ends :
    (∀ state, Reachable state → state.gameOver = false → ∃ direction : Direction,
      ∀ rands : Rands, (direction.move rands state).map Prod.fst = some true) ∧
    ∀ player, Sensible player → ∀ (rands : Nat → Rands) (first second : Rands),
      ∃ n ≤ 131068, ∃ state, state.gameOver = true ∧
        (∀ k < n, ∃ before, course player rands (gameInit first second) k = some before ∧
          before.gameOver = false) ∧
        (∀ k, course player rands (gameInit first second) (n + k) = some state) ∧
        ∀ (direction : Direction) (rands : Rands),
          direction.move rands state = some (false, state) := by
  refine ⟨fun state hreachable hopen => exists_move hreachable hopen,
    fun player hplayer rands first second => ?_⟩
  obtain ⟨n, hn, state, hcourse, hreachable, hover, hbefore⟩ :=
    course_ends hplayer rands first second
  exact ⟨n, hn, state, hover, hbefore, course_over hreachable hover hcourse,
    move_of_gameOver hreachable hover⟩

/-- The player who takes the first direction in which something moves. -/
def eager (state : GameState) : Direction :=
  ([.left, .right, .up, .down].find? fun direction =>
    (direction.move ⟨0, 0⟩ state).map Prod.fst = some true).getD .left

theorem sensible_eager : Sensible eager := by
  intro state hreachable hopen rands
  have hfree (direction : Direction) (rands : Rands) :
      (direction.move rands state).map Prod.fst = some true ↔ ¬direction.Stuck state.board := by
    rw [move_fst_eq hreachable.bounded]
    simp
  obtain ⟨direction, hdirection⟩ := exists_move hreachable hopen
  have hall : direction ∈ [Direction.left, .right, .up, .down] := by cases direction <;> decide
  rw [hfree, eager]
  cases hfind : [Direction.left, .right, .up, .down].find? fun direction =>
      (direction.move ⟨0, 0⟩ state).map Prod.fst = some true with
  | none =>
    have hnone := List.find?_eq_none.mp hfind direction hall
    exact absurd (decide_eq_true (hdirection ⟨0, 0⟩)) hnone
  | some found =>
    have hfound := List.find?_some hfind
    exact (hfree found ⟨0, 0⟩).mp (of_decide_eq_true hfound)

/-- The game of that player when `rand()` always returns 0. -/
theorem play_ends_eager : ∃ n ≤ 131068, ∃ state, state.gameOver = true ∧
    (∀ k < n, ∃ before, course eager (fun _ => ⟨0, 0⟩) (gameInit ⟨0, 0⟩ ⟨0, 0⟩) k = some before ∧
      before.gameOver = false) ∧
    (∀ k, course eager (fun _ => ⟨0, 0⟩) (gameInit ⟨0, 0⟩ ⟨0, 0⟩) (n + k) = some state) ∧
    ∀ (direction : Direction) (rands : Rands),
      direction.move rands state = some (false, state) :=
  play_ends.2 eager sensible_eager (fun _ => ⟨0, 0⟩) ⟨0, 0⟩ ⟨0, 0⟩

end Players

end CourseWork.Game
