import CourseWork.Lib.Runs
import Mathlib.Algebra.Ring.Int.Defs

/-!
# 2048

The `game` module: the board, the moves in the four directions, and the random tiles.
The values of `rand()` are given from outside, and a value that does not fit an `int` is
`none`.
-/

namespace CourseWork.Game

/-- `SIZE`. -/
abbrev size : Nat := 4

/-- `TARGET`. -/
def target : Int := 2048

abbrev Row := Fin size → Int

abbrev Board := Fin size → Row

/-- `GameState`. -/
structure GameState where
  board : Board
  score : Int
  gameOver : Bool
  win : Bool

/-- A result of arithmetic on `int`; an overflow is undefined. -/
def checkInt (n : Int) : Option Int := if -2 ^ 31 ≤ n ∧ n < 2 ^ 31 then some n else none

/-! ## Random tiles -/

/-- The cells in the order in which the loops visit them. -/
def cells : List (Fin size × Fin size) :=
  (List.finRange size).flatMap fun i => (List.finRange size).map fun j => (i, j)

/-- The three `return` statements of `gameAddRandomTile`. -/
inductive AddResult where
  | full
  | added
  | notReached
  deriving DecidableEq

/-- A board with another value in one cell. -/
def setCell (board : Board) (i j : Fin size) (value : Int) : Board :=
  fun k l => if k = i ∧ l = j then value else board k l

/-- The loop that looks for the empty cell number `target`. -/
def placeTile (value : Int) : List (Fin size × Fin size) → Nat → Board → AddResult × Board
  | [], _, board => (.notReached, board)
  | (i, j) :: cells, target, board =>
    if board i j = 0 then
      if target = 0 then (.added, setCell board i j value)
      else placeTile value cells (target - 1) board
    else placeTile value cells target board

/-- What `rand()` returns for the cell and for the tile. -/
structure Rands where
  cell : Nat
  tile : Nat

/-- The tile that is added: 2 in nine cases of ten, else 4. -/
def Rands.value (rands : Rands) : Int := if rands.tile % 10 < 9 then 2 else 4

/-- `gameAddRandomTile`. -/
def gameAddRandomTile (rands : Rands) (state : GameState) : AddResult × GameState :=
  let empty := (cells.filter fun cell => state.board cell.1 cell.2 = 0).length
  if empty = 0 then (.full, state)
  else
    let (result, board) := placeTile rands.value cells (rands.cell % empty) state.board
    (result, { state with board := board })

/-- `gameInit`. -/
def gameInit (first second : Rands) : GameState :=
  let state : GameState := ⟨fun _ _ => 0, 0, false, false⟩
  let state := (gameAddRandomTile first state).2
  (gameAddRandomTile second state).2

/-! ## Moves of a row -/

/-- `temp[i]`. -/
def readAt (temp : Row) (i : Nat) : Int := if h : i < size then temp ⟨i, h⟩ else 0

/-- `temp[i] = value`. -/
def writeAt (temp : Row) (i : Nat) (value : Int) : Row :=
  fun k => if k.val = i then value else temp k

/-- The loop that collects the tiles, with `pos`. -/
def collectLoop (row : Row) : List (Fin size) → Row → Nat → Row × Nat
  | [], temp, pos => (temp, pos)
  | i :: rest, temp, pos =>
    if row i ≠ 0 then collectLoop row rest (writeAt temp pos (row i)) (pos + 1)
    else collectLoop row rest temp pos

/-- The loop over `j` that moves the tiles from `j + 1` to `last` down. -/
def shiftLoop (last : Nat) : Nat → Nat → Row → Row
  | 0, _, temp => temp
  | fuel + 1, j, temp =>
    if j < last then shiftLoop last fuel (j + 1) (writeAt temp j (readAt temp (j + 1))) else temp

/-- The loop over `i` that merges neighbours: `temp`, the score, and `changed`. -/
def mergeLoop : Nat → Nat → Row → Nat → Int → Bool → Option (Row × Int × Bool)
  | 0, _, temp, _, score, changed => some (temp, score, changed)
  | fuel + 1, i, temp, pos, score, changed =>
    if i < pos - 1 then
      if readAt temp i = readAt temp (i + 1) then do
        let doubled ← checkInt (readAt temp i * 2)
        let temp := writeAt temp i doubled
        let score ← checkInt (score + doubled)
        let temp := shiftLoop (pos - 1) size (i + 1) temp
        let temp := writeAt temp (pos - 1) 0
        mergeLoop fuel (i + 1) temp (pos - 1) score true
      else mergeLoop fuel (i + 1) temp pos score changed
    else some (temp, score, changed)

/-- The loop that copies `temp` to the row, and compares. -/
def copyLoop (temp : Row) : List (Fin size) → Row → Bool → Row × Bool
  | [], row, changed => (row, changed)
  | i :: rest, row, changed =>
    if row i ≠ temp i then copyLoop temp rest (writeAt row i (temp i)) true
    else copyLoop temp rest row changed

/-- `moveRowLeft`: the row, the score, and whether the row has changed. No loop takes more than
`SIZE` turns. -/
def moveRowLeft (row : Row) (score : Int) : Option (Row × Int × Bool) := do
  let (temp, pos) := collectLoop row (List.finRange size) (fun _ => 0) 0
  let (temp, score, changed) ← mergeLoop size 0 temp pos score false
  let (row, changed) := copyLoop temp (List.finRange size) row changed
  return (row, score, changed)

/-- `reverseRow`. -/
def reverseRow (row : Row) : Row := fun i => row i.rev

/-- The body of the loop of `gameMoveRight`. -/
def moveRowRight (row : Row) (score : Int) : Option (Row × Int × Bool) := do
  let (row, score, changed) ← moveRowLeft (reverseRow row) score
  return (reverseRow row, score, changed)

/-! ## Moves of the board -/

/-- `gameCanMove`. -/
def gameCanMove (state : GameState) : Bool :=
  (cells.any fun cell => state.board cell.1 cell.2 = 0) ||
  ((List.finRange size).any fun i => (List.finRange (size - 1)).any fun j =>
    state.board i j.castSucc = state.board i j.succ) ||
  ((List.finRange size).any fun j => (List.finRange (size - 1)).any fun i =>
    state.board i.castSucc j = state.board i.succ j)

/-- `gameCheckWin`. -/
def gameCheckWin (state : GameState) : Bool :=
  cells.any fun cell => state.board cell.1 cell.2 = target

/-- `gameCheckGameOver`. -/
def gameCheckGameOver (state : GameState) : Bool := !gameCanMove state

/-- The loop over the rows, each moved as `moveRow` says. -/
def moveRows (moveRow : Row → Int → Option (Row × Int × Bool)) :
    List (Fin size) → Board → Int → Bool → Option (Board × Int × Bool)
  | [], board, score, changed => some (board, score, changed)
  | i :: rows, board, score, changed => do
    let (row, score, rowChanged) ← moveRow (board i) score
    moveRows moveRow rows (fun k => if k = i then row else board k) score
      (changed || rowChanged)

/-- A move of all rows, with what follows a change. -/
def gameMove (moveRow : Row → Int → Option (Row × Int × Bool)) (rands : Rands)
    (state : GameState) : Option (Bool × GameState) := do
  let (board, score, changed) ←
    moveRows moveRow (List.finRange size) state.board state.score false
  let state := { state with board := board, score := score }
  if changed then
    let state := (gameAddRandomTile rands state).2
    let state := { state with win := gameCheckWin state }
    let state := { state with gameOver := gameCheckGameOver state }
    return (true, state)
  else return (false, state)

/-- `gameMoveLeft`. -/
def gameMoveLeft (rands : Rands) (state : GameState) : Option (Bool × GameState) :=
  gameMove moveRowLeft rands state

/-- `gameMoveRight`. -/
def gameMoveRight (rands : Rands) (state : GameState) : Option (Bool × GameState) :=
  gameMove moveRowRight rands state

/-- `transpose`. -/
def transpose (state : GameState) : GameState :=
  { state with board := fun i j => state.board j i }

/-- `gameMoveUp`. -/
def gameMoveUp (rands : Rands) (state : GameState) : Option (Bool × GameState) := do
  let (changed, state) ← gameMoveLeft rands (transpose state)
  return (changed, transpose state)

/-- `gameMoveDown`. -/
def gameMoveDown (rands : Rands) (state : GameState) : Option (Bool × GameState) := do
  let (changed, state) ← gameMoveRight rands (transpose state)
  return (changed, transpose state)

/-- The four directions. -/
inductive Direction where
  | left
  | right
  | up
  | down
  deriving DecidableEq

/-- The move in a direction. -/
def Direction.move : Direction → Rands → GameState → Option (Bool × GameState)
  | .left => gameMoveLeft
  | .right => gameMoveRight
  | .up => gameMoveUp
  | .down => gameMoveDown

/-- The states of all games, for all values of `rand()`. -/
inductive Reachable : GameState → Prop
  | init (first second : Rands) : Reachable (gameInit first second)
  | move {state state' : GameState} {changed : Bool} (direction : Direction) (rands : Rands) :
      Reachable state → direction.move rands state = some (changed, state') → Reachable state'

/-- Some moves of a game. -/
def playMoves (moves : List (Direction × Rands)) (state : GameState) :
    Option (List Bool × GameState) :=
  Runs.answers (fun move => move.1.move move.2) moves state

theorem Reachable.playMoves {moves : List (Direction × Rands)} {state state' : GameState}
    {changes : List Bool} (h : Reachable state)
    (hrun : Game.playMoves moves state = some (changes, state')) : Reachable state' :=
  Runs.answers_invariant (fun move _ _ _ h hmove => h.move move.1 move.2 hmove) moves h hrun

/-- A game of 15 moves. -/
def shortGame : List (Direction × Rands) :=
  [(.left, ⟨8, 9⟩), (.left, ⟨12, 0⟩), (.right, ⟨4, 9⟩), (.right, ⟨3, 0⟩), (.right, ⟨4, 9⟩),
    (.left, ⟨1, 0⟩), (.left, ⟨2, 0⟩), (.right, ⟨6, 9⟩), (.left, ⟨1, 9⟩), (.right, ⟨1, 0⟩),
    (.up, ⟨0, 9⟩), (.down, ⟨0, 0⟩), (.up, ⟨0, 9⟩), (.down, ⟨0, 9⟩), (.up, ⟨0, 0⟩)]

/-- Its last move fills the board, and no two neighbours are equal. -/
theorem shortGame_over : ∃ state,
    playMoves shortGame (gameInit ⟨11, 0⟩ ⟨3, 9⟩) = some (List.replicate 15 true, state) ∧
    (cells.map fun cell => state.board cell.1 cell.2) =
      [2, 8, 2, 4, 4, 2, 4, 2, 2, 4, 2, 4, 4, 2, 4, 2] ∧
    state.score = 8 ∧ state.gameOver = true := by
  have hrun : (playMoves shortGame (gameInit ⟨11, 0⟩ ⟨3, 9⟩)).map (fun result =>
      (result.1, cells.map (fun cell => result.2.board cell.1 cell.2), result.2.score,
        result.2.gameOver)) =
      some (List.replicate 15 true, [2, 8, 2, 4, 4, 2, 4, 2, 2, 4, 2, 4, 4, 2, 4, 2], 8, true) := by
    decide +kernel
  obtain ⟨⟨changes, state⟩, hplay, hresult⟩ := Option.map_eq_some_iff.mp hrun
  simp only [Prod.mk.injEq] at hresult
  obtain ⟨rfl, hboard, hscore, hover⟩ := hresult
  exact ⟨state, hplay, hboard, hscore, hover⟩

example : (moveRowLeft (fun _ => 2) 0).map (fun r => (List.ofFn r.1, r.2)) =
    some ([4, 4, 0, 0], 8, true) := by decide

end CourseWork.Game
