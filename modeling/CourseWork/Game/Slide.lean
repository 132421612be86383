import CourseWork.Game.Bounds

/-!
# The rules of 2048

The slide of a board in the words of the rules, and the moves of the program against it.
A line is read from the wall: its tiles keep their order and move to the wall, and equal
neighbours merge in pairs from the wall on.
-/

namespace CourseWork.Game

/-! ## The rules -/

/-- Equal neighbours merge in pairs. A merged tile does not merge again. -/
def mergePairs : List Int → List Int
  | a :: b :: line => if a = b then (a + b) :: mergePairs line else a :: mergePairs (b :: line)
  | line => line

/-- The tiles that come from a merge. -/
def mergedTiles : List Int → List Int
  | a :: b :: line => if a = b then (a + b) :: mergedTiles line else mergedTiles (b :: line)
  | _ => []

/-- The line after a move to its wall. -/
def slideLine (line : Row) : Row := padRow (mergePairs (tiles line))

/-- What the line scores. -/
def lineGain (line : Row) : Int := (mergedTiles (tiles line)).sum

/-- The cell at a distance from the wall in a line. -/
def Direction.cell : Direction → Fin size → Fin size → Fin size × Fin size
  | .left, line, distance => (line, distance)
  | .right, line, distance => (line, distance.rev)
  | .up, line, distance => (distance, line)
  | .down, line, distance => (distance.rev, line)

/-- The line of a cell, and the distance from the wall. -/
def Direction.place : Direction → Fin size → Fin size → Fin size × Fin size
  | .left, i, j => (i, j)
  | .right, i, j => (i, j.rev)
  | .up, i, j => (j, i)
  | .down, i, j => (j, i.rev)

/-- The cells of a line, from the wall on. -/
def Direction.line (direction : Direction) (board : Board) (line : Fin size) : Row :=
  fun distance => board (direction.cell line distance).1 (direction.cell line distance).2

/-- The board after all lines have moved to their walls. -/
def Direction.slide (direction : Direction) (board : Board) : Board := fun i j =>
  slideLine (direction.line board (direction.place i j).1) (direction.place i j).2

/-- The sum of the merged tiles. -/
def Direction.gain (direction : Direction) (board : Board) : Int :=
  ∑ line, lineGain (direction.line board line)

/-- The sum of all cells. -/
def boardSum (board : Board) : Int := ∑ i, ∑ j, board i j

/-- The values for which doubling does not overflow. -/
def InRange (v : Int) : Prop := 0 ≤ v ∧ v < 2 ^ 30

instance (v : Int) : Decidable (InRange v) := inferInstanceAs (Decidable (_ ∧ _))

/-! ## Merging -/

section Merging

variable {line : List Int}

theorem mergedTiles_nonneg (h : ∀ v ∈ line, 0 ≤ v) : ∀ v ∈ mergedTiles line, 0 ≤ v := by
  fun_induction mergedTiles line with
  | case1 a line ih =>
    obtain ⟨ha, hrest⟩ := List.forall_mem_cons.mp h
    refine List.forall_mem_cons.mpr ⟨Int.add_nonneg ha ha, ?_⟩
    exact ih (List.forall_mem_cons.mp hrest).2
  | case2 a b line hab ih => exact ih (List.forall_mem_cons.mp h).2
  | case3 => exact nofun

theorem sum_mergedTiles_nonneg (h : ∀ v ∈ line, 0 ≤ v) : 0 ≤ (mergedTiles line).sum :=
  List.sum_nonneg (mergedTiles_nonneg h)

theorem sum_mergePairs (line : List Int) : (mergePairs line).sum = line.sum := by
  fun_induction mergePairs line with
  | case1 a line ih => rw [List.sum_cons, List.sum_cons, List.sum_cons, ih, Int.add_assoc]
  | case2 a b line hab ih => rw [List.sum_cons, List.sum_cons, ih]
  | case3 => rfl

theorem length_mergePairs (line : List Int) :
    (mergePairs line).length + (mergedTiles line).length = line.length := by
  fun_induction mergePairs line with
  | case1 a line ih =>
    rw [mergedTiles, if_pos rfl, List.length_cons, List.length_cons, List.length_cons,
      List.length_cons]
    omega
  | case2 a b line hab ih =>
    rw [mergedTiles, if_neg hab, List.length_cons, List.length_cons, ← ih]
    omega
  | case3 line hline =>
    rw [mergedTiles]
    · rfl
    · exact hline

/-- A line without merges stays as it is. -/
theorem mergePairs_eq_self : mergedTiles line = [] → mergePairs line = line := by
  fun_induction mergePairs line with
  | case1 a line ih =>
    intro h
    rw [mergedTiles, if_pos rfl] at h
    cases h
  | case2 a b line hab ih =>
    intro h
    rw [mergedTiles, if_neg hab] at h
    rw [ih h]
  | case3 => exact fun _ => rfl

end Merging

/-! ## Overflow -/

theorem checkInt_eq_some {n m : Int} : checkInt n = some m ↔ n = m ∧ -2 ^ 31 ≤ n ∧ n < 2 ^ 31 := by
  unfold checkInt
  split
  · next h => exact ⟨fun heq => ⟨Option.some.inj heq, h⟩, fun heq => congrArg some heq.1⟩
  · next h => exact ⟨fun heq => absurd heq.symm (Option.some_ne_none m), fun heq => absurd heq.2 h⟩

/-- Two additions overflow if the second does: what is added is not negative. -/
theorem checkInt_bind {α : Type} {score gain more : Int} {k : Int → Option α}
    (hscore : -2 ^ 31 ≤ score) (hgain : 0 ≤ gain) (hmore : 0 ≤ more) :
    ((checkInt (score + gain)).bind fun s => (checkInt (s + more)).bind k) =
      (checkInt (score + (gain + more))).bind k := by
  rw [checkInt]
  split
  · rw [Option.bind_some, Int.add_assoc]
  · next h =>
    rw [Option.bind_none, checkInt, if_neg (by omega), Option.bind_none]

/-- The merging loop, on tiles whose double does not overflow. -/
theorem mergeTiles_eq (line : List Int) (score : Int) (changed : Bool)
    (hline : ∀ v ∈ line, InRange v) (hscore : -2 ^ 31 ≤ score ∧ score < 2 ^ 31) :
    mergeTiles score changed line =
      (checkInt (score + (mergedTiles line).sum)).bind fun score' =>
        some (mergePairs line, score', changed || !(mergedTiles line).isEmpty) := by
  fun_induction mergeTiles score changed line with
  | case1 score changed b temp ih =>
    obtain ⟨hb, hrest⟩ := List.forall_mem_cons.mp hline
    have htemp := (List.forall_mem_cons.mp hrest).2
    have hsum := sum_mergedTiles_nonneg fun v hv => (htemp v hv).1
    rw [mergedTiles, if_pos rfl, mergePairs, if_pos rfl, List.sum_cons]
    have hdouble : checkInt (b * 2) = some (b + b) :=
      checkInt_eq_some.mpr (by unfold InRange at hb; omega)
    simp only [hdouble, Option.bind_eq_bind, Option.bind_some]
    rw [← checkInt_bind hscore.1 (Int.add_nonneg hb.1 hb.1) hsum]
    cases hscore' : checkInt (score + (b + b)) with
    | none => rfl
    | some score' =>
      obtain ⟨rfl, hbounds⟩ := checkInt_eq_some.mp hscore'
      rw [Option.bind_some, Option.bind_some, ih (score + (b + b)) htemp hbounds]
      cases checkInt (score + (b + b) + (mergedTiles temp).sum) with
      | none => rfl
      | some last =>
        rw [List.isEmpty_cons, Bool.not_false, Bool.or_true]
        rfl
  | case2 score changed a b temp hab ih =>
    rw [mergedTiles, if_neg hab, mergePairs, if_neg hab,
      ih (List.forall_mem_cons.mp hline).2 hscore]
    cases checkInt (score + (mergedTiles (b :: temp)).sum) with
    | none => rfl
    | some score' => rfl
  | case3 score changed line hne =>
    have hmerged : mergedTiles line = [] := by
      rw [mergedTiles]
      exact hne
    rw [hmerged, mergePairs_eq_self hmerged, List.sum_nil, Int.add_zero,
      checkInt_eq_some.mpr ⟨rfl, hscore⟩, Option.bind_some, List.isEmpty_nil, Bool.not_true,
      Bool.or_false]

/-! ## Rows -/

theorem inRange_of_mem_tiles {row : Row} (h : ∀ j, InRange (row j)) :
    ∀ v ∈ tiles row, InRange v := by
  intro v hv
  obtain ⟨j, rfl⟩ := List.mem_ofFn.mp (List.mem_filter.mp hv).1
  exact h j

theorem lineGain_nonneg {row : Row} (h : ∀ j, InRange (row j)) : 0 ≤ lineGain row :=
  sum_mergedTiles_nonneg fun v hv => (inRange_of_mem_tiles h v hv).1

theorem mergePairs_ne_zero {line : List Int} (h : ∀ v ∈ line, 0 < v) :
    ∀ v ∈ mergePairs line, 0 < v := by
  fun_induction mergePairs line with
  | case1 a line ih =>
    obtain ⟨ha, hrest⟩ := List.forall_mem_cons.mp h
    refine List.forall_mem_cons.mpr ⟨Int.add_pos ha ha, ?_⟩
    exact ih (List.forall_mem_cons.mp hrest).2
  | case2 a b line hab ih =>
    obtain ⟨ha, hrest⟩ := List.forall_mem_cons.mp h
    exact List.forall_mem_cons.mpr ⟨ha, ih hrest⟩
  | case3 => exact h

theorem ofFn_padRow {line : List Int} (hlen : line.length ≤ size) :
    List.ofFn (padRow line) = line ++ List.replicate (size - line.length) 0 := by
  apply List.ext_getElem?
  intro i
  rw [List.getElem?_ofFn, List.getElem?_append]
  split
  · next hi =>
    rw [padRow, List.getD_eq_getElem?_getD]
    split
    · next hlt => rw [List.getElem?_eq_getElem hlt, Option.getD_some]
    · next hge => rw [List.getElem?_eq_none (Nat.le_of_not_lt hge), Option.getD_none,
        List.getElem?_replicate, if_pos (by omega)]
  · next hi =>
    rw [if_neg (by omega), List.getElem?_eq_none]
    rw [List.length_replicate]
    omega

/-- The tiles of a padded row. -/
theorem tiles_padRow {line : List Int} (h : ∀ v ∈ line, 0 < v) (hlen : line.length ≤ size) :
    tiles (padRow line) = line := by
  have hline : line.filter (· ≠ 0) = line :=
    List.filter_eq_self.mpr fun v hv => decide_eq_true (Int.ne_of_gt (h v hv))
  have hzeros : (List.replicate (size - line.length) (0 : Int)).filter (· ≠ 0) = [] :=
    List.filter_eq_nil_iff.mpr fun v hv => by simp [List.eq_of_mem_replicate hv]
  rw [tiles, ofFn_padRow hlen, List.filter_append, hline, hzeros, List.append_nil]

theorem pos_of_mem_tiles {row : Row} (h : ∀ j, InRange (row j)) : ∀ v ∈ tiles row, 0 < v := by
  intro v hv
  have hne : v ≠ 0 := of_decide_eq_true (List.mem_filter.mp hv).2
  have hrange := (inRange_of_mem_tiles h v hv).1
  omega

/-- A row that stays as it is has no merges. -/
theorem mergedTiles_eq_nil {row : Row} (h : ∀ j, InRange (row j)) (heq : slideLine row = row) :
    mergedTiles (tiles row) = [] := by
  have hpos := mergePairs_ne_zero (pos_of_mem_tiles h)
  have hcount := length_mergePairs (tiles row)
  have htiles : tiles (slideLine row) = mergePairs (tiles row) :=
    tiles_padRow hpos (by have := length_tiles row; omega)
  rw [heq] at htiles
  rw [← htiles] at hcount
  exact List.eq_nil_of_length_eq_zero (by omega)

/-- A function that slides every row to the wall that `slideRow` describes. -/
def SlidesRow (moveRow : Row → Int → Option (Row × Int × Bool)) (slideRow : Row → Row)
    (gain : Row → Int) : Prop :=
  ∀ (row : Row) (score : Int), (∀ j, InRange (row j)) → -2 ^ 31 ≤ score → score < 2 ^ 31 →
    moveRow row score = (checkInt (score + gain row)).bind fun score' =>
      some (slideRow row, score', decide (slideRow row ≠ row))

theorem moveRowLeft_slides : SlidesRow moveRowLeft slideLine lineGain := by
  intro row score hrow hmin hmax
  rw [moveRowLeft_eq, moveTiles]
  simp only [mergeTiles_eq (tiles row) score false (inRange_of_mem_tiles hrow) ⟨hmin, hmax⟩]
  unfold lineGain
  cases checkInt (score + (mergedTiles (tiles row)).sum) with
  | none => rfl
  | some score' =>
    simp only [Option.bind_eq_bind, Option.bind_some]
    refine congrArg some (congrArg (Prod.mk _) (congrArg (Prod.mk _) ?_))
    rw [← slideLine, Bool.false_or]
    by_cases heq : slideLine row = row
    · have hany : ((List.finRange size).any fun i => decide (row i ≠ slideLine row i)) = false := by
        rw [heq]
        exact List.any_eq_false.mpr fun i _ => by simp
      rw [hany, mergedTiles_eq_nil hrow heq, decide_eq_false (not_not.mpr heq)]
      rfl
    · obtain ⟨i, hi⟩ := Function.ne_iff.mp heq
      have hany : ((List.finRange size).any fun i => decide (row i ≠ slideLine row i)) = true :=
        List.any_eq_true.mpr ⟨i, List.mem_finRange i, decide_eq_true hi.symm⟩
      rw [hany, Bool.or_true, decide_eq_true heq]

theorem reverseRow_eq_iff {row row' : Row} : reverseRow row = row' ↔ row = reverseRow row' := by
  constructor
  · rintro rfl
    exact (reverseRow_reverseRow row).symm
  · rintro rfl
    exact reverseRow_reverseRow row'

theorem moveRowRight_slides :
    SlidesRow moveRowRight (fun row => reverseRow (slideLine (reverseRow row)))
      fun row => lineGain (reverseRow row) := by
  intro row score hrow hmin hmax
  rw [moveRowRight, moveRowLeft_slides (reverseRow row) score (fun j => hrow j.rev) hmin hmax]
  cases checkInt (score + lineGain (reverseRow row)) with
  | none => rfl
  | some score' =>
    refine congrArg some (congrArg (Prod.mk _) (congrArg (Prod.mk _) ?_))
    rw [decide_eq_decide, not_iff_not]
    exact reverseRow_eq_iff.symm

/-! ## Boards -/

section Rows

variable {moveRow : Row → Int → Option (Row × Int × Bool)} {slideRow : Row → Row}
  {gain : Row → Int}

theorem any_setRow {board : Board} {rows : List (Fin size)} {i : Fin size} {row : Row}
    (hi : i ∉ rows) (p : Row → Bool) :
    (rows.any fun k => p (setRow board i row k)) = rows.any fun k => p (board k) := by
  have hany : (rows.map fun k => p (setRow board i row k)).any id =
      (rows.map fun k => p (board k)).any id := by rw [map_setRow hi p]
  rwa [List.any_map, List.any_map] at hany

/-- The loop over the rows slides those that are left. -/
theorem moveRows_slide (hmove : SlidesRow moveRow slideRow gain)
    (hgain : ∀ row, (∀ j, InRange (row j)) → 0 ≤ gain row) :
    ∀ (rows : List (Fin size)) (board : Board) (score : Int) (changed : Bool), rows.Nodup →
      (∀ i ∈ rows, ∀ j, InRange (board i j)) → -2 ^ 31 ≤ score → score < 2 ^ 31 →
      moveRows moveRow rows board score changed =
        (checkInt (score + (rows.map fun i => gain (board i)).sum)).bind fun score' =>
          some (fun k => if k ∈ rows then slideRow (board k) else board k, score',
            changed || rows.any fun i => decide (slideRow (board i) ≠ board i))
  | [], board, score, changed, _, _, hmin, hmax => by
    rw [List.map_nil, List.sum_nil, Int.add_zero, checkInt_eq_some.mpr ⟨rfl, hmin, hmax⟩,
      List.any_nil, Bool.or_false]
    simp only [List.not_mem_nil, if_false]
    rfl
  | i :: rows, board, score, changed, hnodup, hboard, hmin, hmax => by
    obtain ⟨hi, hnodup⟩ := List.nodup_cons.mp hnodup
    obtain ⟨hrow, hboard⟩ := List.forall_mem_cons.mp hboard
    have hrest : 0 ≤ (rows.map fun i => gain (board i)).sum := by
      refine List.sum_nonneg fun g hg => ?_
      obtain ⟨k, hk, rfl⟩ := List.mem_map.mp hg
      exact hgain _ (hboard k hk)
    rw [moveRows, hmove _ _ hrow hmin hmax, List.map_cons, List.sum_cons,
      ← checkInt_bind hmin (hgain _ hrow) hrest]
    cases hscore' : checkInt (score + gain (board i)) with
    | none => rfl
    | some score' =>
      obtain ⟨rfl, hmin', hmax'⟩ := checkInt_eq_some.mp hscore'
      have hsame : ∀ k ∈ rows, setRow board i (slideRow (board i)) k = board k :=
        fun k hk => setRow_of_ne fun heq => hi (heq ▸ hk)
      have hloop := moveRows_slide hmove hgain rows (setRow board i (slideRow (board i)))
        (score + gain (board i)) (changed || decide (slideRow (board i) ≠ board i)) hnodup
        (fun k hk => by rw [hsame k hk]; exact hboard k hk) hmin' hmax'
      rw [map_setRow hi gain, any_setRow hi fun row => decide (slideRow row ≠ row)] at hloop
      simp only [Option.bind_eq_bind, Option.bind_some]
      refine hloop.trans ?_
      rw [List.any_cons, Bool.or_assoc]
      refine congrArg _ (funext fun last => congrArg some (congrArg (Prod.mk · _) ?_))
      funext k
      by_cases hk : k = i
      · subst hk
        rw [if_neg hi, if_pos List.mem_cons_self, setRow_self]
      · rw [setRow_of_ne hk]
        refine if_congr ?_ rfl rfl
        rw [List.mem_cons, or_iff_right hk]

/-- What follows a change: the random tile, and the flags. -/
def afterChange (rands : Rands) (state : GameState) : GameState :=
  let state := (gameAddRandomTile rands state).2
  let state := { state with win := gameCheckWin state }
  { state with gameOver := gameCheckGameOver state }

theorem gameMove_slide (hmove : SlidesRow moveRow slideRow gain)
    (hgain : ∀ row, (∀ j, InRange (row j)) → 0 ≤ gain row)
    (hkept : ∀ row, (∀ j, InRange (row j)) → slideRow row = row → gain row = 0)
    (rands : Rands) {state : GameState} (hboard : ∀ i j, InRange (state.board i j))
    (hmin : -2 ^ 31 ≤ state.score) (hmax : state.score < 2 ^ 31) :
    gameMove moveRow rands state =
      (checkInt (state.score + ∑ i, gain (state.board i))).map fun score =>
        if (fun i => slideRow (state.board i)) = state.board then (false, state)
        else (true, afterChange rands
          { state with board := fun i => slideRow (state.board i), score := score }) := by
  have hsum : ((List.finRange size).map fun i => gain (state.board i)).sum =
      ∑ i, gain (state.board i) := by
    rw [← List.ofFn_eq_map, List.sum_ofFn]
  have hall : (fun k => if k ∈ List.finRange size then slideRow (state.board k)
      else state.board k) = fun k => slideRow (state.board k) :=
    funext fun k => if_pos (List.mem_finRange k)
  rw [gameMove, moveRows_slide hmove hgain (List.finRange size) state.board state.score false
    (List.nodup_finRange size) (fun i _ => hboard i) hmin hmax, hsum, hall, Bool.false_or]
  by_cases heq : (fun i => slideRow (state.board i)) = state.board
  · have hrow : ∀ i, slideRow (state.board i) = state.board i := congrFun heq
    have hzero : ∑ i, gain (state.board i) = 0 :=
      Finset.sum_eq_zero fun i _ => hkept _ (hboard i) (hrow i)
    have hany : ((List.finRange size).any fun i =>
        decide (slideRow (state.board i) ≠ state.board i)) = false :=
      List.any_eq_false.mpr fun i _ => by simp [hrow i]
    rw [hzero, Int.add_zero, checkInt_eq_some.mpr ⟨rfl, hmin, hmax⟩, Option.map_some, if_pos heq,
      hany, heq]
    rfl
  · obtain ⟨i, hi⟩ := Function.ne_iff.mp heq
    have hany : ((List.finRange size).any fun i =>
        decide (slideRow (state.board i) ≠ state.board i)) = true :=
      List.any_eq_true.mpr ⟨i, List.mem_finRange i, decide_eq_true hi⟩
    rw [hany]
    simp only [if_neg heq]
    cases checkInt (state.score + ∑ i, gain (state.board i)) with
    | none => rfl
    | some score => rfl

end Rows

/-! ## Directions -/

/-- Every line is slid. -/
theorem line_slide (direction : Direction) (board : Board) (k : Fin size) :
    direction.line (direction.slide board) k = slideLine (direction.line board k) := by
  funext distance
  cases direction with
  | left => rfl
  | right =>
    show slideLine (reverseRow (board k)) distance.rev.rev = _
    rw [Fin.rev_rev]
    rfl
  | up => rfl
  | down =>
    show slideLine (Direction.down.line board k) distance.rev.rev = _
    rw [Fin.rev_rev]

theorem boardSum_eq_lines (direction : Direction) (board : Board) :
    boardSum board = ∑ k, ∑ distance, direction.line board k distance := by
  cases direction with
  | left => rfl
  | right =>
    refine Finset.sum_congr rfl fun i _ => ?_
    exact (Equiv.sum_comp Fin.revPerm fun j => board i j).symm
  | up => exact Finset.sum_comm
  | down =>
    refine Finset.sum_comm.trans (Finset.sum_congr rfl fun j _ => ?_)
    exact (Equiv.sum_comp Fin.revPerm fun i => board i j).symm

theorem sum_tiles (row : Row) : (tiles row).sum = ∑ j, row j := by
  have hfilter : ∀ l : List Int, (l.filter (· ≠ 0)).sum = l.sum := by
    intro l
    induction l with
    | nil => rfl
    | cons v l ih =>
      rw [List.filter_cons]
      by_cases hv : v = 0
      · rw [if_neg (by simp [hv]), ih, List.sum_cons, hv, Int.zero_add]
      · rw [if_pos (by simp [hv]), List.sum_cons, List.sum_cons, ih]
  rw [tiles, hfilter, List.sum_ofFn]

theorem sum_slideLine (row : Row) : ∑ j, slideLine row j = ∑ j, row j := by
  have hlen : (mergePairs (tiles row)).length ≤ size := by
    have hcount := length_mergePairs (tiles row)
    have htiles := length_tiles row
    omega
  have hzeros : (List.replicate (size - (mergePairs (tiles row)).length) (0 : Int)).sum = 0 :=
    List.sum_eq_zero fun v hv => List.eq_of_mem_replicate hv
  rw [slideLine, ← List.sum_ofFn, ofFn_padRow hlen, List.sum_append, hzeros, Int.add_zero,
    sum_mergePairs, sum_tiles]

/-- A slide keeps the sum of all cells. -/
theorem boardSum_slide (direction : Direction) (board : Board) :
    boardSum (direction.slide board) = boardSum board := by
  rw [boardSum_eq_lines direction, boardSum_eq_lines direction board]
  refine Finset.sum_congr rfl fun k _ => ?_
  rw [line_slide, sum_slideLine]

/-- What follows a change, on the board as the move holds it: transposed for the vertical
ones. -/
def Direction.afterChange : Direction → Rands → GameState → GameState
  | .left, rands, state | .right, rands, state => Game.afterChange rands state
  | .up, rands, state | .down, rands, state =>
    transpose (Game.afterChange rands (transpose state))

theorem gain_eq_zero {row : Row} (h : ∀ j, InRange (row j)) (heq : slideLine row = row) :
    lineGain row = 0 := by
  rw [lineGain, mergedTiles_eq_nil h heq, List.sum_nil]

theorem gameMoveLeft_slide (rands : Rands) {state : GameState}
    (hboard : ∀ i j, InRange (state.board i j)) (hmin : -2 ^ 31 ≤ state.score)
    (hmax : state.score < 2 ^ 31) :
    gameMoveLeft rands state =
      (checkInt (state.score + Direction.left.gain state.board)).map fun score =>
        if Direction.left.slide state.board = state.board then (false, state)
        else (true, afterChange rands
          { state with board := Direction.left.slide state.board, score := score }) :=
  gameMove_slide moveRowLeft_slides (fun _ => lineGain_nonneg) (fun _ => gain_eq_zero) rands hboard
    hmin hmax

theorem gameMoveRight_slide (rands : Rands) {state : GameState}
    (hboard : ∀ i j, InRange (state.board i j)) (hmin : -2 ^ 31 ≤ state.score)
    (hmax : state.score < 2 ^ 31) :
    gameMoveRight rands state =
      (checkInt (state.score + Direction.right.gain state.board)).map fun score =>
        if Direction.right.slide state.board = state.board then (false, state)
        else (true, afterChange rands
          { state with board := Direction.right.slide state.board, score := score }) := by
  refine gameMove_slide moveRowRight_slides (fun row hrow => ?_) (fun row hrow heq => ?_) rands
    hboard hmin hmax
  · exact lineGain_nonneg fun j => hrow j.rev
  · exact gain_eq_zero (fun j => hrow j.rev) (reverseRow_eq_iff.mp heq)

theorem transpose_eq_iff {board board' : Board} :
    (fun i j => board j i) = (fun i j => board' j i) ↔ board = board' := by
  constructor
  · intro h
    funext i j
    exact congrFun (congrFun h j) i
  · rintro rfl
    rfl

/-- The vertical moves undo the transposition. -/
theorem map_transpose (rands : Rands) (state : GameState) (board : Board) (score : Option Int) :
    ((score.map fun score =>
      if board = (transpose state).board then (false, transpose state)
      else (true, afterChange rands { transpose state with board := board, score := score })).bind
        fun result => some (result.1, transpose result.2)) =
      score.map fun score =>
        if (fun i j => board j i) = state.board then (false, state)
        else (true, transpose (afterChange rands
          (transpose { state with board := fun i j => board j i, score := score }))) := by
  cases score with
  | none => rfl
  | some score =>
    have hiff : board = (transpose state).board ↔ (fun i j => board j i) = state.board :=
      transpose_eq_iff.symm
    by_cases heq : board = (transpose state).board
    · simp only [Option.map_some, Option.bind_some, if_pos heq, if_pos (hiff.mp heq)]
      rfl
    · simp only [Option.map_some, Option.bind_some, if_neg heq, if_neg (mt hiff.mpr heq)]
      rfl

/-- The moves follow the rules, as long as the score stays in its type. -/
theorem move_eq_slide (direction : Direction) (rands : Rands) (state : GameState)
    (hboard : ∀ i j, InRange (state.board i j)) (hmin : -2 ^ 31 ≤ state.score)
    (hmax : state.score < 2 ^ 31) :
    boardSum (direction.slide state.board) = boardSum state.board ∧
      direction.move rands state =
        (checkInt (state.score + direction.gain state.board)).map fun score =>
          if direction.slide state.board = state.board then (false, state)
          else (true, direction.afterChange rands
            { state with board := direction.slide state.board, score := score }) := by
  refine ⟨boardSum_slide direction state.board, ?_⟩
  cases direction with
  | left => exact gameMoveLeft_slide rands hboard hmin hmax
  | right => exact gameMoveRight_slide rands hboard hmin hmax
  | up =>
    have hleft := @gameMoveLeft_slide rands (transpose state) (fun i j => hboard j i) hmin hmax
    rw [Direction.move, gameMoveUp, hleft]
    exact map_transpose rands state _ _
  | down =>
    have hright := @gameMoveRight_slide rands (transpose state) (fun i j => hboard j i) hmin hmax
    rw [Direction.move, gameMoveDown, hright]
    exact map_transpose rands state _ _

theorem move_eq_slide_twos :
    boardSum (Direction.left.slide fun _ _ => 2) = boardSum (fun _ _ => 2) ∧
      (Direction.left.move ⟨0, 0⟩ ⟨fun _ _ => 2, 0, false, false⟩).map Prod.fst = some true := by
  obtain ⟨hsum, hmove⟩ := move_eq_slide .left ⟨0, 0⟩ ⟨fun _ _ => 2, 0, false, false⟩
    (fun _ _ => (by decide : InRange 2)) (by decide) (by decide)
  refine ⟨hsum, ?_⟩
  rw [hmove]
  decide

/-- Eight merges of the largest power of two in range overflow the score. -/
theorem move_overflow :
    (∀ i j : Fin size, InRange ((fun _ _ => 2 ^ 29 : Board) i j)) ∧
      Direction.left.move ⟨0, 0⟩ ⟨fun _ _ => 2 ^ 29, 0, false, false⟩ = none :=
  ⟨fun _ _ => (by decide : InRange (2 ^ 29)), rfl⟩

end CourseWork.Game
