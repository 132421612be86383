import CourseWork.Game.Leaderboard
import CourseWork.Lib.Runs

/-!
# The main loop of 2048

The loop of `main`: the four phases, the menu, the game and its entry in the leaderboard,
event by event. What `rand()` returns and what a load of the leaderboard finds are given
with the events. Each step answers with the calls it makes.
-/

namespace CourseWork.Game

open CLib

/-! ## The state -/

/-- `GamePhase`. -/
inductive GamePhase where
  | menu
  | play
  | controls
  | leaderboard
  deriving DecidableEq

/-- The keys that `main` tells apart; `enter` is either of the two. -/
inductive Key where
  | up
  | down
  | left
  | right
  | enter
  | escape
  | r
  | m
  | other
  deriving DecidableEq

/-- What the calls of one event get from outside. -/
structure Outside where
  first : Rands
  second : Rands
  loaded : List LeaderboardEntry

/-- What `SDL_PollEvent` returns. -/
inductive Event where
  | none
  | quit
  | keyDown (key : Key) (outside : Outside)
  | other

/-- The calls that matter for the game and its entry. -/
inductive Call where
  | gameInit
  | gameMove (direction : Direction)
  | addLeaderboardEntry (added : Bool)
  | saveLeaderboard (entries : List LeaderboardEntry)
  deriving DecidableEq

/-- The variables of `main`. -/
structure App where
  game : GameState
  currentPhase : GamePhase
  selectedMenuItem : Int
  leaderboard : List LeaderboardEntry
  running : Bool

/-- What `main` does before the loop. -/
def App.start (outside : Outside) : App where
  game := gameInit outside.first outside.second
  currentPhase := .menu
  selectedMenuItem := 0
  leaderboard := outside.loaded
  running := true

/-- `menuItemsCount`. -/
def menuItemsCount : Int := 4

/-- The name of every entry: "Игрок". -/
def playerName : Bytes := [0xd0, 0x98, 0xd0, 0xb3, 0xd1, 0x80, 0xd0, 0xbe, 0xd0, 0xba]

/-! ## The phases -/

/-- The chosen item of the menu. -/
def menuItem (outside : Outside) (app : App) : List Call × App :=
  if app.selectedMenuItem = 0 then
    ([.gameInit],
      { app with game := gameInit outside.first outside.second, currentPhase := .play })
  else if app.selectedMenuItem = 1 then ([], { app with currentPhase := .controls })
  else if app.selectedMenuItem = 2 then
    ([], { app with leaderboard := outside.loaded, currentPhase := .leaderboard })
  else if app.selectedMenuItem = 3 then ([], { app with running := false })
  else ([], app)

/-- A key in `PHASE_MENU`. -/
def menuKey (key : Key) (outside : Outside) (app : App) : List Call × App :=
  match key with
  | .up => ([], { app with
      selectedMenuItem := (app.selectedMenuItem - 1 + menuItemsCount).tmod menuItemsCount })
  | .down => ([], { app with
      selectedMenuItem := (app.selectedMenuItem + 1).tmod menuItemsCount })
  | .enter => menuItem outside app
  | .escape => ([], { app with running := false })
  | _ => ([], app)

/-- A move in `PHASE_PLAY`. -/
def playMove (direction : Direction) (outside : Outside) (app : App) :
    Option (List Call × App) := do
  let (_, game) ← direction.move outside.first app.game
  return ([.gameMove direction], { app with game := game })

/-- The `switch` on the key in `PHASE_PLAY`. -/
def playKey (key : Key) (outside : Outside) (app : App) : Option (List Call × App) :=
  match key with
  | .up => playMove .up outside app
  | .down => playMove .down outside app
  | .left => playMove .left outside app
  | .right => playMove .right outside app
  | .r => some ([.gameInit], { app with game := gameInit outside.first outside.second })
  | .escape => some ([], { app with currentPhase := .menu })
  | _ => some ([], app)

/-- What follows the `switch` in `PHASE_PLAY`. A game that is won goes on if its score does
not reach the leaderboard, a game that is over does not. -/
def playEnd (qsort : Qsort) (app : App) : Option (List Call × App) :=
  if app.game.win then do
    let (added, leaderboard) ←
      addLeaderboardEntry qsort app.leaderboard playerName app.game.score
    let app := { app with leaderboard := leaderboard }
    if added then
      return ([.addLeaderboardEntry true, .saveLeaderboard leaderboard],
        { app with currentPhase := .leaderboard })
    else return ([.addLeaderboardEntry false], app)
  else if app.game.gameOver then do
    let (added, leaderboard) ←
      addLeaderboardEntry qsort app.leaderboard playerName app.game.score
    let app := { app with leaderboard := leaderboard, currentPhase := .leaderboard }
    if added then return ([.addLeaderboardEntry true, .saveLeaderboard leaderboard], app)
    else return ([.addLeaderboardEntry false], app)
  else some ([], app)

/-- A key in `PHASE_CONTROLS` or `PHASE_LEADERBOARD`. -/
def pageKey (key : Key) (app : App) : List Call × App :=
  match key with
  | .escape => ([], { app with currentPhase := .menu })
  | _ => ([], app)

/-- A key in any phase. -/
def keyDown (qsort : Qsort) (key : Key) (outside : Outside) (app : App) :
    Option (List Call × App) :=
  match app.currentPhase with
  | .menu => some (menuKey key outside app)
  | .play => do
    let (calls, app) ← playKey key outside app
    let (endCalls, app) ← playEnd qsort app
    return (calls ++ endCalls, app)
  | .controls => some (pageKey key app)
  | .leaderboard => some (pageKey key app)

/-- One event. Only when there is none does the loop look at `running`, and if it has been
cleared the loop ends. -/
def App.step (qsort : Qsort) (event : Event) (app : App) : Option (List Call × App) :=
  match event with
  | .none => if app.running then some ([], app) else none
  | .quit => some ([], { app with running := false })
  | .keyDown key outside => keyDown qsort key outside app
  | .other => some ([], app)

/-! ## One entry for each game -/

/-- Whether the current game has its entry, call by call; `none` after a second entry or a
move of a game that has one. -/
def recorded (before : Bool) : Call → Option Bool
  | .gameInit => some false
  | .gameMove _ => if before then none else some false
  | .addLeaderboardEntry true => if before then none else some true
  | .addLeaderboardEntry false => some before
  | .saveLeaderboard _ => some before

section Recorded

variable {qsort : Qsort} {key : Key} {outside : Outside} {app app' : App} {calls : List Call}
  {after : Bool}

/-- A game that has its entry gets no other and is not moved. -/
theorem recorded_true (h : calls.foldlM recorded true = some after) (hnew : .gameInit ∉ calls) :
    .addLeaderboardEntry true ∉ calls ∧ ∀ direction, .gameMove direction ∉ calls := by
  induction calls with
  | nil => exact ⟨List.not_mem_nil, fun _ => List.not_mem_nil⟩
  | cons call calls ih =>
    obtain ⟨hcall, hrest⟩ := not_or.mp (mt List.mem_cons.mpr hnew)
    rw [List.foldlM_cons] at h
    cases call with
    | gameInit => exact absurd rfl hcall
    | gameMove direction => cases h
    | addLeaderboardEntry added =>
      cases added with
      | false =>
        obtain ⟨hentry, hmove⟩ := ih h hrest
        exact ⟨by simpa using hentry, fun direction => by simpa using hmove direction⟩
      | true => cases h
    | saveLeaderboard entries =>
      obtain ⟨hentry, hmove⟩ := ih h hrest
      exact ⟨by simpa using hentry, fun direction => by simpa using hmove direction⟩

/-- Without a new game there is at most one entry. -/
theorem recorded_count : ∀ {calls : List Call} {before : Bool},
    calls.foldlM recorded before = some after → .gameInit ∉ calls →
    calls.count (.addLeaderboardEntry true) ≤ 1
  | [], _, _, _ => Nat.zero_le 1
  | call :: calls, before, h, hnew => by
    obtain ⟨_, hnew⟩ := not_or.mp (mt List.mem_cons.mpr hnew)
    rw [List.foldlM_cons] at h
    obtain ⟨between, hcall, h⟩ := Option.bind_eq_some_iff.mp h
    by_cases hentry : call = .addLeaderboardEntry true
    · have hbetween : between = true := by
        rw [hentry, recorded] at hcall
        split at hcall
        · cases hcall
        · exact (Option.some.inj hcall).symm
      rw [hbetween] at h
      rw [hentry, List.count_cons_self, List.count_eq_zero.mpr (recorded_true h hnew).1]
    · rw [List.count_cons_of_ne hentry]
      exact recorded_count h hnew

theorem playKey_recorded (h : playKey key outside app = some (calls, app')) :
    calls.foldlM recorded false = some false := by
  have hmove : ∀ {direction : Direction}, playMove direction outside app = some (calls, app') →
      calls.foldlM recorded false = some false := by
    intro direction h
    obtain ⟨_, _, h⟩ := Option.bind_eq_some_iff.mp h
    cases h
    rfl
  cases key with
  | up => exact hmove h
  | down => exact hmove h
  | left => exact hmove h
  | right => exact hmove h
  | enter | escape | r | m | other =>
    cases h
    rfl

/-- With an entry the phase is left. -/
theorem playEnd_recorded (h : playEnd qsort app = some (calls, app')) :
    ∃ after, calls.foldlM recorded false = some after ∧
      (after = true → app'.currentPhase = .leaderboard) := by
  rw [playEnd] at h
  split at h
  · obtain ⟨⟨added, leaderboard⟩, _, h⟩ := Option.bind_eq_some_iff.mp h
    cases added with
    | false =>
      cases h
      exact ⟨false, rfl, fun h => absurd h (by decide)⟩
    | true =>
      cases h
      exact ⟨true, rfl, fun _ => rfl⟩
  · split at h
    · obtain ⟨⟨added, leaderboard⟩, _, h⟩ := Option.bind_eq_some_iff.mp h
      cases added with
      | false =>
        cases h
        exact ⟨false, rfl, fun h => absurd h (by decide)⟩
      | true =>
        cases h
        exact ⟨true, rfl, fun _ => rfl⟩
    · cases h
      exact ⟨false, rfl, fun h => absurd h (by decide)⟩

/-- In `PHASE_PLAY` the current game has no entry. -/
def Open (before : Bool) (app : App) : Prop := before = true → app.currentPhase ≠ .play

theorem Open.of_ne (before : Bool) (hphase : app.currentPhase ≠ .play) : Open before app :=
  fun _ => hphase

/-- A key in `PHASE_MENU`. Only a new game leads out to `PHASE_PLAY`. -/
theorem menuKey_recorded (before : Bool) (hphase : app.currentPhase = .menu)
    (h : menuKey key outside app = (calls, app')) :
    ∃ after, calls.foldlM recorded before = some after ∧ Open after app' := by
  have hstay : app.currentPhase ≠ .play := fun hplay => by simp [hphase] at hplay
  cases key with
  | enter =>
    rw [menuKey, menuItem] at h
    split_ifs at h
    · cases h
      exact ⟨false, rfl, fun h => absurd h (by decide)⟩
    · cases h
      exact ⟨before, rfl, .of_ne before (by simp)⟩
    · cases h
      exact ⟨before, rfl, .of_ne before (by simp)⟩
    · cases h
      exact ⟨before, rfl, .of_ne before hstay⟩
    · cases h
      exact ⟨before, rfl, .of_ne before hstay⟩
  | up | down | left | right | escape | r | m | other =>
    cases h
    exact ⟨before, rfl, .of_ne before hstay⟩

theorem pageKey_recorded (before : Bool) (hphase : app.currentPhase ≠ .play)
    (h : pageKey key app = (calls, app')) :
    ∃ after, calls.foldlM recorded before = some after ∧ Open after app' := by
  cases key with
  | escape =>
    cases h
    exact ⟨before, rfl, .of_ne before (by simp)⟩
  | up | down | left | right | enter | r | m | other =>
    cases h
    exact ⟨before, rfl, .of_ne before hphase⟩

theorem step_recorded (event : Event) (app : App) (before : Bool) (calls : List Call) (app' : App)
    (hopen : Open before app) (h : app.step qsort event = some (calls, app')) :
    ∃ after, calls.foldlM recorded before = some after ∧ Open after app' := by
  cases event with
  | none =>
    rw [App.step] at h
    split at h
    · cases h
      exact ⟨before, rfl, hopen⟩
    · cases h
  | quit =>
    cases h
    exact ⟨before, rfl, hopen⟩
  | other =>
    cases h
    exact ⟨before, rfl, hopen⟩
  | keyDown key outside =>
    rw [App.step, keyDown] at h
    cases hphase : app.currentPhase with
    | menu =>
      rw [hphase] at h
      exact menuKey_recorded before hphase (Option.some.inj h)
    | play =>
      rw [hphase] at h
      obtain ⟨⟨keyCalls, between⟩, hkey, h⟩ := Option.bind_eq_some_iff.mp h
      obtain ⟨⟨endCalls, last⟩, hend, h⟩ := Option.bind_eq_some_iff.mp h
      cases h
      have hbefore : before = false := Bool.eq_false_iff.mpr fun htrue => hopen htrue hphase
      obtain ⟨after, hrecorded, hafter⟩ := playEnd_recorded hend
      refine ⟨after, ?_, fun htrue => by rw [hafter htrue]; decide⟩
      rw [hbefore, List.foldlM_append, playKey_recorded hkey]
      exact hrecorded
    | controls =>
      rw [hphase] at h
      exact pageKey_recorded before (by simp [hphase]) (Option.some.inj h)
    | leaderboard =>
      rw [hphase] at h
      exact pageKey_recorded before (by simp [hphase]) (Option.some.inj h)

/-- Whatever the events, among the calls between two new games there is at most one entry in
the leaderboard, and no move behind it. -/
theorem one_entry_each_game (qsort : Qsort) (outside : Outside) (events : List Event)
    (calls : List (List Call)) (app : App)
    (hrun : Runs.answers (fun event app => App.step qsort event app) events (.start outside) =
      some (calls, app))
    (part : List Call) (hpart : part <:+: calls.flatten) (hgame : .gameInit ∉ part) :
    part.count (.addLeaderboardEntry true) ≤ 1 ∧
    ∀ before after : List Call, part = before ++ .addLeaderboardEntry true :: after →
      ∀ direction, .gameMove direction ∉ after := by
  obtain ⟨last, hwatch, _⟩ := Runs.answers_watched (I := Open) step_recorded events (t := false)
    (fun h => absurd h (by decide)) hrun
  obtain ⟨first, last, hpart⟩ := Runs.watched_infix hwatch hpart
  refine ⟨recorded_count hpart hgame, ?_⟩
  rintro before after rfl
  rw [List.foldlM_append] at hpart
  obtain ⟨between, _, hpart⟩ := Option.bind_eq_some_iff.mp hpart
  rw [List.foldlM_cons] at hpart
  obtain ⟨entered, hentry, hafter⟩ := Option.bind_eq_some_iff.mp hpart
  have hentered : entered = true := by
    rw [recorded] at hentry
    split at hentry
    · cases hentry
    · exact (Option.some.inj hentry).symm
  rw [hentered] at hafter
  exact (recorded_true hafter fun h => hgame (by simp [h])).2

end Recorded

/-! ### A game of 15 moves -/

/-- The key for a direction. -/
def keyOf : Direction → Key
  | .left => .left
  | .right => .right
  | .up => .up
  | .down => .down

/-- The game is chosen in the menu and played to its end. The keys behind it are a move on the page
of the leaderboard, the way back to the menu, a move there, and a new game with a move. -/
def shortEvents : List Event :=
  .keyDown .enter ⟨⟨11, 0⟩, ⟨3, 9⟩, []⟩ ::
    (shortGame.map fun move => .keyDown (keyOf move.1) ⟨move.2, ⟨0, 0⟩, []⟩) ++
    ([.left, .escape, .left, .enter, .right].map fun key => .keyDown key ⟨⟨0, 0⟩, ⟨0, 0⟩, []⟩)

/-- The entry is the last call but one for the game. -/
theorem one_entry_each_game_short : ∃ (calls : List (List Call)) (app : App),
    Runs.answers (fun event app => App.step (fun _ entries => some entries) event app) shortEvents
      (.start ⟨⟨0, 0⟩, ⟨0, 0⟩, []⟩) = some (calls, app) ∧
    calls.flatten = .gameInit :: (shortGame.map fun move => .gameMove move.1) ++
      [.addLeaderboardEntry true, .saveLeaderboard [⟨playerName, 8⟩], .gameInit,
        .gameMove .right] ∧
    ((shortGame.map fun move => Call.gameMove move.1) ++
      [Call.addLeaderboardEntry true, .saveLeaderboard [⟨playerName, 8⟩]]).count
        (Call.addLeaderboardEntry true) ≤ 1 ∧
    ∀ direction, Call.gameMove direction ∉ [Call.saveLeaderboard [⟨playerName, 8⟩]] := by
  have hcalls : (Runs.answers (fun event app => App.step (fun _ entries => some entries) event app)
      shortEvents (.start ⟨⟨0, 0⟩, ⟨0, 0⟩, []⟩)).map (fun result => result.1.flatten) =
      some (.gameInit :: (shortGame.map fun move => .gameMove move.1) ++
        [.addLeaderboardEntry true, .saveLeaderboard [⟨playerName, 8⟩], .gameInit,
          .gameMove .right]) := by decide +kernel
  obtain ⟨⟨calls, app⟩, hrun, hflatten⟩ := Option.map_eq_some_iff.mp hcalls
  obtain ⟨hcount, hmoves⟩ := one_entry_each_game _ _ _ calls app hrun
    ((shortGame.map fun move => .gameMove move.1) ++
      [.addLeaderboardEntry true, .saveLeaderboard [⟨playerName, 8⟩]])
    ⟨[.gameInit], [.gameInit, .gameMove .right], hflatten.symm⟩ (by decide)
  exact ⟨calls, app, hrun, hflatten, hcount, hmoves _ _ rfl⟩

end CourseWork.Game
