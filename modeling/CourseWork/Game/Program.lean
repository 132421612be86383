import CourseWork.Game.Bounds
import CourseWork.Game.MainLoop
import CourseWork.Game.TopTen

/-!
# The program

The loop of `main` plays games that `gameInit` and the moves lead to, and with the tables that it
writes itself no step of it is undefined: it goes on until it sees that `running` is cleared.
-/

namespace CourseWork.Game
open CLib Sorting

/-- A table as the program writes it: the scores of games. -/
structure Table (entries : List LeaderboardEntry) : Prop where
  length_le : entries.length ≤ maxLeaderboard
  range : ∀ e ∈ entries, 0 ≤ e.score ∧ e.score < 2 ^ 31

instance (entries : List LeaderboardEntry) : Decidable (Table entries) :=
  decidable_of_iff (entries.length ≤ maxLeaderboard ∧ ∀ e ∈ entries, 0 ≤ e.score ∧ e.score < 2 ^ 31)
    ⟨fun h => ⟨h.1, h.2⟩, fun h => ⟨h.1, h.2⟩⟩

/-- What the event may load is a table. -/
def Event.Loads : Event → Prop
  | .keyDown _ outside => Table outside.loaded
  | _ => True

instance (event : Event) : Decidable event.Loads :=
  match event with
  | .keyDown _ outside => inferInstanceAs (Decidable (Table outside.loaded))
  | .none | .quit | .other => isTrue trivial

/-- What the calls save are tables. -/
def Saves (calls : List Call) : Prop := ∀ entries, .saveLeaderboard entries ∈ calls → Table entries

/-- The game is one that can be played, and the leaderboard is a table. -/
structure Playing (app : App) : Prop where
  game : Reachable app.game
  table : Table app.leaderboard

section Steps

variable {qsort : Game.Qsort} {key : Key} {outside : Outside} {app : App}

theorem saves_nil : Saves [] := fun _ h => absurd h List.not_mem_nil

theorem Saves.append {calls calls' : List Call} (h : Saves calls) (h' : Saves calls') :
    Saves (calls ++ calls') :=
  fun entries hmem => (List.mem_append.mp hmem).elim (h entries) (h' entries)

/-- A score of a game gets into a table without an overflow. -/
theorem Table.add (hqsort : IsQsort qsort) {entries : List LeaderboardEntry} (h : Table entries)
    {score : Int} (hscore : 0 ≤ score ∧ score < 2 ^ 31) (name : Bytes) :
    ∃ added entries', addLeaderboardEntry qsort entries name score = some (added, entries') ∧
      Table entries' := by
  have hkept : ∀ e ∈ kept entries, 0 ≤ e.score ∧ e.score < 2 ^ 31 := by
    intro e he
    rw [kept] at he
    split at he
    · exact h.range e (List.mem_of_mem_take he)
    · exact h.range e he
  have hall : ∀ e ∈ kept entries ++ [⟨(cstr name).take (nameLength - 1), score⟩],
      0 ≤ e.score ∧ e.score < 2 ^ 31 :=
    List.forall_mem_append.mpr ⟨hkept, List.forall_mem_singleton.mpr hscore⟩
  rw [addLeaderboardEntry]
  split
  · have hcomparable : Comparable
        (scores (kept entries ++ [⟨(cstr name).take (nameLength - 1), score⟩])) := by
      intro a ha b hb
      obtain ⟨x, hx, rfl⟩ := List.mem_map.mp ha
      obtain ⟨y, hy, rfl⟩ := List.mem_map.mp hb
      have hxs := hall x hx
      have hys := hall y hy
      omega
    obtain ⟨sorted, hsorted, hperm, _⟩ := sorts_comparable hqsort hcomparable
    refine ⟨true, sorted, ?_, ⟨?_, fun e he => hall e (hperm.subset he)⟩⟩
    · unfold kept at hsorted
      simp only [hsorted, Option.bind_eq_bind, Option.bind_some]
      rfl
    · rw [hperm.length_eq, List.length_append, List.length_singleton]
      exact length_kept_lt h.length_le
  · exact ⟨false, entries, rfl, h⟩

/-- A key in `PHASE_MENU`. -/
theorem menuKey_plays (h : Playing app) (hload : Table outside.loaded) :
    Playing (menuKey key outside app).2 ∧ Saves (menuKey key outside app).1 := by
  cases key with
  | enter =>
    rw [menuKey, menuItem]
    split_ifs
    · exact ⟨⟨.init outside.first outside.second, h.table⟩, fun _ hmem => by simp at hmem⟩
    · exact ⟨⟨h.game, h.table⟩, saves_nil⟩
    · exact ⟨⟨h.game, hload⟩, saves_nil⟩
    · exact ⟨⟨h.game, h.table⟩, saves_nil⟩
    · exact ⟨h, saves_nil⟩
  | up | down | escape => exact ⟨⟨h.game, h.table⟩, saves_nil⟩
  | left | right | r | m | other => exact ⟨h, saves_nil⟩

theorem pageKey_plays (h : Playing app) :
    Playing (pageKey key app).2 ∧ Saves (pageKey key app).1 := by
  cases key with
  | escape => exact ⟨⟨h.game, h.table⟩, saves_nil⟩
  | up | down | left | right | enter | r | m | other => exact ⟨h, saves_nil⟩

theorem playMove_plays (direction : Direction) (h : Playing app) :
    ∃ calls app', playMove direction outside app = some (calls, app') ∧ Playing app' ∧
      Saves calls := by
  obtain ⟨changed, game, hmove, _⟩ := h.game.bounded.move direction outside.first
  refine ⟨[.gameMove direction], { app with game := game }, ?_,
    ⟨h.game.move direction outside.first hmove, h.table⟩, fun _ hmem => by simp at hmem⟩
  rw [playMove, hmove]
  rfl

/-- A key in `PHASE_PLAY`. -/
theorem playKey_plays (key : Key) (outside : Outside) (h : Playing app) :
    ∃ calls app', playKey key outside app = some (calls, app') ∧ Playing app' ∧ Saves calls := by
  cases key with
  | up => exact playMove_plays .up h
  | down => exact playMove_plays .down h
  | left => exact playMove_plays .left h
  | right => exact playMove_plays .right h
  | r =>
    exact ⟨_, _, rfl, ⟨.init outside.first outside.second, h.table⟩, fun _ hmem => by simp at hmem⟩
  | escape => exact ⟨_, _, rfl, ⟨h.game, h.table⟩, saves_nil⟩
  | enter | m | other => exact ⟨_, _, rfl, h, saves_nil⟩

/-- The entry of a game that has ended. -/
theorem playEnd_plays (hqsort : IsQsort qsort) (h : Playing app) :
    ∃ calls app', playEnd qsort app = some (calls, app') ∧ Playing app' ∧ Saves calls := by
  have hscore : 0 ≤ app.game.score ∧ app.game.score < 2 ^ 31 :=
    ⟨h.game.bounded.score_nonneg, h.game.bounded.score_lt.trans (by decide)⟩
  obtain ⟨added, entries, hadd, htable⟩ := h.table.add hqsort hscore playerName
  have hsaves : Saves [.addLeaderboardEntry true, .saveLeaderboard entries] := by
    intro entries' hmem
    have heq : entries' = entries := by simpa using hmem
    exact heq ▸ htable
  have hnone : Saves [.addLeaderboardEntry false] := fun _ hmem => by simp at hmem
  rw [playEnd, hadd]
  split
  · cases added with
    | true => exact ⟨_, _, rfl, ⟨h.game, htable⟩, hsaves⟩
    | false => exact ⟨_, _, rfl, ⟨h.game, htable⟩, hnone⟩
  · split
    · cases added with
      | true => exact ⟨_, _, rfl, ⟨h.game, htable⟩, hsaves⟩
      | false => exact ⟨_, _, rfl, ⟨h.game, htable⟩, hnone⟩
    · exact ⟨_, _, rfl, h, saves_nil⟩

/-- An event is handled, or there is none and the loop ends. -/
theorem step_plays (hqsort : IsQsort qsort) (h : Playing app) {event : Event}
    (hload : event.Loads) :
    (event = .none ∧ app.running = false) ∨
      ∃ calls app', app.step qsort event = some (calls, app') ∧ Playing app' ∧ Saves calls := by
  cases event with
  | none =>
    cases hrunning : app.running with
    | false => exact .inl ⟨rfl, rfl⟩
    | true => exact .inr ⟨[], app, if_pos hrunning, h, saves_nil⟩
  | quit => exact .inr ⟨_, _, rfl, ⟨h.game, h.table⟩, saves_nil⟩
  | other => exact .inr ⟨_, _, rfl, h, saves_nil⟩
  | keyDown key outside =>
    right
    rw [App.step, keyDown]
    cases app.currentPhase with
    | menu => exact ⟨_, _, rfl, menuKey_plays h hload⟩
    | controls | leaderboard => exact ⟨_, _, rfl, pageKey_plays h⟩
    | play =>
      obtain ⟨calls, between, hkey, hbetween, hsaves⟩ := playKey_plays key outside h
      obtain ⟨endCalls, last, hend, hlast, hendSaves⟩ := playEnd_plays hqsort hbetween
      refine ⟨calls ++ endCalls, last, ?_, hlast, hsaves.append hendSaves⟩
      simp only [hkey, hend, Option.bind_eq_bind, Option.bind_some]
      rfl

/-- From any point of the loop: the events are handled up to the last one, or up to the end of
the loop. -/
theorem run_plays (hqsort : IsQsort qsort) : ∀ (events : List Event) {app : App}, Playing app →
    (∀ event ∈ events, event.Loads) →
    ∃ before after calls app', events = before ++ after ∧
      Runs.answers (fun event app => App.step qsort event app) before app = some (calls, app') ∧
      Playing app' ∧ Saves calls.flatten ∧
      (after = [] ∨ (app'.running = false ∧ after.head? = some .none))
  | [], app, h, _ => ⟨[], [], [], app, rfl, rfl, h, saves_nil, .inl rfl⟩
  | event :: events, app, h, hloads => by
    obtain ⟨hload, hloads⟩ := List.forall_mem_cons.mp hloads
    rcases step_plays hqsort h hload with ⟨rfl, hrunning⟩ | ⟨calls, next, hstep, hnext, hsaves⟩
    · exact ⟨[], .none :: events, [], app, rfl, rfl, h, saves_nil, .inr ⟨hrunning, rfl⟩⟩
    · obtain ⟨before, after, rest, app', rfl, hrun, hplaying, hrest, hend⟩ :=
        run_plays hqsort events hnext hloads
      refine ⟨event :: before, after, calls :: rest, app', rfl, ?_, hplaying,
        hsaves.append hrest, hend⟩
      rw [Runs.answers, hstep]
      simp only [Option.bind_eq_bind, Option.bind_some, hrun]
      rfl

end Steps

/-! ## The program from its start -/

/-- Whatever the events and `rand()` are, if the tables that are loaded are such as the program
saves, `main` handles one event after the other, in a state with a game that can be played and a
table, and saves tables, until it has handled all of them, or finds no event and `running`
cleared. -/
theorem program_plays {qsort : Game.Qsort} (hqsort : IsQsort qsort) (outside : Outside)
    (events : List Event) (hstart : Table outside.loaded) (hloads : ∀ event ∈ events, event.Loads) :
    ∃ before after calls app, events = before ++ after ∧
      Runs.answers (fun event app => App.step qsort event app) before (.start outside) =
        some (calls, app) ∧
      Playing app ∧ Saves calls.flatten ∧
      (after = [] ∨ (app.running = false ∧ after.head? = some .none)) :=
  run_plays hqsort events ⟨.init outside.first outside.second, hstart⟩ hloads

/-- A game of 15 moves, then the window is closed. -/
theorem program_plays_short :
    ∃ before after calls app, shortEvents ++ [.quit, .other, .none, .none] = before ++ after ∧
      Runs.answers (fun event app => App.step checkedSort event app) before
        (.start ⟨⟨0, 0⟩, ⟨0, 0⟩, [⟨playerName, 4⟩]⟩) = some (calls, app) ∧
      Playing app ∧ Saves calls.flatten ∧
      (after = [] ∨ (app.running = false ∧ after.head? = some .none)) :=
  program_plays isQsort_checkedSort ⟨⟨0, 0⟩, ⟨0, 0⟩, [⟨playerName, 4⟩]⟩
    (shortEvents ++ [.quit, .other, .none, .none]) (by decide +kernel) (by decide +kernel)

end CourseWork.Game
