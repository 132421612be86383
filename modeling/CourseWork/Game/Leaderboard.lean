import CourseWork.Game.Moves
import CourseWork.Lib.CLib

/-!
# The leaderboard of 2048

The table of the best scores. A list of entries is the used part of the array, so its
length is `count`.
-/

namespace CourseWork.Game

open CLib

/-- `MAX_LEADERBOARD`. -/
def maxLeaderboard : Nat := 10

/-- `NAME_LENGTH`. -/
def nameLength : Nat := 20

/-- `LeaderboardEntry`, the name without its NUL. -/
structure LeaderboardEntry where
  name : Bytes
  score : Int
  deriving DecidableEq

/-- `compareEntries`. A difference that does not fit an `int` is undefined. -/
def compareEntries (a b : LeaderboardEntry) : Option Int := checkInt (b.score - a.score)

/-- `qsort` on entries; `none` if it asks for a comparison that is undefined. -/
abbrev Qsort :=
  (LeaderboardEntry → LeaderboardEntry → Option Int) → List LeaderboardEntry →
    Option (List LeaderboardEntry)

/-- `isHighScore`. -/
def isHighScore (entries : List LeaderboardEntry) (score : Int) : Bool :=
  if entries.length < maxLeaderboard then true
  else entries.getLast?.any fun last => last.score < score

/-- `addLeaderboardEntry`: the result and the table. -/
def addLeaderboardEntry (qsort : Qsort) (entries : List LeaderboardEntry) (name : Bytes)
    (score : Int) : Option (Bool × List LeaderboardEntry) :=
  if isHighScore entries score then do
    let entries :=
      if maxLeaderboard ≤ entries.length then entries.take (maxLeaderboard - 1) else entries
    let entry : LeaderboardEntry := ⟨(cstr name).take (nameLength - 1), score⟩
    let entries ← qsort compareEntries (entries ++ [entry])
    return (true, entries)
  else some (false, entries)

end CourseWork.Game
