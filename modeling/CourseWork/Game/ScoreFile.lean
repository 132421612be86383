import CourseWork.Game.Leaderboard
import CourseWork.Lib.Stdio
import CourseWork.Lib.Sorting

/-!
# The score file of 2048

Loading and saving of the leaderboard. The tables that `addLeaderboardEntry` builds come back
from their file exactly if every name is one word.
-/

namespace CourseWork.Game
open CLib Sorting

/-! ## Loading and saving -/

/-- The size of `line` in `loadLeaderboard`. -/
def lineLength : Nat := 256

/-- `sscanf(line, "%19s %d", name, &score)` and the entry that is made of it. -/
def readEntry (line : Bytes) : Option LeaderboardEntry := do
  let (name, rest) ← scanWord 19 (cstr line)
  let score ← scanInt rest
  return ⟨name.take (nameLength - 1), score⟩

/-- The loop of `loadLeaderboard` over the lines. -/
def loadLines (maxEntries : Nat) : List Bytes → List LeaderboardEntry → List LeaderboardEntry
  | [], entries => entries
  | line :: lines, entries =>
    if entries.length < maxEntries then
      loadLines maxEntries lines (entries ++ (readEntry line).toList)
    else entries

/-- `loadLeaderboard`, on a file that may be missing. -/
def loadLeaderboard (file : Option Bytes) (maxEntries : Nat) : List LeaderboardEntry :=
  match file with
  | none => []
  | some content => loadLines maxEntries (fgetsLines lineLength content.length content) []

/-- The line `"%s %d\n"` of an entry. -/
def entryLine (entry : LeaderboardEntry) : Bytes :=
  entry.name ++ 32 :: (printInt entry.score ++ [10])

/-- `saveLeaderboard`: what the file holds after it. -/
def saveLeaderboard (entries : List LeaderboardEntry) : Bytes := entries.flatMap entryLine

/-! ## What is loaded -/

theorem readEntry_isWord {line : Bytes} {entry : LeaderboardEntry}
    (h : readEntry line = some entry) : IsWord entry.name := by
  obtain ⟨⟨name, rest⟩, hname, h⟩ := Option.bind_eq_some_iff.mp h
  obtain ⟨score, _, h⟩ := Option.bind_eq_some_iff.mp h
  cases h
  obtain ⟨⟨hne, hspaces⟩, hlen⟩ := scanWord_some hname
  have htake : name.take (nameLength - 1) = name := List.take_of_length_le hlen
  refine ⟨?_, fun c hc => hspaces c (List.mem_of_mem_take hc)⟩
  exact htake.symm ▸ hne

/-- What holds of every entry that is read holds of the loaded ones. -/
theorem loadLines_forall {P : LeaderboardEntry → Prop} {maxEntries : Nat}
    (hread : ∀ line entry, readEntry line = some entry → P entry) :
    ∀ (lines : List Bytes) (entries : List LeaderboardEntry), (∀ e ∈ entries, P e) →
      ∀ e ∈ loadLines maxEntries lines entries, P e
  | [], _, hentries => hentries
  | line :: lines, entries, hentries => by
    unfold loadLines
    split
    · refine loadLines_forall hread lines _ (List.forall_mem_append.mpr ⟨hentries, ?_⟩)
      intro e he
      exact hread line e (Option.mem_toList.mp he)
    · exact hentries

/-- No more entries are loaded than the table has room for. -/
theorem length_loadLines {maxEntries : Nat} : ∀ (lines : List Bytes)
    (entries : List LeaderboardEntry), entries.length ≤ maxEntries →
    (loadLines maxEntries lines entries).length ≤ maxEntries
  | [], _, h => h
  | line :: lines, entries, h => by
    unfold loadLines
    split
    · next hroom =>
      refine length_loadLines lines _ ?_
      rw [List.length_append]
      have hone : (readEntry line).toList.length ≤ 1 := Option.length_toList_le
      omega
    · exact h

theorem loadLeaderboard_isWord (file : Option Bytes) (maxEntries : Nat) :
    ∀ e ∈ loadLeaderboard file maxEntries, IsWord e.name := by
  cases file with
  | none => exact nofun
  | some content => exact loadLines_forall (fun _ _ => readEntry_isWord) _ [] nofun

theorem length_loadLeaderboard (file : Option Bytes) (maxEntries : Nat) :
    (loadLeaderboard file maxEntries).length ≤ maxEntries := by
  cases file with
  | none => exact Nat.zero_le _
  | some content => exact length_loadLines _ [] (Nat.zero_le _)

/-! ## Tables -/

/-- The tables that calls of `addLeaderboardEntry` build. -/
inductive Built (qsort : Game.Qsort) : List LeaderboardEntry → Prop
  | empty : Built qsort []
  | add {entries entries' : List LeaderboardEntry} {added : Bool} (name : Bytes) (score : Int) :
      Built qsort entries → -2 ^ 31 ≤ score → score < 2 ^ 31 →
      addLeaderboardEntry qsort entries name score = some (added, entries') →
      Built qsort entries'

/-- An entry whose members have the types of the source. -/
structure LeaderboardEntry.Fits (entry : LeaderboardEntry) : Prop where
  name_length : entry.name.length ≤ nameLength - 1
  name_nul : 0 ∉ entry.name
  score_min : -2 ^ 31 ≤ entry.score
  score_max : entry.score < 2 ^ 31

/-- What a call of `addLeaderboardEntry` can do. -/
theorem addLeaderboardEntry_cases {qsort : Game.Qsort} {entries entries' : List LeaderboardEntry}
    {name : Bytes} {score : Int} {added : Bool}
    (h : addLeaderboardEntry qsort entries name score = some (added, entries')) :
    (added = false ∧ isHighScore entries score = false ∧ entries' = entries) ∨
      (added = true ∧ isHighScore entries score = true ∧
        qsort compareEntries
          ((if maxLeaderboard ≤ entries.length then entries.take (maxLeaderboard - 1) else entries)
            ++ [⟨(cstr name).take (nameLength - 1), score⟩]) = some entries') := by
  unfold addLeaderboardEntry at h
  split at h
  · next hhigh =>
    obtain ⟨sorted, hsorted, h⟩ := Option.bind_eq_some_iff.mp h
    cases h
    exact .inr ⟨rfl, hhigh, hsorted⟩
  · next hlow =>
    cases h
    exact .inl ⟨rfl, Bool.eq_false_of_not_eq_true hlow, rfl⟩

theorem Built.fits {qsort : Game.Qsort} (hqsort : IsQsort qsort)
    {entries : List LeaderboardEntry} (h : Built qsort entries) :
    entries.length ≤ maxLeaderboard ∧ ∀ e ∈ entries, e.Fits := by
  induction h with
  | empty => exact ⟨Nat.zero_le _, nofun⟩
  | @add entries entries' added name score _ hmin hmax hadd ih =>
    obtain ⟨hlen, hfits⟩ := ih
    rcases addLeaderboardEntry_cases hadd with ⟨_, _, rfl⟩ | ⟨_, _, hsorted⟩
    · exact ⟨hlen, hfits⟩
    · have hperm := hqsort.perm hsorted
      have hentry : LeaderboardEntry.Fits ⟨(cstr name).take (nameLength - 1), score⟩ :=
        ⟨List.length_take_le _ _, fun hnul => not_mem_cstr name (List.mem_of_mem_take hnul), hmin,
          hmax⟩
      refine ⟨?_, fun e he => ?_⟩
      · rw [hperm.length_eq, List.length_append, List.length_singleton]
        split
        · rw [List.length_take, maxLeaderboard]
          omega
        · omega
      · rcases List.mem_append.mp (hperm.subset he) with he | he
        · refine hfits e ?_
          split at he
          · exact List.mem_of_mem_take he
          · exact he
        · rw [List.mem_singleton.mp he]
          exact hentry

/-! ## Round trips -/

/-- A byte that is neither a digit nor a sign nor a space is not in the line, if it is not in
the name. -/
theorem notMem_entryLine {entry : LeaderboardEntry} {c : UInt8} (hname : c ∉ entry.name)
    (hsign : c ≠ 45) (hdigit : Numeral.isDigit 10 c = false) (hspace : c ≠ 32) :
    c ∉ entry.name ++ 32 :: printInt entry.score := by
  intro hmem
  rcases List.mem_append.mp hmem with hmem | hmem
  · exact hname hmem
  · rcases List.mem_cons.mp hmem with hmem | hmem
    · exact hspace hmem
    · rcases mem_printInt hmem with hmem | hmem
      · exact hsign hmem
      · rw [hdigit] at hmem
        cases hmem

/-- An `int` has at most ten digits and a sign. -/
theorem LeaderboardEntry.Fits.length_printInt {entry : LeaderboardEntry} (h : entry.Fits) :
    (printInt entry.score).length ≤ 11 := by
  have hmin := h.score_min
  have hmax := h.score_max
  have hdigits : (Numeral.print 10 entry.score.natAbs).length ≤ 10 :=
    Numeral.length_print_le (by decide) (by decide) (by omega)
  unfold printInt
  split
  · exact Nat.succ_le_succ hdigits
  · exact Nat.le_succ_of_le hdigits

theorem readEntry_entryLine {entry : LeaderboardEntry} (hfits : entry.Fits)
    (hword : IsWord entry.name) : readEntry (entryLine entry) = some entry := by
  have hline : entryLine entry = (entry.name ++ 32 :: printInt entry.score) ++ [10] := by
    rw [entryLine, List.append_assoc, List.cons_append]
  have hnul : 0 ∉ entryLine entry := by
    rw [hline, List.mem_append, not_or]
    exact ⟨notMem_entryLine hfits.name_nul (by decide) (by decide) (by decide), by decide⟩
  have hcstr : cstr (entryLine entry) = entryLine entry :=
    List.takeWhile_eq_self_iff.mpr fun c hc => bne_iff_ne.mpr fun heq => hnul (heq ▸ hc)
  have htake : entry.name.take (nameLength - 1) = entry.name :=
    List.take_of_length_le hfits.name_length
  have hlen : entry.name.length ≤ 19 := hfits.name_length
  rw [readEntry, hcstr, entryLine, scanWord_append hword hlen (by decide)]
  simp only [Option.bind_eq_bind, Option.bind_some,
    scanInt_printInt hfits.score_min hfits.score_max (c := 10) (by decide), htake]
  rfl

theorem loadLines_map {maxEntries : Nat} : ∀ (entries loaded : List LeaderboardEntry),
    (∀ e ∈ entries, readEntry (entryLine e) = some e) →
    loaded.length + entries.length ≤ maxEntries →
    loadLines maxEntries (entries.map entryLine) loaded = loaded ++ entries
  | [], loaded, _, _ => (List.append_nil loaded).symm
  | entry :: entries, loaded, hread, hlen => by
    obtain ⟨hentry, hread⟩ := List.forall_mem_cons.mp hread
    rw [List.length_cons] at hlen
    rw [List.map_cons, loadLines, if_pos (by omega), hentry, loadLines_map entries _ hread]
    · rw [Option.toList_some, List.append_assoc, List.singleton_append]
    · rw [Option.toList_some, List.length_append, List.length_singleton]
      omega

/-- A table comes back from its file exactly if every name is one word. -/
theorem load_save_iff {qsort : Game.Qsort} (hqsort : IsQsort qsort)
    {entries : List LeaderboardEntry} (h : Built qsort entries) :
    loadLeaderboard (some (saveLeaderboard entries)) maxLeaderboard = entries ↔
      ∀ e ∈ entries, IsWord e.name := by
  obtain ⟨hlen, hfits⟩ := h.fits hqsort
  constructor
  · intro hload e he
    rw [← hload] at he
    exact loadLeaderboard_isWord _ _ e he
  · intro hword
    have hlines : ∀ line ∈ entries.map entryLine,
        ∃ text, line = text ++ [10] ∧ 10 ∉ text ∧ text.length + 2 ≤ lineLength := by
      intro line hline
      obtain ⟨e, he, rfl⟩ := List.mem_map.mp hline
      refine ⟨e.name ++ 32 :: printInt e.score, ?_, ?_, ?_⟩
      · rw [entryLine, List.append_assoc, List.cons_append]
      · refine notMem_entryLine (fun hmem => ?_) (by decide) (by decide) (by decide)
        exact absurd ((hword e he).2 10 hmem) (by decide)
      · have hname := (hfits e he).name_length
        have hscore := (hfits e he).length_printInt
        rw [List.length_append, List.length_cons, lineLength]
        unfold nameLength at hname
        omega
    have hcount : (entries.map entryLine).length ≤ (saveLeaderboard entries).length := by
      refine length_le_flatten fun line hline => ?_
      obtain ⟨text, rfl, _⟩ := hlines line hline
      exact List.append_ne_nil_of_right_ne_nil _ (List.cons_ne_nil _ _)
    have hfgets : fgetsLines lineLength (saveLeaderboard entries).length (saveLeaderboard entries) =
        entries.map entryLine := fgetsLines_flatten hlines hcount
    rw [loadLeaderboard, hfgets, loadLines_map entries [] (fun e he => ?_) (by simpa using hlen)]
    · rfl
    · exact readEntry_entryLine (hfits e he) (hword e he)

/-- A table of two players. -/
theorem load_save_iff_two :
    ∃ entries, Built checkedSort entries ∧ entries.length = 2 ∧
      loadLeaderboard (some (saveLeaderboard entries)) maxLeaderboard = entries := by
  have hfirst : addLeaderboardEntry checkedSort [] (ascii "Igor") 12 =
      some (true, [⟨ascii "Igor", 12⟩]) := by decide +kernel
  have hsecond : addLeaderboardEntry checkedSort [⟨ascii "Igor", 12⟩] (ascii "Anna") 2048 =
      some (true, [⟨ascii "Anna", 2048⟩, ⟨ascii "Igor", 12⟩]) := by decide +kernel
  have hbuilt : Built checkedSort [⟨ascii "Anna", 2048⟩, ⟨ascii "Igor", 12⟩] :=
    .add _ _ (.add _ _ .empty (by decide) (by decide) hfirst) (by decide) (by decide) hsecond
  refine ⟨_, hbuilt, rfl, (load_save_iff isQsort_checkedSort hbuilt).mpr ?_⟩
  decide +kernel

/-- A name of two words is lost. -/
theorem save_two_words :
    ∃ entries, Built checkedSort entries ∧
      loadLeaderboard (some (saveLeaderboard entries)) maxLeaderboard = [] ∧ entries ≠ [] := by
  have hadd : addLeaderboardEntry checkedSort [] (ascii "A B") 5 =
      some (true, [⟨ascii "A B", 5⟩]) := by decide +kernel
  exact ⟨_, .add _ _ .empty (by decide) (by decide) hadd, by decide +kernel, List.cons_ne_nil _ _⟩

end CourseWork.Game
