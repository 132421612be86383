import CourseWork.Game.ScoreFile
import CourseWork.Lib.Runs

/-!
# The leaderboard as the ten best scores

Runs of `addLeaderboardEntry` from a loaded table. The table is the ten best of the loaded and
the offered scores as long as its last entry is the smallest one and no comparison overflows.
-/

namespace CourseWork.Game
open CLib Sorting Runs

/-- A name and a score that are offered. -/
abbrev Offer := Bytes × Int

/-- A call of `addLeaderboardEntry`. -/
def AddStep (qsort : Game.Qsort) (entries : List LeaderboardEntry) (offer : Offer)
    (entries' : List LeaderboardEntry) : Prop :=
  ∃ added, addLeaderboardEntry qsort entries offer.1 offer.2 = some (added, entries')

/-- The scores of a table. -/
def scores (entries : List LeaderboardEntry) : List Int := entries.map LeaderboardEntry.score

/-- No comparison of two of the scores overflows. -/
def Comparable (scores : List Int) : Prop := ∀ a ∈ scores, ∀ b ∈ scores, b - a < 2 ^ 31

/-- The entries that stay when one is added. -/
def kept (entries : List LeaderboardEntry) : List LeaderboardEntry :=
  if maxLeaderboard ≤ entries.length then entries.take (maxLeaderboard - 1) else entries

/-- The last entry of a full table, or the offered score, is the smallest one, and the scores
that are sorted can be compared. -/
structure Sound (entries : List LeaderboardEntry) (score : Int) : Prop where
  smallest : maxLeaderboard ≤ entries.length → ∀ last ∈ entries.getLast?,
    ∀ e ∈ entries, min last.score score ≤ e.score
  comparable : isHighScore entries score → Comparable (scores (kept entries) ++ [score])

section Steps

variable {qsort : Game.Qsort} {entries entries' : List LeaderboardEntry} {seen : List Int}
  {name : Bytes} {score : Int}

theorem scores_concat (entries : List LeaderboardEntry) (entry : LeaderboardEntry) :
    scores (entries ++ [entry]) = scores entries ++ [entry.score] := List.map_append

/-- The sort that ends an addition. -/
theorem sorts_comparable (hqsort : IsQsort qsort) (h : Comparable (scores entries)) :
    ∃ sorted, qsort compareEntries entries = some sorted ∧ sorted.Perm entries ∧
      sorted.Pairwise fun a b => b.score ≤ a.score := by
  refine hqsort.sorts_by_key LeaderboardEntry.score fun a ha b hb => ?_
  have hab := h a.score (List.mem_map_of_mem ha) b.score (List.mem_map_of_mem hb)
  have hba := h b.score (List.mem_map_of_mem hb) a.score (List.mem_map_of_mem ha)
  refine ⟨b.score - a.score, ?_, ?_⟩
  · rw [compareEntries, checkInt, if_pos (by omega)]
  · omega

/-- A full table, by its last entry. -/
theorem exists_last (hfull : entries.length = maxLeaderboard) :
    ∃ first last, entries = first ++ [last] ∧ entries.getLast? = some last ∧
      entries.take (maxLeaderboard - 1) = first := by
  rcases List.eq_nil_or_concat' entries with rfl | ⟨first, last, rfl⟩
  · cases hfull
  · rw [List.length_append, List.length_singleton] at hfull
    refine ⟨first, last, rfl, List.getLast?_concat, ?_⟩
    rw [List.take_append_of_le_length (by omega), List.take_of_length_le (by omega)]

/-- Every offer that the condition allows is answered. -/
theorem addLeaderboardEntry_defined (hqsort : IsQsort qsort) (h : Sound entries score)
    (name : Bytes) : ∃ entries', AddStep qsort entries (name, score) entries' := by
  by_cases hhigh : isHighScore entries score = true
  · have hcomparable := h.comparable hhigh
    have hscores : scores (kept entries) ++ [score] =
        scores (kept entries ++ [⟨(cstr name).take (nameLength - 1), score⟩]) :=
      (scores_concat (kept entries) ⟨(cstr name).take (nameLength - 1), score⟩).symm
    rw [hscores] at hcomparable
    obtain ⟨sorted, hsorted, _⟩ := sorts_comparable hqsort hcomparable
    refine ⟨sorted, true, ?_⟩
    unfold kept at hsorted
    rw [addLeaderboardEntry, if_pos hhigh]
    simp only [hsorted, Option.bind_eq_bind, Option.bind_some]
    rfl
  · exact ⟨entries, false, if_neg hhigh⟩

/-- A score that is not high is not larger than any in the table. -/
theorem rejected_holds (h : Sound entries score) (hlen : entries.length ≤ maxLeaderboard)
    (hholds : Holds maxLeaderboard (scores entries) seen)
    (hlow : isHighScore entries score = false) :
    Holds maxLeaderboard (scores entries) (seen ++ [score]) := by
  have hlength : (scores entries).length = entries.length := List.length_map _
  unfold isHighScore at hlow
  split at hlow
  · cases hlow
  · next hge =>
    have hfull : entries.length = maxLeaderboard := by omega
    obtain ⟨first, last, heq, hlast, _⟩ := exists_last hfull
    have hsmall := h.smallest (Nat.le_of_eq hfull.symm) last hlast
    have hle : score ≤ last.score := by
      rw [hlast, Option.any_some, decide_eq_false_iff_not] at hlow
      omega
    rw [min_eq_right hle] at hsmall
    refine hholds.reject (hlength.trans hfull) fun b hb => ?_
    obtain ⟨e, he, rfl⟩ := List.mem_map.mp hb
    exact hsmall e he

/-- A high score takes the place of the smallest one, or a free place. -/
theorem admitted_holds (h : Sound entries score) (hlen : entries.length ≤ maxLeaderboard)
    (hholds : Holds maxLeaderboard (scores entries) seen)
    (hhigh : isHighScore entries score = true) :
    Holds maxLeaderboard (scores (kept entries) ++ [score]) (seen ++ [score]) := by
  have hlength : (scores entries).length = entries.length := List.length_map _
  unfold isHighScore at hhigh
  split at hhigh
  · next hroom =>
    rw [kept, if_neg (Nat.not_le_of_lt hroom)]
    exact hholds.extend (hlength.trans_lt hroom) score
  · next hge =>
    have hfull : entries.length = maxLeaderboard := by omega
    obtain ⟨first, last, heq, hlast, htake⟩ := exists_last hfull
    have hsmall := h.smallest (Nat.le_of_eq hfull.symm) last hlast
    have hlt : last.score < score := by
      rw [hlast, Option.any_some, decide_eq_true_eq] at hhigh
      exact hhigh
    rw [min_eq_left hlt.le] at hsmall
    rw [kept, if_pos (Nat.le_of_eq hfull.symm), htake]
    rw [heq, scores_concat] at hholds hlength
    rw [heq] at hfull hsmall
    refine hholds.replace (hlength.trans hfull) (fun b hb => ?_) hlt.le
    obtain ⟨e, he, rfl⟩ := List.mem_map.mp hb
    exact hsmall e (List.mem_append_left _ he)

theorem length_kept_lt (hlen : entries.length ≤ maxLeaderboard) :
    (kept entries).length < maxLeaderboard := by
  unfold kept
  split
  · rw [List.length_take, maxLeaderboard]
    omega
  · omega

/-- What a call keeps. -/
theorem addLeaderboardEntry_holds (hqsort : IsQsort qsort) (h : Sound entries score)
    (hlen : entries.length ≤ maxLeaderboard) (hholds : Holds maxLeaderboard (scores entries) seen)
    {added : Bool} (hadd : addLeaderboardEntry qsort entries name score = some (added, entries')) :
    Holds maxLeaderboard (scores entries') (seen ++ [score]) ∧
      entries'.length ≤ maxLeaderboard ∧
      (added = true → entries'.Pairwise fun a b => b.score ≤ a.score) ∧
      (added = false → entries' = entries) := by
  rcases addLeaderboardEntry_cases hadd with ⟨rfl, hlow, rfl⟩ | ⟨rfl, hhigh, hsorted⟩
  · exact ⟨rejected_holds h hlen hholds hlow, hlen, nofun, fun _ => rfl⟩
  · rw [← kept] at hsorted
    have hcomparable := h.comparable hhigh
    have hscores : scores (kept entries ++ [⟨(cstr name).take (nameLength - 1), score⟩]) =
        scores (kept entries) ++ [score] := scores_concat _ _
    rw [← hscores] at hcomparable
    obtain ⟨sorted, hsorted', hperm, hpairwise⟩ := sorts_comparable hqsort hcomparable
    rw [hsorted] at hsorted'
    cases hsorted'
    have hpermScores : (scores entries').Perm (scores (kept entries) ++ [score]) := by
      rw [← hscores]
      exact hperm.map _
    refine ⟨(admitted_holds h hlen hholds hhigh).perm hpermScores, ?_, fun _ => hpairwise, nofun⟩
    rw [hperm.length_eq, List.length_append, List.length_singleton]
    exact length_kept_lt hlen

end Steps

/-! ## Runs -/

/-- The scores that a run has offered. -/
def offered (trace : List (List LeaderboardEntry × Offer)) : List Int := trace.map fun x => x.2.2

/-- A run from a loaded table keeps the ten best, sorted as soon as one was added. -/
theorem run_holds {qsort : Game.Qsort} (hqsort : IsQsort qsort) (file : Option Bytes)
    {trace : List (List LeaderboardEntry × Offer)} {entries : List LeaderboardEntry}
    (hrun : Run (AddStep qsort) (loadLeaderboard file maxLeaderboard) trace entries)
    (hsound : Steps (fun entries offer => Sound entries offer.2) trace) :
    Holds maxLeaderboard (scores entries)
        (scores (loadLeaderboard file maxLeaderboard) ++ offered trace) ∧
      entries.length ≤ maxLeaderboard ∧
      ((∃ x ∈ trace, isHighScore x.1 x.2.2) →
        entries.Pairwise fun a b => b.score ≤ a.score) := by
  induction hrun with
  | nil =>
    have hlen := length_loadLeaderboard file maxLeaderboard
    refine ⟨?_, hlen, fun h => ?_⟩
    · rw [offered, List.map_nil, List.append_nil]
      exact holds_self (by rw [scores, List.length_map]; exact hlen)
    · obtain ⟨x, hx, _⟩ := h
      cases hx
  | @cons trace before after offer hrun hstep ih =>
    obtain ⟨hstepSound, hsound⟩ := hsound.cons
    obtain ⟨hholds, hlen, hsorted⟩ := ih hsound
    obtain ⟨added, hadd⟩ := hstep
    obtain ⟨hholds', hlen', htrue, hfalse⟩ :=
      addLeaderboardEntry_holds hqsort hstepSound hlen hholds hadd
    refine ⟨hholds'.congr ?_, hlen', fun h => ?_⟩
    · rw [List.append_assoc]
      refine List.Perm.append_left _ ?_
      exact List.perm_append_singleton offer.2 (offered trace)
    · cases added with
      | true => exact htrue rfl
      | false =>
        -- The table is the one before, so an earlier addition has sorted it.
        have hlow : isHighScore before offer.2 = false := by
          rcases addLeaderboardEntry_cases hadd with ⟨_, hlow, _⟩ | ⟨habsurd, _⟩
          · exact hlow
          · cases habsurd
        obtain ⟨x, hx, hhigh⟩ := h
        rw [hfalse rfl]
        refine hsorted ⟨x, ?_, hhigh⟩
        rcases List.mem_cons.mp hx with rfl | hx
        · rw [hlow] at hhigh
          cases hhigh
        · exact hx

/-- From every score file, a run whose steps meet the condition ends with the ten best scores,
sorted as soon as one was added, and goes on with every offer that meets it. -/
theorem top_ten {qsort : Game.Qsort} (hqsort : IsQsort qsort) (file : Option Bytes)
    {trace : List (List LeaderboardEntry × Offer)} {entries : List LeaderboardEntry}
    (hrun : Run (AddStep qsort) (loadLeaderboard file maxLeaderboard) trace entries)
    (hsound : Steps (fun entries offer => Sound entries offer.2) trace) :
    (scores entries).Perm (largest maxLeaderboard
        (scores (loadLeaderboard file maxLeaderboard) ++ offered trace)) ∧
      entries.length ≤ maxLeaderboard ∧
      ((∃ x ∈ trace, isHighScore x.1 x.2.2) → entries.Pairwise fun a b => b.score ≤ a.score) ∧
      ∀ offer, Sound entries offer.2 → ∃ entries', AddStep qsort entries offer entries' := by
  obtain ⟨hholds, hlen, hsorted⟩ := run_holds hqsort file hrun hsound
  exact ⟨holds_iff.mp hholds, hlen, hsorted,
    fun offer hoffer => addLeaderboardEntry_defined hqsort hoffer offer.1⟩

instance (entries : List LeaderboardEntry) (score : Int) : Decidable (Sound entries score) :=
  decidable_of_iff
    ((maxLeaderboard ≤ entries.length → ∀ last ∈ entries.getLast?.toList,
        ∀ e ∈ entries, min last.score score ≤ e.score) ∧
      (isHighScore entries score → ∀ a ∈ scores (kept entries) ++ [score],
        ∀ b ∈ scores (kept entries) ++ [score], b - a < 2 ^ 31))
    ⟨fun h => ⟨fun hfull last hlast => h.1 hfull last (Option.mem_toList.mpr hlast), h.2⟩,
      fun h => ⟨fun hfull last hlast => h.smallest hfull last (Option.mem_toList.mp hlast),
        h.comparable⟩⟩

/-- A call of `addLeaderboardEntry` as a function. -/
theorem addStep_eq (qsort : Game.Qsort) : AddStep qsort = fun entries offer entries' =>
    (addLeaderboardEntry qsort entries offer.1 offer.2).map Prod.snd = some entries' := by
  funext entries offer entries'
  refine propext ⟨?_, fun h => ?_⟩
  · rintro ⟨added, hadd⟩
    rw [hadd]
    rfl
  · obtain ⟨⟨added, entries''⟩, hadd, rfl⟩ := Option.map_eq_some_iff.mp h
    exact ⟨added, hadd⟩

/-- Thirteen scores, offered to an empty table. The last three are offered to a full one, and one
of them is admitted. -/
theorem top_ten_full :
    ∃ trace entries, Run (AddStep checkedSort) (loadLeaderboard none maxLeaderboard) trace entries ∧
      (scores entries).Perm (largest maxLeaderboard (scores [] ++ offered trace)) ∧
      offered trace = [15, 100, 5, 15, 80, 60, 40, 70, 90, 20, 50, 10, 30] ∧
      scores entries = [100, 90, 80, 70, 60, 50, 40, 30, 20, 15] := by
  let next (entries : List LeaderboardEntry) (offer : Offer) : Option (List LeaderboardEntry) :=
    (addLeaderboardEntry checkedSort entries offer.1 offer.2).map Prod.snd
  let offers : List Offer :=
    [30, 10, 50, 20, 90, 70, 40, 60, 80, 15, 5, 100, 15].map fun score => (ascii "A", score)
  have hexec : (exec (fun entries offer => if decide (Sound entries offer.2) then
      next entries offer else none) offers []).map scores =
        some [100, 90, 80, 70, 60, 50, 40, 30, 20, 15] := by decide +kernel
  obtain ⟨entries, hexec, hscores⟩ := Option.map_eq_some_iff.mp hexec
  obtain ⟨trace, hlabels, hrun, hsteps⟩ := Run.nil.exec_checked nofun hexec
  rw [List.append_nil] at hrun hsteps
  have hadds : Run (AddStep checkedSort) (loadLeaderboard none maxLeaderboard) trace entries := by
    rw [addStep_eq]
    exact hrun
  have hoffered : offered trace = (offers.reverse).map Prod.snd := by
    rw [← hlabels, List.map_map]
    rfl
  have hten := top_ten isQsort_checkedSort none hadds fun x hx => of_decide_eq_true (hsteps x hx)
  exact ⟨trace, entries, hadds, hten.1, hoffered, hscores⟩

/-- A score file whose smallest score does not stand last. -/
def unsortedFile : Bytes :=
  ascii "a 1\nb 20\nc 19\nd 18\ne 17\nf 16\ng 15\nh 14\ni 13\nj 12\n"

/-- The smallest score stays, and a larger one is thrown out. -/
theorem unsorted_file_keeps_smallest :
    ∃ entries, AddStep checkedSort (loadLeaderboard (some unsortedFile) maxLeaderboard)
        (ascii "k", 100) entries ∧
      ¬(scores entries).Perm (largest maxLeaderboard
        (scores (loadLeaderboard (some unsortedFile) maxLeaderboard) ++ [100])) := by
  have hadd : addLeaderboardEntry checkedSort
      (loadLeaderboard (some unsortedFile) maxLeaderboard) (ascii "k") 100 =
        some (true, [⟨ascii "k", 100⟩, ⟨ascii "b", 20⟩, ⟨ascii "c", 19⟩, ⟨ascii "d", 18⟩,
          ⟨ascii "e", 17⟩, ⟨ascii "f", 16⟩, ⟨ascii "g", 15⟩, ⟨ascii "h", 14⟩, ⟨ascii "i", 13⟩,
          ⟨ascii "a", 1⟩]) := by decide +kernel
  exact ⟨_, ⟨true, hadd⟩, by decide +kernel⟩

end CourseWork.Game
