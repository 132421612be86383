import Mathlib.Algebra.Order.Group.Nat
import Mathlib.Data.Nat.Count

/-!
# The loop over `sendfile`

`handle_http_request` sends a file until `offset` has come to the size that `stat` has told.
The file may be shorter by then, and at its end `sendfile` returns 0, which neither moves
`offset` nor ends the loop.
-/

namespace CourseWork.WebServer

/-- What happens at a call on the socket. -/
inductive Answer
  /-- There is room for so many bytes. Without room the call returns -1 with `EAGAIN`. -/
  | room (n : Nat)
  /-- The call returns -1 with another error. -/
  | error
  deriving DecidableEq

/-- What `sendfile` returns. -/
inductive Sent
  | bytes (n : Nat)
  | again
  | failed
  deriving DecidableEq

/-- `sendfile` of at most `count` bytes from `offset` of a file with `length` bytes. -/
def sendfile (answer : Answer) (length offset count : Nat) : Sent :=
  if length ≤ offset then .bytes 0
  else
    match answer with
    | .room 0 => .again
    | .room n => .bytes (min n (min count (length - offset)))
    | .error => .failed

/-- The loop, with its `offset`. -/
inductive Loop
  | sending (offset : Nat)
  | left (offset : Nat)
  deriving DecidableEq

/-- `offset < file_stat.st_size`. -/
def Loop.test (stSize offset : Nat) : Loop :=
  if offset < stSize then .sending offset else .left offset

/-- One iteration. -/
def Loop.step (stSize length : Nat) (answer : Answer) : Loop → Loop
  | .left offset => .left offset
  | .sending offset =>
    match sendfile answer length offset (stSize - offset) with
    | .bytes n => Loop.test stSize (offset + n)
    | .again => Loop.test stSize offset
    | .failed => .left offset

/-- The loop after `k` iterations. -/
def loopAt (stSize length : Nat) (answers : Nat → Answer) : Nat → Loop
  | 0 => Loop.test stSize 0
  | k + 1 => (loopAt stSize length answers k).step stSize length (answers k)

/-- Iteration `k` calls `sendfile`, and not for `EAGAIN`. -/
def answered (stSize length : Nat) (answers : Nat → Answer) (k : Nat) : Bool :=
  match loopAt stSize length answers k with
  | .sending offset => sendfile (answers k) length offset (stSize - offset) ≠ .again
  | .left _ => false

/-- If iteration `k` does not leave the loop, it increases `offset`. -/
def Advances (stSize length : Nat) (answers : Nat → Answer) (k : Nat) : Prop :=
  ∀ offset offset', loopAt stSize length answers k = .sending offset →
    loopAt stSize length answers (k + 1) = .sending offset' → offset < offset'

/-- From some point on every answered iteration increases `offset` or leaves the loop, and the
number of answered iterations is bounded. -/
structure MakesProgress (stSize length : Nat) (answers : Nat → Answer) : Prop where
  advances : ∃ start, ∀ k ≥ start, answered stSize length answers k = true →
    Advances stSize length answers k
  bounded : ∀ n, Nat.count (answered stSize length answers ·) n ≤ stSize + 1

/-- The bytes for which there is room at a call. -/
def Answer.taken : Answer → Nat
  | .room n => n
  | .error => 0

/-- The bytes for which there is room at the first `k` calls. -/
def taken (answers : Nat → Answer) : Nat → Nat
  | 0 => 0
  | k + 1 => taken answers k + (answers k).taken

/-- The socket takes the whole file before a call fails. -/
def Drained (length : Nat) (answers : Nat → Answer) : Prop :=
  ∃ k, (∀ i < k, answers i ≠ .error) ∧ length ≤ taken answers k

section

variable {stSize length : Nat} {answers : Nat → Answer} {k : Nat}

/-! ## One call -/

section

variable {answer : Answer} {offset count n : Nat}

theorem sendfile_end (h : length ≤ offset) : sendfile answer length offset count = .bytes 0 :=
  if_pos h

theorem sendfile_again (h : offset < length) :
    sendfile (.room 0) length offset count = .again :=
  if_neg (Nat.not_le.mpr h)

theorem sendfile_room (h : offset < length) (hn : 0 < n) :
    sendfile (.room n) length offset count = .bytes (min n (min count (length - offset))) := by
  obtain ⟨n, rfl⟩ := Nat.exists_eq_succ_of_ne_zero (Nat.ne_of_gt hn)
  exact if_neg (Nat.not_le.mpr h)

theorem sendfile_error (h : offset < length) : sendfile .error length offset count = .failed :=
  if_neg (Nat.not_le.mpr h)

theorem sendfile_bytes_pos {sent : Nat} (hoffset : offset < length) (hcount : 0 < count)
    (h : sendfile answer length offset count = .bytes sent) : 0 < sent := by
  cases answer with
  | room n =>
    rcases Nat.eq_zero_or_pos n with rfl | hn
    · rw [sendfile_again hoffset] at h
      cases h
    · rw [sendfile_room hoffset hn] at h
      cases h
      omega
  | error =>
    rw [sendfile_error hoffset] at h
    cases h

end

/-! ## One iteration -/

theorem test_eq_sending {offset o : Nat} :
    Loop.test stSize offset = .sending o ↔ offset = o ∧ offset < stSize := by
  unfold Loop.test
  split
  · next h => exact ⟨fun heq => ⟨Loop.sending.inj heq, h⟩, fun heq => congrArg _ heq.1⟩
  · next h => exact ⟨nofun, fun heq => absurd heq.2 h⟩

/-- An iteration that does not leave the loop comes from one that did not, and moves `offset` by
what `sendfile` returns. -/
theorem loopAt_succ_eq_sending {o' : Nat} :
    loopAt stSize length answers (k + 1) = .sending o' ↔
      o' < stSize ∧ ∃ o, loopAt stSize length answers k = .sending o ∧
        ((sendfile (answers k) length o (stSize - o) = .again ∧ o' = o) ∨
          ∃ n, sendfile (answers k) length o (stSize - o) = .bytes n ∧ o' = o + n) := by
  rw [loopAt]
  cases hloop : loopAt stSize length answers k with
  | left o => exact ⟨nofun, fun ⟨_, _, h, _⟩ => by cases h⟩
  | sending o =>
    rw [Loop.step]
    cases hsent : sendfile (answers k) length o (stSize - o) with
    | bytes n =>
      dsimp only
      rw [test_eq_sending]
      constructor
      · rintro ⟨rfl, hlt⟩
        exact ⟨hlt, o, rfl, .inr ⟨n, hsent, rfl⟩⟩
      · rintro ⟨hlt, _, ⟨⟩, ⟨hagain, _⟩ | ⟨n', hn', rfl⟩⟩
        · rw [hsent] at hagain
          cases hagain
        · rw [hsent] at hn'
          cases hn'
          exact ⟨rfl, hlt⟩
    | again =>
      dsimp only
      rw [test_eq_sending]
      constructor
      · rintro ⟨rfl, hlt⟩
        exact ⟨hlt, o, rfl, .inl ⟨hsent, rfl⟩⟩
      · rintro ⟨hlt, _, ⟨⟩, ⟨_, rfl⟩ | ⟨n', hn', _⟩⟩
        · exact ⟨rfl, hlt⟩
        · rw [hsent] at hn'
          cases hn'
    | failed =>
      refine ⟨nofun, ?_⟩
      rintro ⟨_, _, ⟨⟩, ⟨hagain, _⟩ | ⟨n', hn', _⟩⟩
      · rw [hsent] at hagain
        cases hagain
      · rw [hsent] at hn'
        cases hn'

theorem lt_of_sending {o : Nat} (h : loopAt stSize length answers k = .sending o) : o < stSize := by
  cases k with
  | zero =>
    obtain ⟨rfl, hlt⟩ := test_eq_sending.mp h
    exact hlt
  | succ k => exact (loopAt_succ_eq_sending.mp h).1

/-- In front of the end of the file, an answered iteration moves `offset`. -/
theorem advances_of_lt (hlt : ∀ o, loopAt stSize length answers k = .sending o → o < length)
    (hanswered : answered stSize length answers k = true) : Advances stSize length answers k := by
  intro offset offset' hloop hloop'
  obtain ⟨hlt', o, ho, hsent⟩ := loopAt_succ_eq_sending.mp hloop'
  obtain rfl := Loop.sending.inj (hloop.symm.trans ho)
  rcases hsent with ⟨hagain, _⟩ | ⟨n, hn, rfl⟩
  · rw [answered, hloop] at hanswered
    exact absurd hagain (of_decide_eq_true hanswered)
  · have hpos := sendfile_bytes_pos (hlt offset hloop) (by omega) hn
    omega

/-- While no call fails, `offset` is as far as the room, the file and its recorded size allow. -/
theorem loopAt_eq (h : ∀ i < k, answers i ≠ .error) :
    loopAt stSize length answers k =
      Loop.test stSize (min (taken answers k) (min length stSize)) := by
  induction k with
  | zero =>
    rw [loopAt, taken, Nat.zero_min]
  | succ k ih =>
    obtain ⟨n, hn⟩ : ∃ n, answers k = .room n := by
      cases hanswer : answers k with
      | room n => exact ⟨n, rfl⟩
      | error => exact absurd hanswer (h k (Nat.lt_succ_self k))
    rw [loopAt, ih fun i hi => h i (Nat.lt_succ_of_lt hi), taken, hn, Answer.taken]
    by_cases hdone : min (taken answers k) (min length stSize) < stSize
    · rw [Loop.test, if_pos hdone, Loop.step]
      by_cases hend : length ≤ min (taken answers k) (min length stSize)
      · rw [sendfile_end hend]
        dsimp only
        congr 1
        omega
      · rcases Nat.eq_zero_or_pos n with rfl | hpos
        · rw [sendfile_again (Nat.not_le.mp hend)]
          rfl
        · rw [sendfile_room (Nat.not_le.mp hend) hpos]
          dsimp only
          congr 1
          omega
    · -- The loop was left at the recorded size.
      have hfull : min (taken answers k) (min length stSize) = stSize := by omega
      rw [hfull, show min (taken answers k + n) (min length stSize) = stSize by omega, Loop.test,
        if_neg (Nat.lt_irrefl _)]
      rfl

/-! ## Files that are long enough, or that are never sent to their end -/

/-- As long as the loop goes on, no call has failed. -/
theorem no_error_of_sending (h : ¬Drained length answers) :
    ∀ {k o : Nat}, loopAt stSize length answers k = .sending o →
      o < length ∧ ∀ i < k, answers i ≠ .error := by
  -- Without an error, `offset` is at most the room that there was.
  have hbound {k o : Nat} (hnone : ∀ i < k, answers i ≠ .error)
      (hloop : loopAt stSize length answers k = .sending o) : o < length := by
    rw [loopAt_eq hnone] at hloop
    have htaken : taken answers k < length := Nat.lt_of_not_le fun hle => h ⟨k, hnone, hle⟩
    have ho := (test_eq_sending.mp hloop).1
    omega
  intro k
  induction k with
  | zero =>
    have hnone : ∀ i < 0, answers i ≠ .error := fun i hi => absurd hi (Nat.not_lt_zero i)
    exact fun {o} hloop => ⟨hbound hnone hloop, hnone⟩
  | succ k ih =>
    intro o' hloop'
    obtain ⟨_, o, hloop, hsent⟩ := loopAt_succ_eq_sending.mp hloop'
    obtain ⟨ho, hnone⟩ := ih hloop
    have hlast : answers k ≠ .error := by
      intro herror
      rw [herror, sendfile_error ho] at hsent
      rcases hsent with ⟨hagain, _⟩ | ⟨n, hn, _⟩
      · cases hagain
      · cases hn
    have hnone' : ∀ i < k + 1, answers i ≠ .error := by
      intro i hi
      rcases Nat.lt_succ_iff_lt_or_eq.mp hi with hi | rfl
      · exact hnone i hi
      · exact hlast
    exact ⟨hbound hnone' hloop', hnone'⟩

/-- The loop is never at the end of the file. -/
theorem sending_lt (h : stSize ≤ length ∨ ¬Drained length answers) {o : Nat}
    (hloop : loopAt stSize length answers k = .sending o) : o < length := by
  rcases h with h | h
  · exact Nat.lt_of_lt_of_le (lt_of_sending hloop) h
  · exact (no_error_of_sending h hloop).1

/-- Each answered iteration but the last is paid for by a byte. -/
theorem count_answered_le (hlt : ∀ k o, loopAt stSize length answers k = .sending o → o < length)
    (n : Nat) :
    Nat.count (answered stSize length answers ·) n ≤ stSize ∧
      ∀ o, loopAt stSize length answers n = .sending o →
        Nat.count (answered stSize length answers ·) n ≤ o := by
  induction n with
  | zero => exact ⟨Nat.zero_le _, fun o _ => Nat.zero_le o⟩
  | succ n ih =>
    obtain ⟨hle, hpaid⟩ := ih
    rw [Nat.count_succ]
    by_cases hanswered : answered stSize length answers n = true
    · rw [if_pos hanswered]
      cases hloop : loopAt stSize length answers n with
      | left o =>
        rw [answered, hloop] at hanswered
        cases hanswered
      | sending o =>
        have hcount := hpaid o hloop
        have hsize := lt_of_sending hloop
        refine ⟨by omega, fun o' hloop' => ?_⟩
        have hmoved := advances_of_lt (hlt n) hanswered o o' hloop hloop'
        omega
    · rw [if_neg hanswered, Nat.add_zero]
      refine ⟨hle, fun o' hloop' => ?_⟩
      obtain ⟨_, o, hloop, hsent⟩ := loopAt_succ_eq_sending.mp hloop'
      have hcount := hpaid o hloop
      rcases hsent with ⟨_, rfl⟩ | ⟨m, _, rfl⟩
      · exact hcount
      · omega

/-! ## Files that end too early -/

/-- Once the loop is at the end of a file that is too short, it stays there. -/
theorem stuck {o : Nat} (hend : length ≤ o)
    (hloop : loopAt stSize length answers k = .sending o) (j : Nat) :
    loopAt stSize length answers (k + j) = .sending o := by
  induction j with
  | zero => exact hloop
  | succ j ih =>
    rw [← Nat.add_assoc]
    exact loopAt_succ_eq_sending.mpr
      ⟨lt_of_sending hloop, o, ih, .inr ⟨0, sendfile_end hend, rfl⟩⟩

theorem not_makesProgress (hshort : length < stSize) (h : Drained length answers) :
    ¬MakesProgress stSize length answers := by
  obtain ⟨k, hnone, htaken⟩ := h
  have hloop : loopAt stSize length answers k = .sending length := by
    rw [loopAt_eq hnone, test_eq_sending]
    omega
  rintro ⟨⟨start, hadvances⟩, _⟩
  have hfrom := stuck (Nat.le_refl _) hloop start
  have hnext := stuck (Nat.le_refl _) hloop (start + 1)
  have hanswered : answered stSize length answers (k + start) = true := by
    rw [answered, hfrom]
    dsimp only
    rw [sendfile_end (Nat.le_refl _)]
    rfl
  exact Nat.lt_irrefl _ (hadvances _ (Nat.le_add_left _ _) hanswered _ _ hfrom hnext)

/-- The loop makes progress exactly if the file is as long as `stat` has told, or a call fails,
or the socket stops taking bytes, before the file has been sent to its end. -/
theorem sendfile_progress_iff (stSize length : Nat) (answers : Nat → Answer) :
    MakesProgress stSize length answers ↔ stSize ≤ length ∨ ¬Drained length answers := by
  constructor
  · intro hprogress
    by_contra hnot
    rw [not_or, not_not] at hnot
    exact not_makesProgress (Nat.not_le.mp hnot.1) hnot.2 hprogress
  · intro h
    have hlt : ∀ k o, loopAt stSize length answers k = .sending o → o < length :=
      fun _ _ => sending_lt h
    exact ⟨⟨0, fun k _ => advances_of_lt (hlt k)⟩,
      fun n => Nat.le_succ_of_le (count_answered_le hlt n).1⟩

/-- A file of two bytes has lost one since `stat`. -/
theorem truncated_file_hangs : ¬MakesProgress 2 1 fun _ => .room 1 :=
  not_makesProgress (by decide) ⟨1, fun _ _ => nofun, Nat.le_refl _⟩

end

end CourseWork.WebServer
