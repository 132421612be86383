import CourseWork.Lib.Stdio

/-!
# The logger

The calls of the logger on its static variables `log_mutex`, `log_file` and `current_level`, and
the streams that they open and close. Between two calls the mutex is free and `log_file` is open
as long as no message is dropped and `stderr` is not replaced as the log file.
-/

namespace CourseWork.Logging
open CLib

/-! ## Streams -/

/-- A stream: a standard one, or one that the n-th successful `fopen` has returned. -/
inductive Stream where
  | stdout
  | stderr
  | file (n : Nat)
  deriving DecidableEq

/-- `LogLevel`. -/
inductive LogLevel where
  | debug
  | info
  | warning
  | error
  deriving DecidableEq

/-- The value of a level. -/
def LogLevel.value : LogLevel → Nat
  | .debug => 0
  | .info => 1
  | .warning => 2
  | .error => 3

/-- `level_strings`. -/
def LogLevel.string : LogLevel → Bytes
  | .debug => ascii "DEBUG"
  | .info => ascii "INFO"
  | .warning => ascii "WARNING"
  | .error => ascii "ERROR"

/-- `level_colors`. -/
def LogLevel.color : LogLevel → Bytes
  | .debug => 27 :: ascii "[36m"
  | .info => 27 :: ascii "[32m"
  | .warning => 27 :: ascii "[33m"
  | .error => 27 :: ascii "[31m"

/-- The static variables, the streams that are open, the number of files opened so far, and what
was written, in order. -/
structure Logger where
  locked : Bool
  logFile : Option Stream
  currentLevel : LogLevel
  isOpen : Stream → Bool
  opened : Nat
  written : List (Stream × Bytes)

/-- The start of the program. -/
def Logger.start : Logger where
  locked := false
  logFile := none
  currentLevel := .info
  isOpen s := s = .stdout || s = .stderr
  opened := 0
  written := []

/-- Why a call does not return: it waits for the mutex, or it uses a stream that is closed. -/
inductive Fault where
  | blocked
  | undefined
  deriving DecidableEq

/-- `fclose`. -/
def fclose (s : Stream) (st : Logger) : Except Fault Logger :=
  if st.isOpen s then .ok { st with isOpen := fun t => t ≠ s && st.isOpen t }
  else .error .undefined

/-- `fprintf`. -/
def fprintf (s : Stream) (text : Bytes) (st : Logger) : Except Fault Logger :=
  if st.isOpen s then .ok { st with written := st.written ++ [(s, text)] }
  else .error .undefined

/-- `setvbuf`. -/
def setvbuf (s : Stream) (st : Logger) : Except Fault Logger :=
  if st.isOpen s then .ok st else .error .undefined

/-- A successful `fopen`, whose stream is kept in `log_file`. -/
def fopenLog (st : Logger) : Logger :=
  { st with
    logFile := some (.file st.opened)
    isOpen := fun t => t = .file st.opened || st.isOpen t
    opened := st.opened + 1 }

/-! ## Calls -/

/-- The part of `log_init` behind the `fclose` of the old file. -/
def openLog (filename : Option (Bytes × Bool)) (st : Logger) : Except Fault Logger :=
  match filename with
  | some (_, true) => setvbuf (.file st.opened) (fopenLog st)
  | some (name, false) => do
    let st ← fprintf .stderr (ascii "Cannot open log file: " ++ name ++ [10]) st
    setvbuf .stderr { st with logFile := some .stderr }
  | none => setvbuf .stderr { st with logFile := some .stderr }

/-- `log_init`, for NULL or a file name and whether the file can be opened. -/
def logInit (filename : Option (Bytes × Bool)) (st : Logger) : Except Fault Logger := do
  let st ← match st.logFile with
    | some s => fclose s st
    | none => .ok st
  openLog filename st

/-- `log_close`. -/
def logClose (st : Logger) : Except Fault Logger := do
  let st ← match st.logFile with
    | some s => if s ≠ .stderr ∧ s ≠ .stdout then fclose s st else .ok st
    | none => .ok st
  return { st with logFile := none }

/-- `log_set_level`. -/
def logSetLevel (level : LogLevel) (st : Logger) : Logger := { st with currentLevel := level }

/-- The arguments of `log_message`, with the formatted text, and what the system answers: the
time, whether the log file is a terminal, and the frames of the backtrace, if there is one. -/
structure Message where
  level : LogLevel
  file : Bytes
  line : Int
  func : Bytes
  text : Bytes
  timestamp : Bytes
  isTty : Bool
  symbols : Option (List Bytes)

/-- The text behind the last `c`. -/
def afterLast (c : UInt8) (s : Bytes) : Bytes := (s.reverse.takeWhile (· != c)).reverse

/-- The name of the source file without its directories. -/
def filename (file : Bytes) : Bytes :=
  if 47 ∈ file then afterLast 47 file else afterLast 92 file

/-- `print_backtrace`, which leaves out its own frame. -/
def backtrace (symbols : Option (List Bytes)) : Bytes :=
  match symbols with
  | none => []
  | some symbols => ascii "Backtrace:\n" ++ (symbols.zipIdx.drop 1).flatMap fun (symbol, i) =>
    ascii "  " ++ (if i < 10 then [32] else []) ++ Numeral.print 10 i ++ ascii ": " ++ symbol ++
      [10]

/-- What is written for a message. -/
def Message.written (m : Message) : Bytes :=
  (if m.isTty then m.level.color else []) ++
  ascii "[" ++ m.timestamp ++ ascii "] [" ++ m.level.string ++ ascii "] [" ++ filename m.file ++
  ascii ":" ++ printInt m.line ++ ascii ":" ++ m.func ++ ascii "] " ++ m.text ++ [10] ++
  (if m.isTty then 27 :: ascii "[0m" else []) ++
  (if m.level = .error then backtrace m.symbols else [])

/-- `log_message`. -/
def logMessage (m : Message) (st : Logger) : Except Fault Logger :=
  if st.locked then .error .blocked
  else
    let st := { st with locked := true }
    if m.level.value < st.currentLevel.value then .ok st
    else do
      let s := st.logFile.getD .stderr
      let st ← fprintf s m.written { st with logFile := some s }
      return { st with locked := false }

/-- A call of the logger. -/
inductive Call where
  | init (filename : Option (Bytes × Bool))
  | setLevel (level : LogLevel)
  | message (m : Message)
  | close

/-- The state behind a call. -/
def step : Call → Logger → Except Fault Logger
  | .init filename, st => logInit filename st
  | .setLevel level, st => .ok (logSetLevel level st)
  | .message m, st => logMessage m st
  | .close, st => logClose st

/-! ## States between calls -/

/-- The mutex is free, `log_file` is NULL or open, and so is `stderr`. -/
structure Consistent (st : Logger) : Prop where
  unlocked : st.locked = false
  logFile_open : ∀ s, st.logFile = some s → st.isOpen s = true
  stderr_open : st.isOpen .stderr = true

/-- After each call of a sequence that has returned the state is consistent, and no call uses a
stream that is closed. -/
def Kept : List Call → Logger → Prop
  | [], _ => True
  | call :: calls, st =>
    match step call st with
    | .ok st' => Consistent st' ∧ Kept calls st'
    | .error .blocked => True
    | .error .undefined => False

/-- A message is not dropped, and `stderr` is not replaced as the log file. -/
def Meets (st : Logger) : Call → Prop
  | .init _ => st.logFile ≠ some .stderr
  | .message m => st.currentLevel.value ≤ m.level.value
  | .setLevel _ => True
  | .close => True

/-- Each call of a sequence meets the condition in the state that it finds. -/
def Disciplined : List Call → Logger → Prop
  | [], _ => True
  | call :: calls, st => Meets st call ∧ ∀ st', step call st = .ok st' → Disciplined calls st'

section Calls

variable {st : Logger} {s : Stream}

theorem fclose_ok (h : st.isOpen s = true) :
    fclose s st = .ok { st with isOpen := fun t => t ≠ s && st.isOpen t } := if_pos h

theorem fprintf_ok (h : st.isOpen s = true) (text : Bytes) :
    fprintf s text st = .ok { st with written := st.written ++ [(s, text)] } := if_pos h

theorem setvbuf_ok (h : st.isOpen s = true) : setvbuf s st = .ok st := if_pos h

theorem fopenLog_isOpen (st : Logger) (s : Stream) :
    (fopenLog st).isOpen s = (decide (s = .file st.opened) || st.isOpen s) := rfl

theorem fopenLog_opens (st : Logger) : (fopenLog st).isOpen (.file st.opened) = true := by
  rw [fopenLog_isOpen, decide_eq_true rfl]
  rfl

/-- The new log file is open, if `stderr` is. -/
theorem openLog_consistent (filename : Option (Bytes × Bool)) (hlocked : st.locked = false)
    (hstderr : st.isOpen .stderr = true) :
    ∃ st', openLog filename st = .ok st' ∧ Consistent st' := by
  have hfallback : ∀ written, Consistent { st with logFile := some .stderr, written := written } :=
    fun _ => ⟨hlocked, fun s hs => Option.some.inj hs ▸ hstderr, hstderr⟩
  rcases filename with _ | ⟨name, _ | _⟩
  · exact ⟨_, setvbuf_ok hstderr, hfallback _⟩
  · have hlog : openLog (some (name, false)) st = .ok { st with
        logFile := some .stderr
        written := st.written ++ [(.stderr, ascii "Cannot open log file: " ++ name ++ [10])] } := by
      rw [openLog, fprintf_ok hstderr]
      exact setvbuf_ok hstderr
    exact ⟨_, hlog, hfallback _⟩
  · refine ⟨fopenLog st, setvbuf_ok (fopenLog_opens st), hlocked, fun s hs => ?_, ?_⟩
    · exact Option.some.inj hs ▸ fopenLog_opens st
    · rw [fopenLog_isOpen, hstderr, Bool.or_true]

/-- Without `stderr` no new log file leaves a consistent state. -/
theorem openLog_inconsistent (filename : Option (Bytes × Bool))
    (hstderr : st.isOpen .stderr = false) :
    openLog filename st = .error .undefined ∨
      ∃ st', openLog filename st = .ok st' ∧ ¬Consistent st' := by
  have hclosed : ¬st.isOpen .stderr = true := by
    rw [hstderr]
    exact Bool.false_ne_true
  rcases filename with _ | ⟨name, _ | _⟩
  · exact .inl (if_neg hclosed)
  · left
    rw [openLog, fprintf, if_neg hclosed]
    rfl
  · exact .inr ⟨fopenLog st, setvbuf_ok (fopenLog_opens st), fun h => hclosed h.stderr_open⟩

/-- A call that meets the condition returns and leaves a consistent state. -/
theorem step_of_meets (h : Consistent st) : ∀ {call : Call}, Meets st call →
    ∃ st', step call st = .ok st' ∧ Consistent st'
  | .init filename, hmeets => by
    show ∃ st', logInit filename st = .ok st' ∧ Consistent st'
    unfold logInit
    cases hlog : st.logFile with
    | none => exact openLog_consistent filename h.unlocked h.stderr_open
    | some s =>
      have hs : Stream.stderr ≠ s := fun heq => hmeets (hlog.trans (congrArg some heq.symm))
      dsimp only
      rw [fclose_ok (h.logFile_open s hlog)]
      refine openLog_consistent filename h.unlocked ?_
      show (decide (Stream.stderr ≠ s) && st.isOpen .stderr) = true
      rw [decide_eq_true hs, h.stderr_open]
      rfl
  | .setLevel level, _ => ⟨_, rfl, h.unlocked, h.logFile_open, h.stderr_open⟩
  | .message m, hmeets => by
    have hopen : st.isOpen (st.logFile.getD .stderr) = true := by
      cases hlog : st.logFile with
      | none => exact h.stderr_open
      | some s => exact h.logFile_open s hlog
    have hnot : ¬m.level.value < st.currentLevel.value := Nat.not_lt.mpr hmeets
    show ∃ st', logMessage m st = .ok st' ∧ Consistent st'
    rw [logMessage, if_neg (by rw [h.unlocked]; exact Bool.false_ne_true)]
    dsimp only
    rw [if_neg hnot, fprintf, if_pos hopen]
    exact ⟨_, rfl, rfl, fun s hs => Option.some.inj hs ▸ hopen, h.stderr_open⟩
  | .close, _ => by
    show ∃ st', logClose st = .ok st' ∧ Consistent st'
    unfold logClose
    cases hlog : st.logFile with
    | none => exact ⟨_, rfl, h.unlocked, nofun, h.stderr_open⟩
    | some s =>
      dsimp only
      split
      · next hs =>
        rw [fclose_ok (h.logFile_open s hlog)]
        refine ⟨_, rfl, h.unlocked, nofun, ?_⟩
        show (decide (Stream.stderr ≠ s) && st.isOpen .stderr) = true
        rw [decide_eq_true hs.1.symm, h.stderr_open]
        rfl
      · exact ⟨_, rfl, h.unlocked, nofun, h.stderr_open⟩

/-- A call that does not meet it uses a closed stream, or leaves the mutex locked or `stderr`
closed. -/
theorem step_of_not_meets (h : Consistent st) : ∀ {call : Call}, ¬Meets st call →
    step call st = .error .undefined ∨ ∃ st', step call st = .ok st' ∧ ¬Consistent st'
  | .init filename, hnot => by
    have hlog : st.logFile = some .stderr := Decidable.not_not.mp hnot
    show logInit filename st = _ ∨ ∃ st', logInit filename st = .ok st' ∧ ¬Consistent st'
    rw [logInit, hlog]
    dsimp only
    rw [fclose_ok h.stderr_open]
    exact openLog_inconsistent filename rfl
  | .setLevel _, hnot => absurd trivial hnot
  | .message m, hnot => by
    right
    show ∃ st', logMessage m st = .ok st' ∧ ¬Consistent st'
    rw [logMessage, if_neg (by rw [h.unlocked]; exact Bool.false_ne_true)]
    dsimp only
    rw [if_pos (Nat.not_le.mp hnot)]
    exact ⟨_, rfl, fun hconsistent => Bool.noConfusion hconsistent.unlocked⟩
  | .close, hnot => absurd trivial hnot

end Calls

theorem kept_iff : ∀ (calls : List Call) {st : Logger}, Consistent st →
    (Kept calls st ↔ Disciplined calls st)
  | [], _, _ => Iff.rfl
  | call :: calls, st, h => by
    rw [Kept, Disciplined]
    by_cases hmeets : Meets st call
    · obtain ⟨st', hstep, hconsistent⟩ := step_of_meets h hmeets
      rw [hstep, and_iff_right hmeets]
      refine (and_iff_right hconsistent).trans ((kept_iff calls hconsistent).trans ?_)
      exact ⟨fun hrest _ heq => Except.ok.inj heq ▸ hrest, fun hrest => hrest st' rfl⟩
    · rcases step_of_not_meets h hmeets with hstep | ⟨st', hstep, hinconsistent⟩
      · rw [hstep]
        exact iff_of_false id fun hall => hmeets hall.1
      · rw [hstep]
        exact iff_of_false (fun hall => hinconsistent hall.1) fun hall => hmeets hall.1

/-- Between the calls of a sequence the mutex is free and the log file is open exactly if no
message is dropped and no `log_init` finds `stderr` as the log file. -/
theorem logger_kept_iff (calls : List Call) :
    Kept calls Logger.start ↔ Disciplined calls Logger.start :=
  kept_iff calls ⟨rfl, nofun, rfl⟩

/-- A message of level `DEBUG`, which the level at the start drops. -/
def debugMessage : Message where
  level := .debug
  file := ascii "test.c"
  line := 23
  func := ascii "main"
  text := ascii "x"
  timestamp := ascii "2025-12-05 08:36:22"
  isTty := false
  symbols := none

/-- The dropped message leaves the mutex locked, and the next one waits for ever. -/
theorem dropped_message_locks : ¬Kept [.message debugMessage] Logger.start ∧
    ∃ st, step (.message debugMessage) Logger.start = .ok st ∧
      step (.message debugMessage) st = .error .blocked := by
  refine ⟨fun hkept => Bool.noConfusion hkept.1.unlocked, _, rfl, rfl⟩

end CourseWork.Logging
