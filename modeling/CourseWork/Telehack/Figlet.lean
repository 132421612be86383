import CourseWork.Lib.CLib

/-!
# Replies of the telnet service

`send_figlet_command`: the loop that prints the reply of the service, without the echo of the
command, and asks for more where the service waits. Each `recv` is handled by itself, so that
the result depends on where the reply is cut.
-/

namespace CourseWork.Telehack
open CLib

/-! ## The code -/

/-- `BUFFER_SIZE`. -/
def bufferSize : Nat := 4096

/-- `MAX_COMMAND_LENGTH`. -/
def maxCommandLength : Nat := 256

/-- `MORE_FULL`. -/
def moreFull : Bytes := ascii "--More--(100"

/-- `MORE_PATTERN`. -/
def morePattern : Bytes := ascii "--More--"

/-- The messages to `stderr`. -/
inductive Message where
  | sendFailed
  | readFailed
  | noArt
  deriving DecidableEq

/-- The variables of the loop, what was printed, and the calls of `send` with `MORE_COMMAND`. -/
structure Progress where
  commandLength : Nat
  resultPrinted : Bool
  stdout : Bytes
  stderr : List Message
  moreCommands : Nat
  deriving DecidableEq

/-- The command. -/
def command (font text : Bytes) : Bytes :=
  (ascii "figlet /" ++ cstr font ++ [32] ++ cstr text ++ [13, 10]).take (bufferSize - 1)

/-- `command_length` before the loop. -/
def commandLength (font text : Bytes) : Nat :=
  if (command font text).length > maxCommandLength then maxCommandLength
  else (command font text).length

/-- Where the text to print starts in the buffer, and `command_length`, after the echo of the
command was left out. -/
def removeEcho (chunk : Bytes) (commandLength : Nat) : Bytes × Nat :=
  if commandLength ≠ 0 ∧ chunk.length > commandLength then (chunk.drop commandLength, 0)
  else if commandLength ≠ 0 then ([], commandLength - chunk.length)
  else (chunk, commandLength)

/-- The body of the loop for the bytes of one `recv`, or `none` where it is left. -/
def handleChunk (moreSent : Nat → Bool) (chunk : Bytes) (p : Progress) : Option Progress :=
  let more := strstr chunk morePattern
  if (strstr chunk moreFull).isSome then none
  else
    let (start, commandLength) := removeEcho chunk p.commandLength
    let p := { p with commandLength := commandLength, stdout := p.stdout ++ cstr start }
    if more = none then some { p with resultPrinted := true }
    else some { p with
      moreCommands := p.moreCommands + 1
      stderr := if moreSent p.moreCommands then p.stderr else p.stderr ++ [.sendFailed] }

/-- What the network does: whether the command can be sent, the bytes of the calls of `recv`
that return some, whether the call behind them fails, and whether the n-th `MORE_COMMAND` can be
sent. -/
structure Network where
  commandSent : Bool
  reads : List Bytes
  readFails : Bool
  moreSent : Nat → Bool

/-- The loop; it is left early at `MORE_FULL`. The last component says whether it got to the last
`recv`. -/
def readLoop (moreSent : Nat → Bool) : List Bytes → Progress → Progress × Bool
  | [], p => (p, true)
  | chunk :: reads, p =>
    match handleChunk moreSent chunk p with
    | none => (p, false)
    | some p => readLoop moreSent reads p

/-- What `send_figlet_command` prints, its calls of `send` with `MORE_COMMAND`, and its result. -/
structure Outcome where
  stdout : Bytes
  stderr : List Message
  moreCommands : Nat
  result : Int
  deriving DecidableEq

/-- `send_figlet_command`. -/
def sendFigletCommand (network : Network) (font text : Bytes) : Outcome :=
  if !network.commandSent then ⟨[], [.sendFailed], 0, -1⟩
  else
    let (p, ended) := readLoop network.moreSent network.reads
      ⟨commandLength font text, false, [], [], 0⟩
    let stdout := p.stdout ++ [13, 10]
    if ended && network.readFails then ⟨stdout, p.stderr ++ [.readFailed], p.moreCommands, -1⟩
    else if !p.resultPrinted then ⟨stdout, p.stderr ++ [.noArt], p.moreCommands, -1⟩
    else ⟨stdout, p.stderr, p.moreCommands, 0⟩

/-! ## Segmentations -/

/-- The bytes of the calls of `recv` for a reply. -/
structure Segmentation (stream : Bytes) (reads : List Bytes) : Prop where
  flatten_eq : reads.flatten = stream
  ne_nil : ∀ chunk ∈ reads, chunk ≠ []
  length_le : ∀ chunk ∈ reads, chunk.length ≤ bufferSize - 1

/-- The outcome for a reply without errors. -/
def outcome (font text : Bytes) (reads : List Bytes) : Outcome :=
  sendFigletCommand ⟨true, reads, false, fun _ => true⟩ font text

/-- All NULs are at the end. -/
def NulsAtEnd (s : Bytes) : Prop := ∀ a b, s = a ++ 0 :: b → ∀ c ∈ b, c = 0

/-- The pager does not stop, and behind the echo no NUL is followed by another byte. -/
structure OnePage (font text stream : Bytes) : Prop where
  no_more : ¬morePattern <:+: stream
  nulsAtEnd : NulsAtEnd (stream.drop (commandLength font text))

end CourseWork.Telehack
