import CourseWork.Lib.Stdio

/-!
# Configuration of the daemon

`parse_config`: the lines that `fgets` reads, the two words of a line, and the five keys. A key
without a value passes `NULL` to `strdup`, `strcmp`, `getpwnam` or `getgrnam`, which is undefined.
-/

namespace CourseWork.Daemon
open CLib

/-! ## The code -/

/-- `DEFAULT_FILE_PATH`. -/
def defaultFilePath : Bytes := ascii "/tmp/testfile.txt"

/-- `DEFAULT_SOCKET_PATH`. -/
def defaultSocketPath : Bytes := ascii "/tmp/fs-daemon.sock"

/-- `config_t`. -/
structure Config where
  filePath : Bytes
  socketPath : Bytes
  daemonize : Bool
  runAsUid : Nat
  runAsGid : Nat
  deriving DecidableEq

/-- The warnings of `daemon_log`. -/
inductive Warning where
  | configNotFound
  | userNotFound (name : Bytes)
  | groupNotFound (name : Bytes)
  deriving DecidableEq

/-- `getuid` and `getgid`, and the ids that `getpwnam` and `getgrnam` find. -/
structure System where
  getuid : Nat
  getgid : Nat
  getpwnam : Bytes → Option Nat
  getgrnam : Bytes → Option Nat

/-- The configuration so far, and the warnings. -/
structure Parsed where
  config : Config
  warnings : List Warning
  deriving DecidableEq

/-- `" \t=\n"`. -/
def isDelimiter (c : UInt8) : Bool := c == 32 || c == 9 || c == 61 || c == 10

/-- The key and the value of a line, without what is behind a `#` in them, or `none` for a line
that is skipped. -/
def splitLine (line : Bytes) : Option (Bytes × Option Bytes) :=
  match strtok isDelimiter (cstr line) with
  | none => none
  | some (key, rest) =>
    if key.head? = some 35 then none
    else some (cutAt 35 key, (strtok isDelimiter rest).map fun found => cutAt 35 found.1)

/-- The values of `daemonize` that mean yes. -/
def isYes (value : Bytes) : Bool :=
  value = ascii "yes" || value = ascii "1" || value = ascii "true" || value = ascii "on"

/-- The branch for a key, or `none` where `NULL` is used as the value. -/
def setKey (system : System) (key : Bytes) (value : Option Bytes) (p : Parsed) : Option Parsed :=
  if key = ascii "file" then
    value.map fun value => { p with config.filePath := value }
  else if key = ascii "socket" then
    value.map fun value => { p with config.socketPath := value }
  else if key = ascii "daemonize" then
    value.map fun value => { p with config.daemonize := isYes value }
  else if key = ascii "user" then
    value.map fun value =>
      match system.getpwnam value with
      | some uid => { p with config.runAsUid := uid }
      | none => { p with warnings := p.warnings ++ [.userNotFound value] }
  else if key = ascii "group" then
    value.map fun value =>
      match system.getgrnam value with
      | some gid => { p with config.runAsGid := gid }
      | none => { p with warnings := p.warnings ++ [.groupNotFound value] }
  else some p

/-- The loop over the lines. -/
def parseLines (system : System) : List Bytes → Parsed → Option Parsed
  | [], p => some p
  | line :: lines, p =>
    match splitLine line with
    | none => parseLines system lines p
    | some (key, value) => (setKey system key value p).bind (parseLines system lines)

/-- The configuration before the loop. -/
def defaultConfig (system : System) : Config where
  filePath := defaultFilePath
  socketPath := defaultSocketPath
  daemonize := true
  runAsUid := system.getuid
  runAsGid := system.getgid

/-- The lines that `fgets` reads from a file. -/
def readLines (file : Bytes) : List Bytes := fgetsLines 256 file.length file

/-- `parse_config`, where `none` for the file means that it cannot be opened. -/
def parseConfig (system : System) : Option Bytes → Option Parsed
  | none => some ⟨defaultConfig system, [.configNotFound]⟩
  | some file => parseLines system (readLines file) ⟨defaultConfig system, []⟩

/-! ## What a configuration file means -/

/-- The value that a line carries for a key: the second word before the comment. -/
def carried (name line : Bytes) : Option Bytes :=
  match tokens isDelimiter (cutAt 35 (cstr line)) with
  | key :: value :: _ => if key = name then some value else none
  | _ => none

/-- What the last usable value means. -/
def lastUsable {α : Type*} (usable : Bytes → Option α) (default : α) (values : List Bytes) : α :=
  ((values.filterMap usable).getLast?).getD default

/-- The configuration for the values of each key. A user or a group counts if the system knows
it. -/
def configOf (system : System) (values : Bytes → List Bytes) : Config where
  filePath := lastUsable some defaultFilePath (values (ascii "file"))
  socketPath := lastUsable some defaultSocketPath (values (ascii "socket"))
  daemonize := lastUsable (fun value => some (isYes value)) true (values (ascii "daemonize"))
  runAsUid := lastUsable system.getpwnam system.getuid (values (ascii "user"))
  runAsGid := lastUsable system.getgrnam system.getgid (values (ascii "group"))

/-- The values for a key, line by line. -/
def carriedValues (file name : Bytes) : List Bytes := (file.splitOn 10).filterMap (carried name)

/-- The configuration that a file means. -/
def intended (system : System) (file : Bytes) : Config := configOf system (carriedValues file)

end CourseWork.Daemon
