import CourseWork.Lib.CLib
import CourseWork.Lib.Prog

/-!
# Network

The `network` module: connecting, and sending and receiving with timeouts, for a peer
that behaves in any way. What the network and the peer do is a script that the calls
consume; a run that needs more than the script has is pending. The shutdown flag
`running` is cleared after any number of reads, and by a send to a broken pipe.
-/

namespace CourseWork.Torrent
open CLib

/-! ## The network -/

/-- Why a run stops before the program returns: the network has not answered yet, or the
behaviour of the C program is undefined. -/
inductive Stop where
  | pending
  | undefined
  deriving DecidableEq

/-- One `poll` for input and the `recv` after it. `data n` delivers `n + 1` bytes, or as
many as are asked for. -/
inductive RecvStep where
  | interrupted
  | pollError
  | timeout
  | data (n : Nat)
  | closed
  | error
  deriving DecidableEq

/-- One `poll` for output and the `send` after it. `accepted n` takes `n + 1` bytes, or as
many as there are. `brokenPipe` is the error of a connection that the peer has reset. -/
inductive SendStep where
  | interrupted
  | pollError
  | timeout
  | accepted (n : Nat)
  | closed
  | error
  | brokenPipe
  deriving DecidableEq

/-- The other side of a connection: all bytes that it would send, and how they and ours
get through. -/
structure Remote where
  stream : Nat → UInt8
  recvs : List RecvStep
  sends : List SendStep

/-- The connection in use; `pos` bytes of the stream are consumed. -/
structure Conn where
  sock : Nat
  stream : Nat → UInt8
  pos : Nat
  recvs : List RecvStep
  sends : List SendStep

/-- What happened on a socket: a message sent completely, a message that
`peer_read_message` returned with the position where its frame starts, and a failed call
of it with the positions where it started and stopped. -/
inductive NetEvent where
  | connected (sock : Nat)
  | sent (sock : Nat) (msg : Bytes)
  | message (sock start : Nat) (id : UInt8) (payload : Bytes)
  | failed (sock start stop : Nat)
  deriving DecidableEq

/-- The network as the program sees it. `flag` counts the reads of `running` before a signal
clears it, if one ever does; `answers` are the outcomes of all connection attempts, and the
number of an attempt is its socket. The trace has the latest event first. -/
structure Net where
  flag : Option Nat
  answers : List (Option Remote)
  attempts : Nat
  conn : Conn
  trace : List NetEvent

/-- Bytes `pos .. pos + n` of a stream. -/
def slice (stream : Nat → UInt8) (pos n : Nat) : Bytes :=
  (List.range n).map fun k => stream (pos + k)

theorem length_slice (stream : Nat → UInt8) (pos n : Nat) : (slice stream pos n).length = n := by
  rw [slice, List.length_map, List.length_range]

theorem slice_append (stream : Nat → UInt8) (pos m n : Nat) :
    slice stream pos m ++ slice stream (pos + m) n = slice stream pos (m + n) := by
  rw [slice, slice, slice, List.range_add, List.map_append, List.map_map]
  congr 1
  exact List.map_congr_left fun k _ => by rw [Function.comp_apply, Nat.add_assoc]

/-- A read of `running`. -/
def running : Prog Stop Net Bool := fun s =>
  match s.flag with
  | none => (.ok true, s)
  | some 0 => (.ok false, s)
  | some (n + 1) => (.ok true, { s with flag := some n })

/-- Records an event. -/
def record (e : NetEvent) : Prog Stop Net Unit :=
  Prog.modify fun s => { s with trace := e :: s.trace }

/-! ## The functions -/

/-- `tcp_connect_timeout`: the socket, in the next attempt's outcome. -/
def tcpConnectTimeout : Prog Stop Net (Option Nat) := do
  let s ← Prog.get
  match s.answers[s.attempts]? with
  | none => Prog.stop .pending
  | some none =>
    Prog.modify fun s => { s with attempts := s.attempts + 1 }
    return none
  | some (some remote) =>
    Prog.modify fun s => { s with
      attempts := s.attempts + 1
      conn := ⟨s.attempts, remote.stream, 0, remote.recvs, remote.sends⟩ }
    record (.connected s.attempts)
    return some s.attempts

/-- The loop of `send_full_timeout`, by the rest of the script. -/
def sendLoop (buf : Bytes) : List SendStep → Nat → Prog Stop Net Bool
  | [], sent => do
    if buf.length ≤ sent then sendDone buf
    else if ← running then Prog.stop .pending
    else return false
  | step :: steps, sent => do
    if buf.length ≤ sent then sendDone buf
    else if ← running then
      Prog.modify fun s => { s with conn := { s.conn with sends := steps } }
      match step with
      | .interrupted => sendLoop buf steps sent
      | .accepted n => sendLoop buf steps (sent + min (n + 1) (buf.length - sent))
      | .brokenPipe =>
        -- `SIGPIPE`, and the handler clears `running`.
        Prog.modify fun s => { s with flag := some 0 }
        return false
      | .pollError | .timeout | .closed | .error => return false
    else return false
where
  /-- The end of the loop with everything sent, and the check of `running` after it. -/
  sendDone (buf : Bytes) : Prog Stop Net Bool := do
    let s ← Prog.get
    record (.sent s.conn.sock buf)
    running

/-- `send_full_timeout`, on the connection in use. -/
def sendFullTimeout (buf : Bytes) : Prog Stop Net Bool := do
  let s ← Prog.get
  sendLoop buf s.conn.sends 0

/-- The loop of `recv_full_timeout` with `received` in the buffer, by the rest of the
script. -/
def recvLoop (len : Nat) : List RecvStep → Bytes → Prog Stop Net (Option Bytes)
  | [], received => do
    if len ≤ received.length then return if ← running then some received else none
    else if ← running then Prog.stop .pending
    else return none
  | step :: steps, received => do
    if len ≤ received.length then return if ← running then some received else none
    else if ← running then
      Prog.modify fun s => { s with conn := { s.conn with recvs := steps } }
      match step with
      | .interrupted => recvLoop len steps received
      | .data n =>
        let s ← Prog.get
        let n := min (n + 1) (len - received.length)
        Prog.modify fun s => { s with conn := { s.conn with pos := s.conn.pos + n } }
        recvLoop len steps (received ++ slice s.conn.stream s.conn.pos n)
      | .pollError | .timeout | .closed | .error => return none
    else return none

/-- `recv_full_timeout`. -/
def recvFullTimeout (len : Nat) : Prog Stop Net (Option Bytes) := do
  let s ← Prog.get
  recvLoop len s.conn.recvs []

/-- `recv_message`; a keep-alive is the empty message. -/
def recvMessage : Prog Stop Net (Option Bytes) := do
  match ← recvFullTimeout 4 with
  | none => return none
  | some lenPrefix =>
    let msgLen := ntohl lenPrefix
    if msgLen = 0 then return some []
    else recvFullTimeout msgLen.toNat

/-! ## What the functions do -/

/-- The only thing that a read of `running` changes is the flag, and it is only ever
cleared. -/
theorem running_spec {P : Net → Prop} {Q : Bool → Net → Prop} {E : Net → Prop}
    (h : ∀ s b flag, P s → Q b { s with flag := flag }) : Prog.Triple P running Q E := by
  intro s hs
  unfold running
  cases hflag : s.flag with
  | none =>
    have := h s true none hs
    rwa [← hflag] at this
  | some n =>
    cases n with
    | zero =>
      have := h s false (some 0) hs
      rwa [← hflag] at this
    | succ n => exact h s true (some n) hs

end CourseWork.Torrent
