import CourseWork.Daemon.Config
import CourseWork.Lib.Runs
import CourseWork.Lib.Snprintf

/-!
# Service of the daemon

`main`: the options, the start, and the loop over `select` that answers one client after the
other with the size of the file, until a signal. Signals and clients come at any time.
All allocations succeed.
-/

namespace CourseWork.Daemon
open CLib Runs

/-! ## Answers -/

/-- `get_error_string`, with the error numbers of Linux. -/
def getErrorString (errnum : Int) : Bytes :=
  match errnum with
  | 2 => ascii "File not found"
  | 13 => ascii "Permission denied"
  | 1 => ascii "Operation not permitted"
  | 5 => ascii "I/O error"
  | 28 => ascii "No space left on device"
  | 21 => ascii "Is a directory"
  | 40 => ascii "Too many symbolic links"
  | 36 => ascii "File name too long"
  | 20 => ascii "Not a directory"
  | 30 => ascii "Read-only file system"
  | 22 => ascii "Invalid argument"
  | _ => ascii "Unknown error"

/-- What `stat` tells of the file: an error, something that is no regular file, or a size. -/
inductive Stat
  | failed (errno : Nat)
  | special
  | regular (size : Int64)
  deriving DecidableEq

/-- Error numbers are positive and small, sizes are not negative. -/
def Stat.Documented : Stat → Prop
  | .failed errno => 0 < errno ∧ errno < 4096
  | .special => True
  | .regular size => 0 ≤ size

instance : DecidablePred Stat.Documented := fun found =>
  match found with
  | .failed errno => inferInstanceAs (Decidable (0 < errno ∧ errno < 4096))
  | .special => inferInstanceAs (Decidable True)
  | .regular size => inferInstanceAs (Decidable (0 ≤ size))

/-- `get_file_size`. -/
def getFileSize : Stat → Int64
  | .failed errno => -Int64.ofNat errno
  | .special => -22
  | .regular size => size

/-- `BUFFER_SIZE`. -/
def bufferSize : Nat := 1024

/-- What `handle_client` sends: the buffer up to the terminator. -/
def response (found : Stat) : Bytes :=
  let size := getFileSize found
  cstr (snprintfBytes bufferSize
    (if size < 0 then ascii "ERROR: " ++ getErrorString (-size).toInt32.toInt ++ ascii "\n"
    else printInt size.toInt ++ ascii "\n"))

/-! ## The start -/

/-- The loop over `argv`: the configuration file and whether `-n` is among the options, or `none`
for `-h`. -/
def parseArgs (customConfig : Bytes) (noDaemon : Bool) : List Bytes → Option (Bytes × Bool)
  | [] => some (customConfig, noDaemon)
  | arg :: args =>
    if arg = ascii "--no-daemon" ∨ arg = ascii "-n" then parseArgs customConfig true args
    else if arg = ascii "--config" ∨ arg = ascii "-c" then
      match args with
      | [] => some (customConfig, noDaemon)
      | file :: args => parseArgs file noDaemon args
    else if arg = ascii "--help" ∨ arg = ascii "-h" then none
    else parseArgs customConfig noDaemon args

/-- `CONFIG_FILE`. -/
def configFile : Bytes := ascii "./fs-daemon.conf"

/-- What the process finds when it starts: the configuration files, which calls succeed, and
whether a signal comes before the loop. -/
structure Host where
  system : System
  file : Bytes → Option Bytes
  createDaemon : Bool
  socket : Bool
  bind : Bool
  listen : Bool
  setgid : Bool
  setuid : Bool
  signalled : Bool

/-- Where the process is: in a call of the loop, behind it, or at its end. A client is a number,
in the order of the connections. -/
inductive Pc
  | select
  | accept
  | stat (client : Nat)
  | send (client : Nat) (found : Stat)
  | close (client : Nat)
  /-- Before `close(sockfd)`. -/
  | shutdown
  | unlink
  | exited
  deriving DecidableEq

/-- What the process does with the sockets and the file. -/
inductive Event
  | accepted (client : Nat)
  | found (found : Stat)
  | sent (client : Nat) (bytes : Bytes)
  | closed (client : Nat)
  | closedListener
  | unlinked (ok : Bool)
  deriving DecidableEq

/-- `running`, the queue of the listening socket, how many clients have connected, and what was
done. -/
structure Service where
  running : Bool
  pc : Pc
  queue : List Nat
  connected : Nat
  log : List Event

/-- The head of the loop. -/
def Service.loop (s : Service) : Service :=
  { s with pc := if s.running then .select else .shutdown }

/-- How the start ends. After `exited`, `bound` says whether the socket is left in the file
system. -/
inductive Start
  | exited (status : Nat) (bound : Bool)
  | undefined
  | serving (s : Service)

/-- `setup_socket` and `drop_privileges`, up to the loop. -/
def serve (host : Host) : Start :=
  if !host.socket || !host.bind then .exited 1 false
  else if !host.listen then .exited 1 true
  else if host.system.getuid = 0 ∧ !(host.setgid && host.setuid) then .exited 1 true
  else .serving (Service.loop ⟨!host.signalled, .select, [], 0, []⟩)

/-- `main` up to the loop. -/
def main (host : Host) (args : List Bytes) : Start :=
  match parseArgs configFile false args with
  | none => .exited 0 false
  | some (customConfig, noDaemon) =>
    match parseConfig host.system (host.file customConfig) with
    | none => .undefined
    | some parsed =>
      if parsed.config.daemonize && !noDaemon && !host.createDaemon then .exited 1 false
      else serve host

/-! ## The loop -/

/-- What `select` returns. -/
inductive Selected
  | failed
  | interrupted
  | timeout
  | ready
  deriving DecidableEq

/-- A signal, a client that connects, or the end of the call that the process is in. -/
inductive Action
  | signal
  | connect
  | select (result : Selected)
  | accept (ok : Bool)
  | stat (found : Stat)
  | send (result : Option Nat)
  | close
  | closeListener
  | unlink (ok : Bool)
  deriving DecidableEq

/-- What follows `select`, which reports a client only if there is one. -/
def Service.selected (s : Service) : Selected → Option Service
  | .failed => some { s with pc := .shutdown }
  | .interrupted => some s.loop
  | .timeout => some s.loop
  | .ready => if s.queue = [] then none else some { s with pc := .accept }

/-- One step, if it is possible. `accept` waits for a client. -/
def Service.step (s : Service) : Action → Option Service
  | .signal => if s.pc = .exited then none else some { s with running := false }
  | .connect =>
    if s.pc = .exited then none
    else some { s with queue := s.queue ++ [s.connected], connected := s.connected + 1 }
  | .select result => if s.pc = .select then s.selected result else none
  | .accept ok =>
    if s.pc = .accept then
      if !ok then some s.loop
      else match s.queue with
        | [] => none
        | client :: queue =>
          some { s with pc := .stat client, queue := queue, log := s.log ++ [.accepted client] }
    else none
  | .stat found =>
    match s.pc with
    | .stat client =>
      if found.Documented then
        some { s with pc := .send client found, log := s.log ++ [.found found] }
      else none
    | _ => none
  | .send result =>
    match s.pc with
    | .send client found => some { s with
        pc := .close client
        log := s.log ++ [.sent client ((response found).take (result.getD 0))] }
    | _ => none
  | .close =>
    match s.pc with
    | .close client => some (Service.loop { s with log := s.log ++ [.closed client] })
    | _ => none
  | .closeListener =>
    if s.pc = .shutdown then some { s with pc := .unlink, log := s.log ++ [.closedListener] }
    else none
  | .unlink ok =>
    if s.pc = .unlink then some { s with pc := .exited, log := s.log ++ [.unlinked ok] } else none

/-- A step relation for the runs. -/
def Step (s : Service) (a : Action) (s' : Service) : Prop := s.step a = some s'

/-- The process takes the step, not a client or the one who sends the signal. -/
def Action.own : Action → Bool
  | .signal | .connect => false
  | _ => true

/-- The process takes the step, and its call does not fail. -/
def Action.succeeds : Action → Bool
  | .signal | .connect => false
  | .select result => result = .timeout || result = .ready
  | .accept ok => ok
  | .stat (.failed _) => false
  | .stat _ => true
  | .send result => result.isSome
  | .close | .closeListener => true
  | .unlink ok => ok

/-! ## What clients get -/

/-- What a client is to read. -/
def answer : Stat → Bytes
  | .failed errno => ascii "ERROR: " ++ getErrorString errno ++ ascii "\n"
  | .special => ascii "ERROR: Invalid argument\n"
  | .regular size => Numeral.print 10 size.toInt.toNat ++ ascii "\n"

/-- The service of one client from `accept` to `close`. -/
structure Session where
  client : Nat
  found : Stat
  sent : Bytes

/-- Its calls. -/
def Session.events (x : Session) : List Event :=
  [.accepted x.client, .found x.found, .sent x.client x.sent, .closed x.client]

/-- What is done of the service under way, and for whom. -/
inductive Pending : Pc → List Event → Option Nat → Prop
  | select : Pending .select [] none
  | accept : Pending .accept [] none
  | stat {client : Nat} : Pending (.stat client) [.accepted client] (some client)
  | send {client : Nat} {found : Stat} :
      found.Documented →
      Pending (.send client found) [.accepted client, .found found] (some client)
  | close {client : Nat} {found : Stat} {sent : Bytes} :
      sent <+: answer found →
      Pending (.close client) [.accepted client, .found found, .sent client sent] (some client)
  | shutdown : Pending .shutdown [] none
  | unlink : Pending .unlink [.closedListener] none
  | exited {ok : Bool} : Pending .exited [.closedListener, .unlinked ok] none

/-- The clients are served one after the other, in the order in which they have connected. Each
of them gets nothing but its answer, and its descriptor is closed before the next one is
accepted. No call of `accept` waits. -/
structure Serves (s : Service) (sessions : List Session) (pending : List Event)
    (client : Option Nat) : Prop where
  underway : Pending s.pc pending client
  log : s.log = sessions.flatMap Session.events ++ pending
  order : sessions.map Session.client ++ client.toList ++ s.queue = List.range s.connected
  answers : ∀ x ∈ sessions, x.sent <+: answer x.found
  accepts : s.pc = .accept → s.queue ≠ []

/-! ## The text of an answer -/

section Answers

theorem getErrorString_short (errnum : Int) :
    (getErrorString errnum).length ≤ 26 ∧ 0 ∉ getErrorString errnum := by
  unfold getErrorString
  split <;> decide

/-- A text that fits is read back from the buffer. -/
theorem cstr_snprintfBytes {size : Nat} {text : Bytes} (hfits : text.length < size)
    (hnul : 0 ∉ text) : cstr (snprintfBytes size text) = text := by
  rw [snprintfBytes_fits hfits, cstr_append_nul hnul]

theorem printInt_size {size : Int} (h : 0 ≤ size) :
    printInt size = Numeral.print 10 size.toNat := by
  rw [printInt, if_neg (Int.not_lt.mpr h), show size.natAbs = size.toNat by omega]

/-- What is sent is the answer. -/
theorem response_eq {found : Stat} (h : found.Documented) : response found = answer found := by
  cases found with
  | failed errno =>
    obtain ⟨hpos, hlt⟩ := h
    have hsize : (getFileSize (.failed errno)).toInt = -errno :=
      Int64.toInt_neg_ofNat_of_le (by omega)
    have hneg : getFileSize (.failed errno) < 0 := by
      rw [Int64.lt_iff_toInt_lt, hsize, Int64.toInt_zero]
      omega
    have herrno : (-getFileSize (.failed errno)).toInt32.toInt = errno := by
      have hlong : ((errno : Int)).bmod (2 ^ 64) = errno :=
        Int.bmod_eq_of_le (by omega) (by omega)
      rw [Int64.toInt_toInt32, Int64.toInt_neg, hsize, Int.neg_neg, hlong,
        Int.bmod_eq_of_le (by omega) (by omega)]
    obtain ⟨hlength, hnul⟩ := getErrorString_short errno
    rw [response, if_pos hneg, herrno]
    refine cstr_snprintfBytes ?_ ?_
    · rw [List.length_append, List.length_append]
      show 7 + _ + 1 < 1024
      omega
    · rw [List.mem_append, List.mem_append]
      rintro ((hmem | hmem) | hmem)
      · exact absurd hmem (by decide)
      · exact hnul hmem
      · exact absurd hmem (by decide)
  | special => decide
  | regular size =>
    have hsize : 0 ≤ size.toInt := Int64.le_iff_toInt_le.mp h
    have hmax := size.toInt_lt
    have hneg : ¬getFileSize (.regular size) < 0 := fun hneg => by
      rw [Int64.lt_iff_toInt_lt, Int64.toInt_zero] at hneg
      exact absurd hneg (Int.not_lt.mpr hsize)
    rw [response, if_neg hneg, show getFileSize (.regular size) = size from rfl,
      printInt_size hsize]
    have hlength : (Numeral.print 10 size.toInt.toNat).length ≤ 19 :=
      Numeral.length_print_le (by decide) (by decide) (by omega)
    refine cstr_snprintfBytes ?_ ?_
    · rw [List.length_append]
      show _ + 1 < 1024
      omega
    · rw [List.mem_append]
      rintro (hmem | hmem)
      · exact absurd (isDigit_print 0 hmem) (by decide)
      · exact absurd hmem (by decide)

end Answers

/-! ## Steps -/

section Steps

variable {s s' : Service} {a : Action} {sessions : List Session} {pending : List Event}
  {client : Option Nat}

/-- What a step does. -/
inductive Service.Moved (s : Service) : Action → Service → Prop
  | signal : Moved s .signal { s with running := false }
  | connect : Moved s .connect
      { s with queue := s.queue ++ [s.connected], connected := s.connected + 1 }
  | failed : s.pc = .select → Moved s (.select .failed) { s with pc := .shutdown }
  | again {result : Selected} : s.pc = .select → Moved s (.select result) s.loop
  | ready : s.pc = .select → s.queue ≠ [] → Moved s (.select .ready) { s with pc := .accept }
  | refused : s.pc = .accept → Moved s (.accept false) s.loop
  | accepted {client : Nat} {queue : List Nat} : s.pc = .accept → s.queue = client :: queue →
      Moved s (.accept true)
        { s with pc := .stat client, queue := queue, log := s.log ++ [.accepted client] }
  | stat {client : Nat} {found : Stat} : s.pc = .stat client → found.Documented →
      Moved s (.stat found) { s with pc := .send client found, log := s.log ++ [.found found] }
  | send {client : Nat} {found : Stat} {result : Option Nat} : s.pc = .send client found →
      Moved s (.send result) { s with
        pc := .close client
        log := s.log ++ [.sent client ((response found).take (result.getD 0))] }
  | close {client : Nat} : s.pc = .close client →
      Moved s .close (Service.loop { s with log := s.log ++ [.closed client] })
  | closeListener : s.pc = .shutdown →
      Moved s .closeListener { s with pc := .unlink, log := s.log ++ [.closedListener] }
  | unlink {ok : Bool} : s.pc = .unlink →
      Moved s (.unlink ok) { s with pc := .exited, log := s.log ++ [.unlinked ok] }

theorem Service.moved (hstep : s.step a = some s') : s.Moved a s' := by
  cases a with
  | signal =>
    obtain ⟨-, hs'⟩ := Option.ite_none_left_eq_some.mp hstep
    cases hs'
    exact .signal
  | connect =>
    obtain ⟨-, hs'⟩ := Option.ite_none_left_eq_some.mp hstep
    cases hs'
    exact .connect
  | select result =>
    obtain ⟨hpc, hs'⟩ := Option.ite_none_right_eq_some.mp hstep
    cases result with
    | failed =>
      cases hs'
      exact .failed hpc
    | interrupted | timeout =>
      cases hs'
      exact .again hpc
    | ready =>
      obtain ⟨hqueue, hs'⟩ := Option.ite_none_left_eq_some.mp hs'
      cases hs'
      exact .ready hpc hqueue
  | accept ok =>
    obtain ⟨hpc, hs'⟩ := Option.ite_none_right_eq_some.mp hstep
    cases ok with
    | false =>
      cases hs'
      exact .refused hpc
    | true =>
      cases hqueue : s.queue with
      | nil =>
        rw [hqueue] at hs'
        cases hs'
      | cons client queue =>
        rw [hqueue] at hs'
        cases hs'
        exact .accepted hpc hqueue
  | stat found =>
    rw [Service.step] at hstep
    split at hstep
    · next hpc =>
      obtain ⟨hfound, hs'⟩ := Option.ite_none_right_eq_some.mp hstep
      cases hs'
      exact .stat hpc hfound
    · cases hstep
  | send result =>
    rw [Service.step] at hstep
    split at hstep
    · next hpc =>
      cases hstep
      exact .send hpc
    · cases hstep
  | close =>
    rw [Service.step] at hstep
    split at hstep
    · next hpc =>
      cases hstep
      exact .close hpc
    · cases hstep
  | closeListener =>
    obtain ⟨hpc, hs'⟩ := Option.ite_none_right_eq_some.mp hstep
    cases hs'
    exact .closeListener hpc
  | unlink ok =>
    obtain ⟨hpc, hs'⟩ := Option.ite_none_right_eq_some.mp hstep
    cases hs'
    exact .unlink hpc

/-- Between two clients. -/
theorem Serves.between (h : Serves s sessions [] none) {pc : Pc} (hpc : Pending pc [] none)
    (haccept : pc = .accept → s.queue ≠ []) : Serves { s with pc := pc } sessions [] none :=
  ⟨hpc, h.log, h.order, h.answers, haccept⟩

theorem Serves.loop (h : Serves s sessions [] none) : Serves s.loop sessions [] none := by
  unfold Service.loop
  split
  · exact h.between .select fun hpc => absurd hpc (by decide)
  · exact h.between .shutdown fun hpc => absurd hpc (by decide)

/-- The service under way, where the process is known. -/
theorem Serves.pending_at (h : Serves s sessions pending client) {pc : Pc} (hpc : s.pc = pc) :
    Pending pc pending client := hpc ▸ h.underway

/-- One call of the service under way, not the last one. -/
theorem Serves.called (h : Serves s sessions pending client) {pc : Pc} {e : Event}
    (hpending : Pending pc (pending ++ [e]) client) (haccept : pc ≠ .accept) :
    Serves { s with pc := pc, log := s.log ++ [e] } sessions (pending ++ [e]) client := by
  refine ⟨hpending, ?_, h.order, h.answers, fun hpc => absurd hpc haccept⟩
  rw [h.log]
  exact List.append_assoc _ _ _

theorem Serves.accepted (h : Serves s sessions [] none) {number : Nat} {queue : List Nat}
    (hqueue : s.queue = number :: queue) :
    Serves { s with pc := .stat number, queue := queue, log := s.log ++ [.accepted number] }
      sessions [.accepted number] (some number) := by
  refine ⟨.stat, ?_, ?_, h.answers, fun hpc => Pc.noConfusion hpc⟩
  · rw [h.log, List.append_nil]
  · show _ ++ [number] ++ queue = List.range s.connected
    rw [← h.order, hqueue, Option.toList_none, List.append_nil, List.append_assoc]
    rfl

/-- The service of a client ends. -/
theorem Serves.closed {number : Nat} {found : Stat} {sent : Bytes} (hsent : sent <+: answer found)
    (h : Serves s sessions [.accepted number, .found found, .sent number sent] (some number)) :
    Serves (Service.loop { s with log := s.log ++ [.closed number] })
      (sessions ++ [⟨number, found, sent⟩]) [] none := by
  have hserves : Serves { s with pc := .select, log := s.log ++ [.closed number] }
      (sessions ++ [⟨number, found, sent⟩]) [] none := by
    refine ⟨.select, ?_, ?_, ?_, fun hpc => Pc.noConfusion hpc⟩
    · rw [List.flatMap_append, List.flatMap_singleton, List.append_nil]
      show s.log ++ [_] = _
      rw [h.log, List.append_assoc]
      rfl
    · rw [← h.order, List.map_append]
      exact congrArg (· ++ s.queue) (List.append_nil _)
    · exact List.forall_mem_append.mpr ⟨h.answers, List.forall_mem_singleton.mpr hsent⟩
  exact hserves.loop

/-- A step of the process, of a client or of a signal. -/
theorem Serves.step (h : Serves s sessions pending client) (hstep : s.step a = some s') :
    ∃ sessions' pending' client', Serves s' sessions' pending' client' := by
  cases Service.moved hstep with
  | signal => exact ⟨_, _, _, h.underway, h.log, h.order, h.answers, h.accepts⟩
  | connect =>
    refine ⟨sessions, pending, client, h.underway, h.log, ?_, h.answers, fun _ => ?_⟩
    · rw [List.range_succ, ← h.order]
      exact (List.append_assoc _ _ _).symm
    · exact List.append_ne_nil_of_right_ne_nil _ (List.cons_ne_nil _ _)
  | failed hpc =>
    cases h.pending_at hpc
    exact ⟨_, _, _, h.between .shutdown fun hpc => absurd hpc (by decide)⟩
  | again hpc =>
    cases h.pending_at hpc
    exact ⟨_, _, _, h.loop⟩
  | ready hpc hqueue =>
    cases h.pending_at hpc
    exact ⟨_, _, _, h.between .accept fun _ => hqueue⟩
  | refused hpc =>
    cases h.pending_at hpc
    exact ⟨_, _, _, h.loop⟩
  | accepted hpc hqueue =>
    cases h.pending_at hpc
    exact ⟨_, _, _, h.accepted hqueue⟩
  | stat hpc hfound =>
    cases h.pending_at hpc
    exact ⟨_, _, _, h.called (.send hfound) (fun hpc => Pc.noConfusion hpc)⟩
  | @send _ found result hpc =>
    cases h.pending_at hpc with
    | send hfound =>
      have hsent : (response found).take (result.getD 0) <+: answer found := by
        rw [response_eq hfound]
        exact List.take_prefix _ _
      exact ⟨_, _, _, h.called (.close hsent) (fun hpc => Pc.noConfusion hpc)⟩
  | close hpc =>
    cases h.pending_at hpc with
    | close hsent => exact ⟨_, _, _, Serves.closed hsent h⟩
  | closeListener hpc =>
    cases h.pending_at hpc
    exact ⟨_, _, _, h.called .unlink (fun hpc => Pc.noConfusion hpc)⟩
  | unlink hpc =>
    cases h.pending_at hpc
    exact ⟨_, _, _, h.called .exited (fun hpc => Pc.noConfusion hpc)⟩

end Steps

/-! ## Runs -/

section Runs

variable {host : Host} {args : List Bytes} {s s' start : Service} {a : Action}
  {trace : List (Service × Action)}

/-- Nobody has been served before the loop. -/
theorem main_serves (h : main host args = .serving start) : Serves start [] [] none := by
  have hserves : ∀ running, Serves (Service.loop ⟨running, .select, [], 0, []⟩) [] [] none :=
    fun running => Serves.loop ⟨.select, rfl, rfl, fun _ hx => absurd hx List.not_mem_nil,
      fun hpc => Pc.noConfusion hpc⟩
  rw [main] at h
  split at h
  · cases h
  · split at h
    · cases h
    · split at h
      · cases h
      · rw [serve] at h
        split at h
        · cases h
        · split at h
          · cases h
          · split at h
            · cases h
            · cases h
              exact hserves _

/-- From a state in which the clients are served, every run leads to one. -/
theorem serves_of_run {sessions : List Session} {pending : List Event} {client : Option Nat}
    (h : Serves start sessions pending client) (hrun : Run Step start trace s) :
    ∃ sessions pending client, Serves s sessions pending client := by
  induction hrun with
  | nil => exact ⟨sessions, pending, client, h⟩
  | cons _ hstep ih =>
    obtain ⟨_, _, _, hserves⟩ := ih
    exact hserves.step hstep

/-- From the start of the daemon on, whatever clients and signals do and whatever the calls of
the loop return. -/
theorem daemon_serves (h : main host args = .serving start) (hrun : Run Step start trace s) :
    ∃ sessions pending client, Serves s sessions pending client :=
  serves_of_run (main_serves h) hrun

/-- All calls of the start succeed. -/
def plainHost : Host where
  system := ⟨0, 0, fun _ => none, fun _ => none⟩
  file _ := none
  createDaemon := true
  socket := true
  bind := true
  listen := true
  setgid := true
  setuid := true
  signalled := false

/-- The first client is answered, the second one connects meanwhile, and a signal comes. -/
def oneClient : List Action :=
  [.connect, .select .ready, .accept true, .connect, .stat (.regular 12), .signal, .send (some 3)]

/-- The first of two clients. -/
theorem daemon_serves_one :
    ∃ start trace s, Run Step start trace s ∧ s.log = [.accepted 0, .found (.regular 12),
      .sent 0 (ascii "12\n")] ∧ ∃ sessions pending client, Serves s sessions pending client := by
  obtain ⟨start, hstart⟩ : ∃ start, main plainHost [ascii "-n"] = .serving start := ⟨_, rfl⟩
  obtain ⟨s, hexec, hlog⟩ : ∃ s, exec Service.step oneClient start = some s ∧
      s.log = [.accepted 0, .found (.regular 12), .sent 0 (ascii "12\n")] := by
    cases hstart
    exact ⟨_, rfl, by decide⟩
  obtain ⟨trace, hrun⟩ := Run.nil.exec hexec
  exact ⟨start, trace, s, hrun, hlog, daemon_serves hstart hrun⟩

/-! ## The end -/

/-- How many calls are left after a signal, at most. -/
def Pc.rank : Pc → Nat
  | .select => 7
  | .accept => 6
  | .stat _ => 5
  | .send _ _ => 4
  | .close _ => 3
  | .shutdown => 2
  | .unlink => 1
  | .exited => 0

/-- A client may still be accepted. -/
def Pc.accepts : Pc → Nat
  | .select | .accept => 1
  | _ => 0

/-- How many clients were accepted. -/
def accepted (log : List Event) : Nat :=
  log.countP fun e => match e with
    | .accepted _ => true
    | _ => false

theorem accepted_append (log events : List Event) :
    accepted (log ++ events) = accepted log + accepted events := List.countP_append

/-- A call that ends after a signal leaves fewer calls, and a signal stays. -/
theorem step_stopped (hstop : s.running = false) (hstep : s.step a = some s') :
    s'.running = false ∧ (if a.own then 1 else 0) + s'.pc.rank ≤ s.pc.rank ∧
      accepted s'.log + s'.pc.accepts ≤ accepted s.log + s.pc.accepts := by
  have hloop : ∀ log, Service.loop { s with log := log } =
      { s with pc := .shutdown, log := log } := fun log => by
    rw [Service.loop, hstop]
    rfl
  cases Service.moved hstep with
  | signal => exact ⟨rfl, Nat.le_of_eq (Nat.zero_add _), Nat.le_refl _⟩
  | connect => exact ⟨hstop, Nat.le_of_eq (Nat.zero_add _), Nat.le_refl _⟩
  | failed hpc =>
    rw [hpc]
    exact ⟨hstop, Nat.le_of_ble_eq_true rfl, Nat.le_add_right _ 1⟩
  | again hpc =>
    rw [hloop s.log, hpc]
    exact ⟨hstop, Nat.le_of_ble_eq_true rfl, Nat.le_add_right _ 1⟩
  | ready hpc =>
    rw [hpc]
    exact ⟨hstop, Nat.le_of_ble_eq_true rfl, Nat.le_refl _⟩
  | refused hpc =>
    rw [hloop s.log, hpc]
    exact ⟨hstop, Nat.le_of_ble_eq_true rfl, Nat.le_add_right _ 1⟩
  | accepted hpc | stat hpc | send hpc | closeListener hpc | unlink hpc =>
    rw [hpc]
    exact ⟨hstop, Nat.le_of_ble_eq_true rfl, Nat.le_of_eq (accepted_append _ _)⟩
  | close hpc =>
    rw [hloop, hpc]
    exact ⟨hstop, Nat.le_of_ble_eq_true rfl, Nat.le_of_eq (accepted_append _ _)⟩

/-- The call that the process is in can end with success. -/
theorem Serves.own_step {sessions : List Session} {pending : List Event} {client : Option Nat}
    (h : Serves s sessions pending client) (hpc : s.pc ≠ .exited) :
    ∃ a s', a.succeeds = true ∧ s.step a = some s' := by
  cases hat : s.pc with
  | select => exact ⟨.select .timeout, s.loop, rfl, by
      rw [Service.step, if_pos hat, Service.selected]⟩
  | accept =>
    obtain ⟨client, queue, hqueue⟩ := List.exists_cons_of_ne_nil (h.accepts hat)
    refine ⟨.accept true, { s with
      pc := .stat client, queue := queue, log := s.log ++ [.accepted client] }, rfl, ?_⟩
    rw [Service.step, if_pos hat, if_neg (by decide), hqueue]
  | stat client => exact ⟨.stat .special, { s with
      pc := .send client .special, log := s.log ++ [.found .special] }, rfl,
      by rw [Service.step, hat]; exact if_pos trivial⟩
  | send client found => exact ⟨.send (some (response found).length), { s with
      pc := .close client
      log := s.log ++ [.sent client ((response found).take (response found).length)] }, rfl,
      by rw [Service.step, hat]; rfl⟩
  | close client => exact ⟨.close, Service.loop { s with log := s.log ++ [.closed client] }, rfl,
      by rw [Service.step, hat]⟩
  | shutdown => exact ⟨.closeListener, { s with
      pc := .unlink, log := s.log ++ [.closedListener] }, rfl, by rw [Service.step, if_pos hat]⟩
  | unlink => exact ⟨.unlink true, { s with
      pc := .exited, log := s.log ++ [.unlinked true] }, rfl, by rw [Service.step, if_pos hat]⟩
  | exited => exact absurd hat hpc

/-- After a signal, whatever clients do and whatever the calls return: there are at most seven
calls more and at most one client more is accepted, and until the process is at its end the call
that it is in can end with success. -/
theorem daemon_stops (h : main host args = .serving start) (hrun : Run Step start trace s)
    (hstop : s.running = false) {trace' : List (Service × Action)} (hrest : Run Step s trace' s') :
    (trace'.countP fun x => x.2.own) + s'.pc.rank ≤ s.pc.rank ∧ s.pc.rank ≤ 7 ∧
      accepted s'.log ≤ accepted s.log + 1 ∧
      (s'.pc ≠ .exited →
        ∃ a s2, a.succeeds = true ∧ s'.step a = some s2) := by
  have hrun' : s'.running = false ∧
      (trace'.countP fun x => x.2.own) + s'.pc.rank ≤ s.pc.rank ∧
        accepted s'.log + s'.pc.accepts ≤ accepted s.log + s.pc.accepts := by
    induction hrest with
    | nil => exact ⟨hstop, Nat.le_of_eq (Nat.zero_add _), Nat.le_refl _⟩
    | cons _ hstep ih =>
      obtain ⟨hstopped, hcalls, haccepted⟩ := ih
      obtain ⟨hstopped', hcalls', haccepted'⟩ := step_stopped hstopped hstep
      refine ⟨hstopped', ?_, Nat.le_trans haccepted' haccepted⟩
      rw [List.countP_cons]
      dsimp only
      omega
  obtain ⟨_, hcalls, haccepted⟩ := hrun'
  have haccepts : s.pc.accepts ≤ 1 := by
    unfold Pc.accepts
    split
    · exact Nat.le_refl 1
    · exact Nat.le_refl 1
    · exact Nat.zero_le 1
  have hrank : s.pc.rank ≤ 7 := by
    cases s.pc <;> exact Nat.le_of_ble_eq_true rfl
  refine ⟨hcalls, hrank, by omega, fun hpc => ?_⟩
  obtain ⟨sessions, pending, client, hserves⟩ := serves_of_run (main_serves h) hrun
  obtain ⟨_, _, _, hserves'⟩ := serves_of_run hserves hrest
  exact hserves'.own_step hpc

/-- The first client is the last one. -/
theorem daemon_stops_one :
    ∃ s trace s', Run Step s trace s' ∧ s'.pc = .exited ∧ s'.queue = [1] ∧
      (trace.countP fun x => x.2.own) + s'.pc.rank ≤ s.pc.rank ∧ s.pc.rank ≤ 7 ∧
      accepted s'.log ≤ accepted s.log + 1 ∧
      (s'.pc ≠ .exited →
        ∃ a s2, a.succeeds = true ∧ s'.step a = some s2) := by
  obtain ⟨start, hstart⟩ : ∃ start, main plainHost [ascii "-n"] = .serving start := ⟨_, rfl⟩
  obtain ⟨s, s', hexec, hstop, hrest, hpc, hqueue⟩ : ∃ s s',
      exec Service.step oneClient start = some s ∧ s.running = false ∧
      exec Service.step [.close, .closeListener, .unlink true] s = some s' ∧ s'.pc = .exited ∧
      s'.queue = [1] := by
    cases hstart
    exact ⟨_, _, rfl, rfl, rfl, rfl, rfl⟩
  obtain ⟨_, hrun⟩ := Run.nil.exec hexec
  obtain ⟨trace, hrun'⟩ := Run.nil.exec hrest
  exact ⟨s, trace, s', hrun', hpc, hqueue, daemon_stops hstart hrun hstop hrun'⟩

end Runs

end CourseWork.Daemon
