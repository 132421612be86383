import CourseWork.Lib.CLib
import CourseWork.Lib.Runs

/-!
# A connection of the web server

The bytes of a client arrive in any parts, its socket is edge-triggered, and the main loop
reads until nothing is left. An event that tells of a half-closed connection makes the
loop close it before it reads.
-/

namespace CourseWork.WebServer
open CLib Runs

/-- `BUFFER_SIZE`. -/
def bufferSize : Nat := 4096

/-- The end of a request. -/
def endMarker : Bytes := [13, 10, 13, 10]

/-- `client_data_t` without its descriptor. -/
structure ClientData where
  buffer : Bytes
  bufferLen : Nat
  responseSent : Bool

/-- `client_data_t` after `memset`. -/
def ClientData.new : ClientData := ⟨List.replicate bufferSize 0, 0, false⟩

/-- A response: `handle_http_request` was called with this string, or 400 was sent. -/
inductive Output
  | handled (request : Bytes)
  | badRequest
  deriving DecidableEq

/-- The main loop, as far as the connection is concerned. -/
inductive Server
  /-- No event of the connection is handled. -/
  | waiting (data : ClientData)
  /-- In the loop over `recv`. -/
  | receiving (data : ClientData)
  | closed

/-- The body of the loop over `recv`, after these bytes were read. -/
def received (data : ClientData) (bytes : Bytes) : Server × List Output :=
  let data := { data with
    buffer := data.buffer.take data.bufferLen ++ bytes ++
      data.buffer.drop (data.bufferLen + bytes.length)
    bufferLen := data.bufferLen + bytes.length }
  match if data.bufferLen ≥ 4 then strstr data.buffer endMarker else none with
  | some stop =>
    let requestLen := stop + 4
    let buffer :=
      if requestLen < bufferSize then data.buffer.set requestLen 0 else data.buffer
    (.closed, [.handled (cstr buffer)])
  | none =>
    if data.bufferLen ≥ bufferSize - 1 then (.closed, [.badRequest]) else (.receiving data, [])

/-- After the loop: `recv` returned 0, or there is nothing to read. -/
def afterLoop (data : ClientData) (eof : Bool) : Server :=
  if eof && !data.responseSent then .closed else .waiting data

/-- The socket and what has happened. -/
structure Connection where
  /-- Arrived and not yet read. -/
  inbox : Bytes
  /-- The client has half-closed the connection. -/
  fin : Bool
  /-- An event is undelivered. -/
  edge : Bool
  server : Server
  /-- All that has arrived. -/
  arrived : Bytes
  outputs : List Output

/-- A step of the client or of the server. -/
inductive ConnectionAction
  | arrive (bytes : Bytes)
  | halfClose
  | event
  | recv (n : Nat)

/-- An event has `EPOLLIN`. -/
def Connection.epollin (c : Connection) : Bool := c.fin || c.inbox ≠ []

/-- An event has `EPOLLRDHUP`. -/
def Connection.epollrdhup (c : Connection) : Bool := c.fin

/-- One step, if it is possible. -/
def Connection.step (c : Connection) : ConnectionAction → Option Connection
  | .arrive bytes =>
    if c.fin then none
    else some { c with inbox := c.inbox ++ bytes, edge := true, arrived := c.arrived ++ bytes }
  | .halfClose => some { c with fin := true, edge := true }
  | .event =>
    match c.server with
    | .waiting data =>
      if !c.edge then none
      else if c.epollrdhup then some { c with edge := false, server := .closed }
      else if c.epollin then some { c with edge := false, server := .receiving data }
      else some { c with edge := false }
    | _ => none
  | .recv n =>
    match c.server with
    | .receiving data =>
      if c.inbox = [] then some { c with server := afterLoop data c.fin }
      else if 0 < n ∧ n ≤ c.inbox.length ∧ n ≤ bufferSize - data.bufferLen - 1 then
        some { c with
          inbox := c.inbox.drop n
          server := (received data (c.inbox.take n)).1
          outputs := c.outputs ++ (received data (c.inbox.take n)).2 }
      else none
    | _ => none

/-- A step relation for the runs. -/
def Connection.Step (c : Connection) (a : ConnectionAction) (c' : Connection) : Prop :=
  c.step a = some c'

/-- An accepted connection. -/
def Connection.accepted : Connection := ⟨[], false, false, .waiting .new, [], []⟩

/-! ## What is due -/

/-- The answer to what has arrived: the request up to its first end, if that is within the
first 4095 bytes and no NUL stands before it, and 400 for 4095 other bytes. -/
def due (arrived : Bytes) : Option Output :=
  match strstr (arrived.take (bufferSize - 1)) endMarker with
  | some stop => some (.handled (arrived.take (stop + 4)))
  | none => if bufferSize - 1 ≤ arrived.length then some .badRequest else none

/-- The server has nothing to do for the connection. -/
def Connection.settled (c : Connection) : Bool :=
  match c.server with
  | .waiting _ => !c.edge
  | .receiving _ => false
  | .closed => true

/-- At most one answer is given, and only the one that is due; a connection that is closed, or
for which nothing is left to do, has got it. -/
structure Connection.Kept (c : Connection) : Prop where
  once : c.outputs.length ≤ 1
  right : ∀ x ∈ c.outputs, due c.arrived = some x
  answered : c.settled → c.outputs = (due c.arrived).toList

/-- No event with `EPOLLRDHUP` is delivered while an answer is due. -/
def Connection.Timely (c : Connection) : ConnectionAction → Prop
  | .event => c.epollrdhup = true → due c.arrived = none
  | _ => True

section Due

variable {arrived bytes : Bytes} {x : Output}

theorem strstr_le {s : Bytes} {k : Nat} (h : strstr s endMarker = some k) : k + 4 ≤ s.length :=
  (search_le h).trans (cstr_isPrefix s).length_le

/-- More bytes do not change the answer. -/
theorem due_append (h : due arrived = some x) (rest : Bytes) : due (arrived ++ rest) = some x := by
  rw [due] at h ⊢
  rw [List.take_append]
  cases hfind : strstr (arrived.take (bufferSize - 1)) endMarker with
  | some stop =>
    rw [hfind] at h
    have hle := strstr_le hfind
    rw [List.length_take] at hle
    rw [strstr_append hfind]
    dsimp only at h ⊢
    rw [List.take_append_of_le_length (by omega)]
    exact h
  | none =>
    rw [hfind] at h
    dsimp only at h
    split at h
    · next hlong =>
      rw [Nat.sub_eq_zero_of_le hlong, List.take_zero, List.append_nil, hfind]
      dsimp only
      rw [if_pos (by rw [List.length_append]; omega)]
      exact h
    · cases h

end Due

/-! ## The receive buffer -/

/-- The data hold the bytes received so far, and no answer is due for them. -/
structure ClientData.Holds (data : ClientData) (got : Bytes) : Prop where
  buffer : data.buffer = got ++ List.replicate (bufferSize - got.length) 0
  bufferLen : data.bufferLen = got.length
  unsent : data.responseSent = false
  short : got.length < bufferSize - 1
  unmarked : strstr got endMarker = none

theorem holds_new : ClientData.new.Holds [] := ⟨rfl, rfl, rfl, by decide, by decide⟩

section Buffer

variable {data : ClientData} {got bytes : Bytes}

theorem ClientData.Holds.due (h : data.Holds got) : due got = none := by
  have hshort := h.short
  rw [WebServer.due, List.take_of_length_le (Nat.le_of_lt hshort), h.unmarked]
  exact if_neg (by omega)

/-- The string that is handed over is the request. -/
theorem cstr_set {k : Nat} (h : strstr got endMarker = some k) (zeros : Nat) (hzeros : zeros ≠ 0) :
    cstr ((got ++ List.replicate zeros 0).set (k + 4) 0) = got.take (k + 4) := by
  have hle := search_le h
  have hlen : endMarker.length = 4 := rfl
  rw [hlen] at hle
  obtain ⟨rest, hrest⟩ := cstr_isPrefix got
  have htake : got.take (k + 4) = (cstr got).take (k + 4) := by
    conv_lhs => rw [← hrest]
    exact List.take_append_of_le_length hle
  have hnul : (0 : UInt8) ∉ got.take (k + 4) := fun hmem =>
    not_mem_cstr got (List.mem_of_mem_take (htake ▸ hmem))
  have hgot : k + 4 ≤ got.length := strstr_le h
  have hlt : k + 4 < (got ++ List.replicate zeros 0).length := by
    rw [List.length_append, List.length_replicate]
    omega
  rw [List.set_eq_take_append_cons_drop, if_pos hlt, List.take_append_of_le_length hgot,
    cstr_append_nul hnul]

/-- Reading either goes on or gives the answer that is due. -/
theorem received_cases (h : data.Holds got)
    (hroom : bytes.length ≤ bufferSize - data.bufferLen - 1) :
    (∃ data', received data bytes = (.receiving data', []) ∧ data'.Holds (got ++ bytes)) ∨
      ∃ x, received data bytes = (.closed, [x]) ∧ WebServer.due (got ++ bytes) = some x := by
  have hshort := h.short
  have hsize : bufferSize = 4096 := rfl
  rw [h.bufferLen] at hroom
  have hlong : (got ++ bytes).length ≤ bufferSize - 1 := by
    rw [List.length_append]
    omega
  have hbuffer : data.buffer.take data.bufferLen ++ bytes ++
      data.buffer.drop (data.bufferLen + bytes.length) =
        (got ++ bytes) ++ List.replicate (bufferSize - (got ++ bytes).length) 0 := by
    rw [h.buffer, h.bufferLen, List.take_left, List.drop_append, List.drop_of_length_le (by omega),
      List.nil_append, List.drop_replicate, List.length_append]
    congr 2
    omega
  have hfind : (if got.length + bytes.length ≥ 4 then
      strstr ((got ++ bytes) ++ List.replicate (bufferSize - (got ++ bytes).length) 0) endMarker
        else none) = strstr (got ++ bytes) endMarker := by
    rw [strstr, cstr_append_zeros, ← strstr]
    split
    · rfl
    · next hfew =>
      cases hsome : strstr (got ++ bytes) endMarker with
      | none => rfl
      | some k =>
        have hle := strstr_le hsome
        rw [List.length_append] at hle
        omega
  rw [received]
  dsimp only
  rw [hbuffer, h.bufferLen, hfind]
  cases hsome : strstr (got ++ bytes) endMarker with
  | some stop =>
    have hle := strstr_le hsome
    have hset : stop + 4 < bufferSize := by omega
    dsimp only
    rw [if_pos hset, cstr_set hsome _ (by omega)]
    refine .inr ⟨_, rfl, ?_⟩
    rw [WebServer.due, List.take_of_length_le hlong, hsome]
  | none =>
    dsimp only
    by_cases hfull : got.length + bytes.length ≥ bufferSize - 1
    · rw [if_pos hfull]
      refine .inr ⟨_, rfl, ?_⟩
      rw [WebServer.due, List.take_of_length_le hlong, hsome]
      dsimp only
      rw [if_pos (by rw [List.length_append]; exact hfull)]
    · rw [if_neg hfull]
      refine .inl ⟨_, rfl, rfl, List.length_append.symm, h.unsent, ?_, hsome⟩
      rw [List.length_append]
      omega

end Buffer

/-! ## Runs -/

/-- What the server holds of what has arrived. -/
def Connection.Inv (c : Connection) : Prop :=
  match c.server with
  | .waiting data =>
    (c.edge = false → c.inbox = []) ∧ c.outputs = [] ∧
      ∃ got, c.arrived = got ++ c.inbox ∧ data.Holds got
  | .receiving data => c.outputs = [] ∧ ∃ got, c.arrived = got ++ c.inbox ∧ data.Holds got
  | .closed =>
    (c.outputs = [] ∧ c.fin = true) ∨ ∃ x, c.outputs = [x] ∧ due c.arrived = some x

section Runs

variable {c c' : Connection} {a : ConnectionAction}

/-- Without a use of the invariant's last part, a promise is about settled states. -/
theorem Connection.kept_of_nil (h : c.outputs = []) :
    c.Kept ↔ (c.settled → due c.arrived = none) := by
  constructor
  · intro hkept hsettled
    have hanswered := hkept.answered hsettled
    rw [h] at hanswered
    exact Option.toList_eq_nil_iff.mp hanswered.symm
  · intro hdue
    refine ⟨by rw [h]; exact Nat.zero_le _, by rw [h]; exact nofun, fun hsettled => ?_⟩
    rw [h, hdue hsettled]
    rfl

theorem Connection.kept_of_answer {x : Output} (h : c.outputs = [x]) (hdue : due c.arrived = some x) :
    c.Kept := by
  refine ⟨by rw [h]; exact Nat.le_refl _, fun y hy => ?_, fun _ => by rw [h, hdue]; rfl⟩
  rw [h] at hy
  rw [List.mem_singleton.mp hy]
  exact hdue

/-- More bytes: an answer that was given stays the right one. -/
theorem Connection.step_arrive {bytes : Bytes} (h : c.Inv)
    (hstep : c.Step (.arrive bytes) c') : c'.Inv ∧ c'.Kept := by
  rw [Step, step] at hstep
  split at hstep
  · cases hstep
  · next hfin =>
    cases hstep
    rw [Inv] at h
    split at h
    · next data hserver =>
      obtain ⟨hinbox, houtputs, got, harrived, hdata⟩ := h
      refine ⟨?_, (kept_of_nil (by exact houtputs)).mpr ?_⟩
      · simp only [Inv, hserver]
        refine ⟨nofun, houtputs, got, ?_, hdata⟩
        rw [harrived, List.append_assoc]
      · simp [settled, hserver]
    · next data hserver =>
      obtain ⟨houtputs, got, harrived, hdata⟩ := h
      refine ⟨?_, (kept_of_nil (by exact houtputs)).mpr ?_⟩
      · simp only [Inv, hserver]
        refine ⟨houtputs, got, ?_, hdata⟩
        rw [harrived, List.append_assoc]
      · simp [settled, hserver]
    · next hserver =>
      rcases h with ⟨_, hfin'⟩ | ⟨x, houtputs, hdue⟩
      · exact absurd hfin' hfin
      · refine ⟨?_, kept_of_answer houtputs (due_append hdue bytes)⟩
        simp only [Inv, hserver]
        exact .inr ⟨x, houtputs, due_append hdue bytes⟩

theorem Connection.step_halfClose (h : c.Inv) (hkept : c.Kept) (hstep : c.Step .halfClose c') :
    c'.Inv ∧ c'.Kept := by
  cases hstep
  rw [Inv] at h
  split at h
  · next data hserver =>
    obtain ⟨_, houtputs, hgot⟩ := h
    refine ⟨?_, (kept_of_nil (by exact houtputs)).mpr ?_⟩
    · simp only [Inv, hserver]
      exact ⟨nofun, houtputs, hgot⟩
    · simp [settled, hserver]
  · next data hserver =>
    refine ⟨?_, (kept_of_nil (by exact h.1)).mpr ?_⟩
    · simp only [Inv, hserver]
      exact h
    · simp [settled, hserver]
  · next hserver =>
    refine ⟨?_, hkept.once, hkept.right, fun _ => hkept.answered ?_⟩
    · simp only [Inv, hserver]
      exact h.imp (fun h => ⟨h.1, trivial⟩) id
    · simp [settled, hserver]

/-- An event closes the connection or starts the loop. -/
theorem Connection.step_event (h : c.Inv) (hstep : c.Step .event c') :
    c'.Inv ∧ (c'.Kept ↔ c.Timely .event) := by
  rw [Step, step] at hstep
  split at hstep
  · next data hserver =>
    simp only [Inv, hserver] at h
    obtain ⟨_, houtputs, got, harrived, hdata⟩ := h
    split at hstep
    · cases hstep
    · split at hstep
      · next hrdhup =>
        cases hstep
        refine ⟨.inl ⟨houtputs, hrdhup⟩, (kept_of_nil (by exact houtputs)).trans ?_⟩
        exact ⟨fun hdue _ => hdue rfl, fun hdue _ => hdue hrdhup⟩
      · next hrdhup =>
        have htimely : c.Timely .event := fun hrdhup' => absurd hrdhup' hrdhup
        split at hstep
        · cases hstep
          refine ⟨⟨houtputs, got, harrived, hdata⟩, iff_of_true ?_ htimely⟩
          exact (kept_of_nil (by exact houtputs)).mpr nofun
        · next hin =>
          cases hstep
          have hinbox : c.inbox = [] := by
            rw [epollin, Bool.not_eq_true, Bool.or_eq_false_iff] at hin
            simpa using hin.2
          refine ⟨?_, iff_of_true ((kept_of_nil (by exact houtputs)).mpr fun _ => ?_) htimely⟩
          · simp only [Inv, hserver]
            exact ⟨fun _ => hinbox, houtputs, got, harrived, hdata⟩
          · show due c.arrived = none
            rw [harrived, hinbox, List.append_nil]
            exact hdata.due
  · cases hstep

theorem Connection.step_recv {n : Nat} (h : c.Inv) (hstep : c.Step (.recv n) c') :
    c'.Inv ∧ c'.Kept := by
  rw [Step, step] at hstep
  split at hstep
  · next data hserver =>
    simp only [Inv, hserver] at h
    obtain ⟨houtputs, got, harrived, hdata⟩ := h
    split at hstep
    · next hinbox =>
      cases hstep
      have hall : c.arrived = got := by rw [harrived, hinbox, List.append_nil]
      have hdue : due c.arrived = none := hall ▸ hdata.due
      refine ⟨?_, (kept_of_nil (by exact houtputs)).mpr fun _ => hdue⟩
      rw [Inv, afterLoop, hdata.unsent]
      cases hfin : c.fin with
      | true => exact .inl ⟨houtputs, rfl⟩
      | false => exact ⟨fun _ => hinbox, houtputs, got, harrived, hdata⟩
    · split at hstep
      · next hn =>
        cases hstep
        have hroom : (c.inbox.take n).length ≤ bufferSize - data.bufferLen - 1 := by
          rw [List.length_take]
          omega
        have hread : c.arrived = got ++ c.inbox.take n ++ c.inbox.drop n := by
          rw [harrived, List.append_assoc, List.take_append_drop]
        rcases received_cases hdata hroom with ⟨data', hreceived, hdata'⟩ | ⟨x, hreceived, hdue⟩
        · rw [hreceived, List.append_nil]
          exact ⟨⟨houtputs, _, hread, hdata'⟩, (kept_of_nil (by exact houtputs)).mpr nofun⟩
        · have hdue' : due c.arrived = some x := hread ▸ due_append hdue _
          rw [hreceived, houtputs, List.nil_append]
          exact ⟨.inr ⟨x, rfl, hdue'⟩, kept_of_answer rfl hdue'⟩
      · cases hstep
  · cases hstep

theorem Connection.step_cases (h : c.Inv) (hkept : c.Kept) (hstep : c.Step a c') :
    c'.Inv ∧ (c'.Kept ↔ c.Timely a) := by
  cases a with
  | arrive bytes =>
    obtain ⟨h', hkept'⟩ := step_arrive h hstep
    exact ⟨h', iff_of_true hkept' trivial⟩
  | halfClose =>
    obtain ⟨h', hkept'⟩ := step_halfClose h hkept hstep
    exact ⟨h', iff_of_true hkept' trivial⟩
  | event => exact step_event h hstep
  | recv n =>
    obtain ⟨h', hkept'⟩ := step_recv h hstep
    exact ⟨h', iff_of_true hkept' trivial⟩

theorem Connection.inv_accepted : Connection.accepted.Inv :=
  ⟨fun _ => rfl, rfl, [], rfl, holds_new⟩

theorem Connection.kept_accepted : Connection.accepted.Kept :=
  (kept_of_nil rfl).mpr fun _ => holds_new.due

/-- In a run the answers are given exactly as they are due if no event tells of a half-closed
connection while an answer is due. -/
theorem connection_kept_iff {trace : List (Connection × ConnectionAction)}
    (hrun : Run Connection.Step Connection.accepted trace c) :
    Always Connection.Kept trace c ↔ Steps Connection.Timely trace :=
  hrun.always_iff Connection.inv_accepted Connection.kept_accepted
    (fun _ _ _ h hkept hstep => Connection.step_cases h hkept hstep)

/-- The client half-closes after its request was read. -/
theorem connection_kept_iff_late :
    ∃ trace c, Run Connection.Step Connection.accepted trace c ∧ c.fin = true ∧
      c.outputs = [.handled (ascii "GET / 1\r\n\r\n")] ∧ Always Connection.Kept trace c := by
  have harrive : Connection.Step Connection.accepted (.arrive (ascii "GET / 1\r\n\r\n"))
    ⟨ascii "GET / 1\r\n\r\n", false, true, .waiting .new, ascii "GET / 1\r\n\r\n", []⟩ := rfl
  have hevent : Connection.Step
    ⟨ascii "GET / 1\r\n\r\n", false, true, .waiting .new, ascii "GET / 1\r\n\r\n", []⟩ .event
    ⟨ascii "GET / 1\r\n\r\n", false, false, .receiving .new, ascii "GET / 1\r\n\r\n", []⟩ := rfl
  obtain ⟨c, hrecv⟩ : ∃ c, Connection.Step
    ⟨ascii "GET / 1\r\n\r\n", false, false, .receiving .new, ascii "GET / 1\r\n\r\n", []⟩ (.recv 11) c ∧
      c.outputs = [.handled (ascii "GET / 1\r\n\r\n")] := ⟨_, rfl, by decide +kernel⟩
  have hrun := (((Run.nil.cons harrive).cons hevent).cons hrecv.1).cons
    (show Connection.Step c .halfClose _ from rfl)
  refine ⟨_, _, hrun, rfl, hrecv.2, (connection_kept_iff hrun).mpr ?_⟩
  exact List.forall_mem_cons.mpr ⟨trivial, List.forall_mem_cons.mpr ⟨trivial,
    List.forall_mem_cons.mpr ⟨nofun, List.forall_mem_cons.mpr ⟨trivial, nofun⟩⟩⟩⟩

/-- A client sends its request and half-closes before the event is delivered: the connection
is closed without an answer, and without a `recv`. -/
theorem connection_closed_unanswered :
    ∃ c, exec Connection.step [.arrive (ascii "GET / 1\r\n\r\n"), .halfClose, .event]
        Connection.accepted = some c ∧
      (∃ trace, Run Connection.Step Connection.accepted trace c) ∧ c.settled = true ∧
      c.outputs = [] ∧ c.arrived = ascii "GET / 1\r\n\r\n" ∧ ¬c.Kept := by
  have hexec : (exec Connection.step [.arrive (ascii "GET / 1\r\n\r\n"), .halfClose, .event]
      Connection.accepted).map (fun c => (c.settled, c.outputs, c.arrived)) =
        some (true, [], ascii "GET / 1\r\n\r\n") := by decide +kernel
  obtain ⟨c, hc, hstate⟩ := Option.map_eq_some_iff.mp hexec
  simp only [Prod.mk.injEq] at hstate
  obtain ⟨hsettled, houtputs, harrived⟩ := hstate
  refine ⟨c, hc, Run.nil.exec hc, hsettled, houtputs, harrived, fun hkept => ?_⟩
  have hanswered := hkept.answered hsettled
  rw [houtputs, harrived] at hanswered
  exact absurd hanswered (by decide +kernel)

end Runs

end CourseWork.WebServer
