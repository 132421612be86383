import CourseWork.Lib.Handles
import CourseWork.WebServer.Connection

/-!
# All connections of the web server

The main loop with any number of clients: the accept queue, the descriptors, the memory of the
`client_data`, and the events of one `epoll_wait`. The events hold what was ready when they
were reported, and a pointer that is used when their turn comes.
-/

namespace CourseWork.WebServer
open CLib Runs Handles

/-! ## State -/

/-- A connection in the kernel. `fin`: the client has half-closed or reset it. `edge`: it is on
the list of what is ready. `failed`: a call of the server for it failed. -/
structure Socket where
  inbox : Bytes
  fin : Bool
  edge : Bool
  failed : Bool
  arrived : Bytes
  outputs : List Output
  deriving DecidableEq

/-- `EPOLLIN` would be reported. -/
def Socket.epollin (k : Socket) : Bool := k.fin || k.inbox ≠ []

/-- A connection before anything has arrived. -/
def Socket.new : Socket := ⟨[], false, false, false, [], []⟩

/-- `struct epoll_event`, with `data` as a number: the descriptor of the server, or a pointer.
`hangup` stands for `EPOLLERR | EPOLLHUP | EPOLLRDHUP`. -/
structure EpollEvent where
  data : Nat
  epollin : Bool
  hangup : Bool
  deriving DecidableEq

/-- The server and its connections, which are numbered. A descriptor has its connection and
the pointer that it was registered with; a pointer to allocated memory has the `client_data`
with its `fd`. -/
structure EventLoop where
  sockets : Nat → Socket
  made : Nat
  queue : List Nat
  /-- An undelivered event for `server_fd`. -/
  edge : Bool
  fds : Nat → Option (Nat × Nat)
  heap : Nat → Option (Nat × ClientData)
  /-- What is left of `events`; `none` in `epoll_wait`. -/
  events : Option (List EpollEvent)
  /-- The `client_data` of the loop over `recv`. -/
  current : Option Nat

/-- `listen` was called. -/
def EventLoop.start : EventLoop :=
  ⟨fun _ => .new, 0, [], false, fun _ => none, fun _ => none, none, none⟩

/-! ## Steps -/

/-- What the calls for an accepted descriptor return. -/
inductive Setup
  | nonblockingFails
  | mallocFails
  | epollFails (p : Nat)
  | registered (p : Nat)

/-- What `accept` returns. -/
inductive Accepted
  | failed
  | fd (fd : Nat) (setup : Setup)

/-- What `recv` returns: bytes, 0 or `EAGAIN`, or another error. -/
inductive Received
  | bytes (n : Nat)
  | nothing
  | failed

/-- A step of the clients, of the kernel or of the server. -/
inductive LoopAction
  | connect
  | arrive (k : Nat) (bytes : Bytes)
  | finish (k : Nat)
  /-- `epoll_wait` returns events for `server_fd` (`none`) and for descriptors. -/
  | report (ready : List (Option Nat))
  /-- The next event; what `accept` returns if it is for `server_fd`. -/
  | next (accepted : Accepted)
  | recv (result : Received)
  | again

/-- Why there is no next state: the step cannot happen, or the server uses memory that is not
allocated, or a descriptor that is not open. -/
inductive Fault
  | disabled
  | misuse
  deriving DecidableEq

namespace EventLoop

/-- Changes a connection. -/
def modify (s : EventLoop) (k : Nat) (f : Socket → Socket) : EventLoop :=
  { s with sockets := Function.update s.sockets k (f (s.sockets k)) }

/-- The event that is reported for a descriptor, or for `server_fd`, if one is due. -/
def reportOne (serverFd : Nat) (s : EventLoop) : Option Nat → Option EpollEvent
  | none => if s.edge then some ⟨serverFd, true, false⟩ else none
  | some fd => do
    let (k, p) ← s.fds fd
    if (s.sockets k).edge then return ⟨p, (s.sockets k).epollin, (s.sockets k).fin⟩ else none

/-- A reported event is off the list. -/
def clearOne (s : EventLoop) : Option Nat → EventLoop
  | none => { s with edge := false }
  | some fd =>
    match s.fds fd with
    | some (k, _) => s.modify k fun socket => { socket with edge := false }
    | none => s

/-- `accept` and what follows it, for the first connection of the queue. The address that
`malloc` returns is not one that would be taken for `server_fd`. -/
def accept (serverFd : Nat) (s : EventLoop) (k : Nat) (queue : List Nat) (fd : Nat) :
    Setup → Except Fault EventLoop
  | .registered p =>
    if s.heap p = none ∧ p % 2 ^ 32 ≠ serverFd then
      -- A ready connection gets its first event from `EPOLL_CTL_ADD`.
      .ok ({ s with
        queue := queue
        fds := Function.update s.fds fd (some (k, p))
        heap := Function.update s.heap p (some (fd, .new)) }.modify k
          fun socket => { socket with edge := socket.epollin })
    else .error .disabled
  | _ => .ok ({ s with queue := queue }.modify k fun socket => { socket with failed := true })

/-- `epoll_ctl`, `close` and `free`. -/
def close (s : EventLoop) (fd p : Nat) : EventLoop :=
  { s with fds := Function.update s.fds fd none, heap := Function.update s.heap p none }

/-- The body of the loop over the events. An event of a client is taken for one of `server_fd`
if the lower half of its pointer is that number. -/
def next (serverFd : Nat) (s : EventLoop) (e : EpollEvent) (accepted : Accepted) :
    Except Fault EventLoop :=
  if e.data % 2 ^ 32 = serverFd then
    match accepted, s.queue with
    | .failed, _ => .ok s
    | .fd _ _, [] => .error .disabled
    | .fd fd setup, k :: queue =>
      if s.fds fd = none ∧ fd ≠ serverFd then accept serverFd s k queue fd setup else .error .disabled
  else
    match s.heap e.data with
    | none => .error .misuse
    | some (fd, _) =>
      if e.hangup then
        if s.fds fd = none then .error .misuse else .ok (s.close fd e.data)
      else if e.epollin then .ok { s with current := some e.data }
      else .ok s

/-- One `recv` for the `client_data` at `p`, and the rest of the body of its loop. -/
def recv (s : EventLoop) (p : Nat) (result : Received) : Except Fault EventLoop :=
  match s.heap p with
  | none => .error .misuse
  | some (fd, data) =>
    match s.fds fd with
    | none => .error .misuse
    | some (k, _) =>
      let inbox := (s.sockets k).inbox
      match result with
      | .bytes n =>
        if 0 < n ∧ n ≤ inbox.length ∧ n ≤ bufferSize - data.bufferLen - 1 then
          let s := s.modify k fun socket => { socket with
            inbox := inbox.drop n
            outputs := socket.outputs ++ (received data (inbox.take n)).2 }
          match (received data (inbox.take n)).1 with
          | .closed => .ok { s.close fd p with current := none }
          | .receiving data | .waiting data =>
            .ok { s with heap := Function.update s.heap p (some (fd, data)) }
        else .error .disabled
      | .nothing =>
        if inbox = [] then
          match afterLoop data (s.sockets k).fin with
          | .closed => .ok { s.close fd p with current := none }
          | _ => .ok { s with current := none }
        else .error .disabled
      | .failed =>
        let s := s.modify k fun socket => { socket with failed := true }
        match afterLoop data true with
        | .closed => .ok { s.close fd p with current := none }
        | _ => .ok { s with current := none }

/-- One step. -/
def step (serverFd : Nat) (s : EventLoop) : LoopAction → Except Fault EventLoop
  | .connect =>
    .ok { s with made := s.made + 1, queue := s.queue ++ [s.made], edge := true }
  | .arrive k bytes =>
    if k < s.made ∧ (s.sockets k).fin = false then
      .ok (s.modify k fun socket => { socket with
        inbox := socket.inbox ++ bytes
        arrived := socket.arrived ++ bytes
        edge := true })
    else .error .disabled
  | .finish k =>
    if k < s.made then .ok (s.modify k fun socket => { socket with fin := true, edge := true })
    else .error .disabled
  | .report ready =>
    if s.events = none ∧ ready.Nodup ∧ 0 < ready.length ∧ ready.length ≤ 1024 then
      match ready.mapM (s.reportOne serverFd) with
      | some events => .ok { ready.foldl clearOne s with events := some events }
      | none => .error .disabled
    else .error .disabled
  | .next accepted =>
    match s.current, s.events with
    | none, some (e :: events) => next serverFd { s with events := some events } e accepted
    | _, _ => .error .disabled
  | .recv result =>
    match s.current with
    | some p => s.recv p result
    | none => .error .disabled
  | .again =>
    match s.current, s.events with
    | none, some [] => .ok { s with events := none }
    | _, _ => .error .disabled

/-- A step relation for the runs. -/
def Step (serverFd : Nat) (s : EventLoop) (a : LoopAction) (s' : EventLoop) : Prop :=
  (step serverFd s a).toOption = some s'

end EventLoop

/-! ## What holds between the steps -/

/-- No answer was given, and the data hold what was read. -/
def Socket.Waits (k : Socket) (data : ClientData) : Prop :=
  k.outputs = [] ∧ ∃ got, k.arrived = got ++ k.inbox ∧ data.Holds got

/-- The connection got the answer that was due, or it was given up. -/
def Socket.Finished (k : Socket) : Prop :=
  (k.outputs = [] ∧ (k.fin = true ∨ k.failed = true)) ∨
    ∃ x, k.outputs = [x] ∧ due k.arrived = some x

namespace EventLoop

/-- The connection has no descriptor. -/
def Unopened (s : EventLoop) (k : Nat) : Prop := ∀ fd p, s.fds fd ≠ some (k, p)

/-- The descriptors and the allocated memory belong together, each connection is in one phase,
no event refers to freed memory, and what was read is in the buffers. -/
structure Inv (serverFd : Nat) (s : EventLoop) : Prop where
  paired : Paired s.fds s.heap
  low : ∀ {p r}, s.heap p = some r → p % 2 ^ 32 ≠ serverFd
  live : ∀ e ∈ s.events.getD [], e.data % 2 ^ 32 = serverFd ∨ ∃ r, s.heap e.data = some r
  nodup : ((s.events.getD []).map (·.data)).Nodup
  hung : ∀ e ∈ s.events.getD [], e.hangup = true →
    ∀ {fd k}, s.fds fd = some (k, e.data) → (s.sockets k).fin = true
  current : ∀ {p}, s.current = some p →
    (∃ r, s.heap p = some r) ∧ s.events ≠ none ∧ p ∉ (s.events.getD []).map (·.data)
  queueNodup : s.queue.Nodup
  queued : ∀ k ∈ s.queue, k < s.made ∧ s.Unopened k ∧ (s.sockets k).Waits .new
  opened : ∀ {fd k p data}, s.fds fd = some (k, p) → s.heap p = some (fd, data) →
    k < s.made ∧ (s.sockets k).Waits data
  gone : ∀ k, k < s.made → k ∉ s.queue → s.Unopened k → (s.sockets k).Finished
  unmade : ∀ k, s.made ≤ k → s.sockets k = .new

/-- What is ready at a descriptor has an event, or is being read. -/
def Awake (s : EventLoop) : Prop :=
  ∀ fd k p, s.fds fd = some (k, p) → (s.sockets k).epollin = true →
    (s.sockets k).edge = true ∨ s.current = some p ∨
      ∃ e ∈ s.events.getD [], e.data = p ∧ (e.epollin = true ∨ e.hangup = true)

/-- A step is no misuse, and keeps what holds. -/
def Keeps (serverFd : Nat) (r : Except Fault EventLoop) : Prop :=
  match r with
  | .ok s => s.Inv serverFd ∧ s.Awake
  | .error fault => fault = .disabled

theorem inv_start (serverFd : Nat) : EventLoop.start.Inv serverFd where
  paired := .none
  low h := nomatch h
  live _ h := nomatch h
  hung _ h := nomatch h
  nodup := .nil
  current h := nomatch h
  queueNodup := .nil
  queued _ h := nomatch h
  opened h := nomatch h
  gone _ h := nomatch h
  unmade _ _ := rfl

theorem awake_start : EventLoop.start.Awake := fun _ _ _ h => nomatch h

section Steps

variable {serverFd : Nat} {s s' : EventLoop}

@[simp] theorem modify_sockets_self (s : EventLoop) (k : Nat) (f : Socket → Socket) :
    (s.modify k f).sockets k = f (s.sockets k) := Function.update_self k _ _

theorem modify_sockets_ne (s : EventLoop) {j k : Nat} (f : Socket → Socket) (h : j ≠ k) :
    (s.modify k f).sockets j = s.sockets j := Function.update_of_ne h _ _

theorem modify_self (s : EventLoop) (k : Nat) : s.modify k (fun socket => socket) = s := by
  rw [modify, Function.update_eq_self]

/-- A change of one connection that keeps its phase. -/
theorem Inv.modify (h : s.Inv serverFd) {k : Nat} {f : Socket → Socket} (hk : k < s.made)
    (hwaits : ∀ data, (s.sockets k).Waits data → (f (s.sockets k)).Waits data)
    (hfinished : (s.sockets k).Finished → (f (s.sockets k)).Finished)
    (hfin : (s.sockets k).fin = true → (f (s.sockets k)).fin = true) :
    (s.modify k f).Inv serverFd where
  paired := h.paired
  low := h.low
  live := h.live
  nodup := h.nodup
  hung e he hhangup {fd j} hfd := by
    have hj := h.hung e he hhangup hfd
    rcases eq_or_ne j k with rfl | hne
    · rw [modify_sockets_self]
      exact hfin hj
    · rwa [modify_sockets_ne _ _ hne]
  current := h.current
  queueNodup := h.queueNodup
  queued j hj := by
    obtain ⟨hmade, hunopened, hj'⟩ := h.queued j hj
    refine ⟨hmade, hunopened, ?_⟩
    rcases eq_or_ne j k with rfl | hne
    · rw [modify_sockets_self]
      exact hwaits _ hj'
    · rwa [modify_sockets_ne _ _ hne]
  opened {fd j p data} hfd hp := by
    obtain ⟨hmade, hj⟩ := h.opened hfd hp
    refine ⟨hmade, ?_⟩
    rcases eq_or_ne j k with rfl | hne
    · rw [modify_sockets_self]
      exact hwaits _ hj
    · rwa [modify_sockets_ne _ _ hne]
  gone j hmade hqueue hunopened := by
    have hj := h.gone j hmade hqueue hunopened
    rcases eq_or_ne j k with rfl | hne
    · rw [modify_sockets_self]
      exact hfinished hj
    · rwa [modify_sockets_ne _ _ hne]
  unmade j hj := by
    have hne : j ≠ k := Nat.ne_of_gt (Nat.lt_of_lt_of_le hk hj)
    rw [modify_sockets_ne _ _ hne]
    exact h.unmade j hj

/-- A change that puts the connection on the list of what is ready. -/
theorem Awake.modify (h : s.Awake) {k : Nat} {f : Socket → Socket}
    (hready : (f (s.sockets k)).edge = true) : (s.modify k f).Awake := by
  intro fd j p hfd hin
  rcases eq_or_ne j k with rfl | hne
  · rw [modify_sockets_self]
    exact .inl hready
  · rw [modify_sockets_ne _ _ hne] at hin ⊢
    exact h _ _ _ hfd hin

theorem Inv.connect (h : s.Inv serverFd) (hawake : s.Awake) :
    Keeps serverFd (step serverFd s .connect) := by
  have hnew : s.made ∉ s.queue := fun hmem => absurd (h.queued _ hmem).1 (Nat.lt_irrefl _)
  have hunopened : s.Unopened s.made := by
    intro fd p hfd
    obtain ⟨data, hp⟩ := h.paired.known hfd
    exact absurd (h.opened hfd hp).1 (Nat.lt_irrefl _)
  refine ⟨{ h with queueNodup := ?_, queued := ?_, opened := ?_, gone := ?_, unmade := ?_ },
    hawake⟩
  · exact List.nodup_append.mpr ⟨h.queueNodup, List.nodup_singleton _, fun a ha b hb heq =>
      hnew (List.mem_singleton.mp hb ▸ heq ▸ ha)⟩
  · intro k hk
    rcases List.mem_append.mp hk with hk | hk
    · obtain ⟨hmade, hk⟩ := h.queued k hk
      exact ⟨Nat.lt_succ_of_lt hmade, hk⟩
    · obtain rfl := List.mem_singleton.mp hk
      refine ⟨Nat.lt_succ_self _, hunopened, ?_⟩
      dsimp only
      rw [h.unmade _ (Nat.le_refl _)]
      exact ⟨rfl, [], rfl, holds_new⟩
  · intro fd k p data hfd hp
    obtain ⟨hmade, hk⟩ := h.opened hfd hp
    exact ⟨Nat.lt_succ_of_lt hmade, hk⟩
  · intro k hk hqueue hunopened'
    dsimp only at hk hqueue
    rw [List.mem_append, List.mem_singleton, not_or] at hqueue
    exact h.gone k (by omega) hqueue.1 hunopened'
  · exact fun k hk => h.unmade k (Nat.le_of_succ_le hk)

theorem Inv.arrive (h : s.Inv serverFd) (hawake : s.Awake) (k : Nat) (bytes : Bytes) :
    Keeps serverFd (step serverFd s (.arrive k bytes)) := by
  rw [step]
  split
  · next hk =>
    refine ⟨h.modify hk.1 (fun data hwaits => ?_) (fun hfinished => ?_) fun hfin => hfin,
      hawake.modify rfl⟩
    · obtain ⟨houtputs, got, harrived, hdata⟩ := hwaits
      exact ⟨houtputs, got, by rw [harrived, List.append_assoc], hdata⟩
    · exact hfinished.imp id fun ⟨x, houtputs, hdue⟩ => ⟨x, houtputs, due_append hdue bytes⟩
  · exact rfl

theorem Inv.finish (h : s.Inv serverFd) (hawake : s.Awake) (k : Nat) :
    Keeps serverFd (step serverFd s (.finish k)) := by
  rw [step]
  split
  · next hk =>
    exact ⟨h.modify hk (fun _ hwaits => hwaits)
      (fun hfinished => hfinished.imp (fun hx => ⟨hx.1, .inl rfl⟩) id) fun _ => rfl,
      hawake.modify rfl⟩
  · exact rfl

/-! ### Reports -/

theorem map_eq_of_mapM {α β : Type} {f : α → Option β} : ∀ {as : List α} {bs : List β},
    as.mapM f = some bs → as.map f = bs.map some
  | [], _, h => by
    cases h
    rfl
  | a :: as, _, h => by
    rw [List.mapM_cons] at h
    obtain ⟨b, hb, h⟩ := Option.bind_eq_some_iff.mp h
    obtain ⟨bs, hbs, h⟩ := Option.bind_eq_some_iff.mp h
    cases h
    rw [List.map_cons, List.map_cons, hb, map_eq_of_mapM hbs]

/-- Only the list of what is ready changes. -/
structure Cleared (s : EventLoop) (ready : List (Option Nat)) (s' : EventLoop) : Prop where
  fds : s'.fds = s.fds
  heap : s'.heap = s.heap
  current : s'.current = s.current
  queue : s'.queue = s.queue
  made : s'.made = s.made
  same : ∀ k, s'.sockets k = { s.sockets k with edge := (s'.sockets k).edge }
  still : ∀ k, (s'.sockets k).edge = true → (s.sockets k).edge = true
  edge : ∀ k, (s.sockets k).edge = true →
    (s'.sockets k).edge = true ∨ ∃ fd p, s.fds fd = some (k, p) ∧ some fd ∈ ready

theorem cleared_one (s : EventLoop) (r : Option Nat) : Cleared s [r] (s.clearOne r) := by
  cases r with
  | none => exact ⟨rfl, rfl, rfl, rfl, rfl, fun _ => rfl, fun _ h => h, fun _ h => .inl h⟩
  | some fd =>
    rw [clearOne]
    split
    · next k p hfd =>
      refine ⟨rfl, rfl, rfl, rfl, rfl, fun j => ?_, fun j hedge => ?_, fun j hedge => ?_⟩
      · rcases eq_or_ne j k with rfl | hne
        · rw [modify_sockets_self]
        · rw [modify_sockets_ne _ _ hne]
      · rcases eq_or_ne j k with rfl | hne
        · rw [modify_sockets_self] at hedge
          exact nomatch hedge
        · rwa [modify_sockets_ne _ _ hne] at hedge
      · rcases eq_or_ne j k with rfl | hne
        · exact .inr ⟨fd, p, hfd, List.mem_singleton_self _⟩
        · rw [modify_sockets_ne _ _ hne]
          exact .inl hedge
    · exact ⟨rfl, rfl, rfl, rfl, rfl, fun _ => rfl, fun _ h => h, fun _ h => .inl h⟩

theorem cleared (ready : List (Option Nat)) : ∀ s : EventLoop,
    Cleared s ready (ready.foldl clearOne s) := by
  induction ready with
  | nil => exact fun s => ⟨rfl, rfl, rfl, rfl, rfl, fun _ => rfl, fun _ h => h, fun _ h => .inl h⟩
  | cons r ready ih =>
    intro s
    have h1 := cleared_one s r
    have h2 := ih (s.clearOne r)
    rw [List.foldl_cons]
    refine ⟨h2.fds.trans h1.fds, h2.heap.trans h1.heap, h2.current.trans h1.current,
      h2.queue.trans h1.queue, h2.made.trans h1.made, fun k => ?_,
      fun k hedge => h1.still k (h2.still k hedge), fun k hedge => ?_⟩
    · rw [h2.same k, h1.same k]
    · rcases h1.edge k hedge with hedge1 | ⟨fd, p, hfd, hmem⟩
      · refine (h2.edge k hedge1).imp id fun ⟨fd, p, hfd, hmem⟩ => ?_
        exact ⟨fd, p, h1.fds ▸ hfd, List.mem_cons_of_mem _ hmem⟩
      · exact .inr ⟨fd, p, hfd, List.mem_singleton.mp hmem ▸ List.mem_cons_self⟩

/-- What is reported: an event of `server_fd`, or one of a descriptor with its pointer. -/
theorem reportOne_cases {r : Option Nat} {e : EpollEvent} (h : s.reportOne serverFd r = some e) :
    (r = none ∧ e.data = serverFd) ∨ ∃ fd k p, r = some fd ∧ s.fds fd = some (k, p) ∧
      e = ⟨p, (s.sockets k).epollin, (s.sockets k).fin⟩ := by
  cases r with
  | none =>
    rw [reportOne] at h
    split at h
    · cases h
      exact .inl ⟨rfl, rfl⟩
    · cases h
  | some fd =>
    obtain ⟨⟨k, p⟩, hfd, h⟩ := Option.bind_eq_some_iff.mp h
    dsimp only at h
    split at h
    · cases h
      exact .inr ⟨fd, k, p, rfl, hfd, rfl⟩
    · cases h

/-- The pointer of a client is never the number of `server_fd`. -/
theorem Inv.ne_serverFd (h : s.Inv serverFd) (hserver : serverFd < 2 ^ 31) {fd k p : Nat}
    (hfd : s.fds fd = some (k, p)) : p ≠ serverFd := by
  rintro rfl
  obtain ⟨data, hp⟩ := h.paired.known hfd
  exact h.low hp (Nat.mod_eq_of_lt (by omega))

theorem Inv.reportOne_inj (h : s.Inv serverFd) (hserver : serverFd < 2 ^ 31) {r r' : Option Nat}
    {e e' : EpollEvent} (hr : s.reportOne serverFd r = some e)
    (hr' : s.reportOne serverFd r' = some e') (hdata : e.data = e'.data) : r = r' := by
  rcases reportOne_cases hr with ⟨rfl, hserver'⟩ | ⟨fd, k, p, rfl, hfd, rfl⟩
  · rcases reportOne_cases hr' with ⟨rfl, _⟩ | ⟨fd', k', p', rfl, hfd', rfl⟩
    · rfl
    · exact absurd (hdata.symm.trans hserver') (h.ne_serverFd hserver hfd')
  · rcases reportOne_cases hr' with ⟨rfl, hserver'⟩ | ⟨fd', k', p', rfl, hfd', rfl⟩
    · exact absurd (hdata.trans hserver') (h.ne_serverFd hserver hfd)
    · exact congrArg some (h.paired.unique hfd hfd' (.inr hdata)).1

/-- The events of one report are for different descriptors. -/
theorem Inv.nodup_of_report (h : s.Inv serverFd) (hserver : serverFd < 2 ^ 31)
    {ready : List (Option Nat)} {events : List EpollEvent}
    (hreport : ready.map (s.reportOne serverFd) = events.map some) (hnodup : ready.Nodup) :
    (events.map (·.data)).Nodup := by
  have hready : ready.Pairwise fun r r' => ∀ e e', s.reportOne serverFd r = some e →
      s.reportOne serverFd r' = some e' → e.data ≠ e'.data :=
    hnodup.imp fun hne _ _ hr hr' hdata => hne (h.reportOne_inj hserver hr hr' hdata)
  have hevents : (events.map some).Pairwise fun x x' => ∀ e e', x = some e → x' = some e' →
      e.data ≠ e'.data := by
    rw [← hreport, List.pairwise_map]
    exact hready
  rw [List.pairwise_map] at hevents
  exact List.pairwise_map.mpr (hevents.imp fun hne => hne _ _ rfl rfl)

theorem Inv.report (h : s.Inv serverFd) (hawake : s.Awake) (hserver : serverFd < 2 ^ 31)
    (ready : List (Option Nat)) : Keeps serverFd (step serverFd s (.report ready)) := by
  rw [step]
  split
  · next hguard =>
    obtain ⟨hnone, hnodup, _, _⟩ := hguard
    split
    · next events hevents =>
      have hreport := map_eq_of_mapM hevents
      have hof : ∀ e ∈ events, ∃ r ∈ ready, s.reportOne serverFd r = some e := fun e he =>
        List.mem_map.mp (hreport ▸ List.mem_map_of_mem he)
      have hto : ∀ r ∈ ready, ∃ e ∈ events, s.reportOne serverFd r = some e := fun r hr => by
        obtain ⟨e, he, heq⟩ := List.mem_map.mp (hreport ▸ List.mem_map_of_mem hr)
        exact ⟨e, he, heq.symm⟩
      have hc := cleared ready s
      generalize ready.foldl clearOne s = t at hc ⊢
      obtain ⟨sockets, made, queue, edge, fds, heap, events', current⟩ := t
      obtain ⟨hfds, hheap, hcurrent, hqueue, hmade, hsame, hstill, hedge⟩ := hc
      dsimp only at hfds hheap hcurrent hqueue hmade hsame hstill hedge
      subst hfds hheap hcurrent hqueue hmade
      have hwaits : ∀ k data, (s.sockets k).Waits data → (sockets k).Waits data := by
        intro k data hk
        rw [hsame k]
        exact hk
      refine ⟨{ h with
        live := ?_, nodup := h.nodup_of_report hserver hreport hnodup, hung := ?_, current := ?_
        queued := ?_, opened := ?_, gone := ?_, unmade := ?_ }, ?_⟩
      · intro e he
        obtain ⟨r, _, hr⟩ := hof e he
        rcases reportOne_cases hr with ⟨_, hdata⟩ | ⟨fd, k, p, rfl, hfd, rfl⟩
        · exact .inl (by rw [hdata]; exact Nat.mod_eq_of_lt (by omega))
        · obtain ⟨data, hp⟩ := h.paired.known hfd
          exact .inr ⟨_, hp⟩
      · intro e he hhangup fd k hfd
        dsimp only at hfd ⊢
        rw [hsame k]
        obtain ⟨r, _, hr⟩ := hof e he
        rcases reportOne_cases hr with ⟨_, hdata⟩ | ⟨fd', k', p, rfl, hfd', rfl⟩
        · exact absurd hdata (h.ne_serverFd hserver hfd)
        · obtain ⟨_, rfl, _⟩ := h.paired.unique hfd hfd' (.inr rfl)
          exact hhangup
      · exact fun hp => absurd hnone (h.current hp).2.1
      · intro k hk
        obtain ⟨hk', hunopened, hw⟩ := h.queued k hk
        exact ⟨hk', hunopened, hwaits k _ hw⟩
      · intro fd k p data hfd hp
        obtain ⟨hk', hw⟩ := h.opened hfd hp
        exact ⟨hk', hwaits k _ hw⟩
      · intro k hk hqueue hunopened
        dsimp only
        rw [hsame k]
        exact h.gone k hk hqueue hunopened
      · intro k hk
        have hnew := h.unmade k hk
        have hoff : (sockets k).edge = false := by
          rw [Bool.eq_false_iff]
          intro hon
          have := hstill k hon
          rw [hnew] at this
          exact nomatch this
        dsimp only
        rw [hsame k, hnew, hoff]
        rfl
      · intro fd k p hfd hin
        dsimp only at hfd hin ⊢
        have hin' : (s.sockets k).epollin = true := by
          rw [hsame k] at hin
          exact hin
        rcases hawake _ _ _ hfd hin' with hon | hcur | ⟨e, he, _⟩
        · rcases hedge k hon with hon | ⟨fd', p', hfd', hmem⟩
          · exact .inl hon
          · obtain rfl := h.paired.one hfd hfd'
            obtain ⟨e, he, hr⟩ := hto _ hmem
            rcases reportOne_cases hr with ⟨hsome, _⟩ | ⟨fd2, k2, p2, hsome, hfd2, rfl⟩
            · exact nomatch hsome
            · obtain rfl := Option.some.inj hsome
              obtain ⟨rfl, rfl⟩ := Prod.mk.inj (Option.some.inj (hfd.symm.trans hfd2))
              exact .inr (.inr ⟨_, he, rfl, .inl hin'⟩)
        · exact .inr (.inl hcur)
        · rw [hnone] at he
          exact nomatch he
    · exact rfl
  · exact rfl

end Steps

end EventLoop

end CourseWork.WebServer
