import CourseWork.Lib.Runs
import Mathlib.Data.List.Count

/-!
# Accepting connections

The listening socket is edge-triggered, and the main loop accepts one connection for each
event. A connection that arrives while an event is undelivered has no event of its own.
-/

namespace CourseWork.WebServer
open Runs

/-- An entry of `events`. -/
inductive Ready
  | server
  | client
  deriving DecidableEq

/-- The accept queue, an undelivered event for `server_fd`, and the main loop: the events that
are still to be handled, or `none` in `epoll_wait`. -/
structure Listener where
  queue : Nat
  edge : Bool
  events : Option (List Ready)
  deriving DecidableEq

/-- A step of the clients, of the kernel or of the main loop. -/
inductive ListenerAction
  | arrive
  /-- `epoll_wait` returns events of clients, with or without the one for `server_fd`. -/
  | report (before : Nat) (server : Bool) (after : Nat)
  | handle (acceptFails : Bool)
  | again

/-- The events of a report. -/
def reported (before : Nat) (server : Bool) (after : Nat) : List Ready :=
  List.replicate before .client ++ (if server then [.server] else []) ++
    List.replicate after .client

/-- What one `accept` leaves in the queue. -/
def accept (queue : Nat) (fails : Bool) : Nat := if fails then queue else queue - 1

/-- One step, if it is possible. -/
def Listener.step (l : Listener) : ListenerAction → Option Listener
  | .arrive => some { l with queue := l.queue + 1, edge := true }
  | .report before server after =>
    match l.events with
    | none =>
      if !server || l.edge then
        some { l with edge := l.edge && !server, events := some (reported before server after) }
      else none
    | some _ => none
  | .handle acceptFails =>
    match l.events with
    | some (.server :: events) =>
      some { l with queue := accept l.queue acceptFails, events := some events }
    | some (.client :: events) => some { l with events := some events }
    | _ => none
  | .again =>
    match l.events with
    | some [] => some { l with events := none }
    | _ => none

/-- A step relation for the runs. -/
def Listener.Step (l : Listener) (a : ListenerAction) (l' : Listener) : Prop := l.step a = some l'

/-- The server has started to listen. -/
def Listener.start : Listener := ⟨0, false, none⟩

/-- No event is undelivered when a connection arrives, and no `accept` fails. -/
def Listener.regular (l : Listener) : ListenerAction → Bool
  | .arrive => !l.edge
  | .handle acceptFails =>
    match l.events with
    | some (.server :: _) => !acceptFails
    | _ => true
  | _ => true

/-- The events for `server_fd` that are delivered and not yet handled. -/
def Listener.delivered (l : Listener) : Nat := (l.events.getD []).count .server

/-- The steps that leave a connection without an event. -/
def irregular (trace : List (Listener × ListenerAction)) : Nat :=
  trace.countP fun x => !x.1.regular x.2

section Runs

variable {l l' : Listener} {a : ListenerAction}

theorem count_reported (before : Nat) (server : Bool) (after : Nat) :
    (reported before server after).count .server = server.toNat := by
  rw [reported, List.count_append, List.count_append, List.count_replicate, List.count_replicate]
  cases server with
  | false => rfl
  | true => rfl

/-- Every connection in the queue has an event, or was left without one. -/
theorem Listener.step_queue {n : Nat} (h : l.queue = n + l.edge.toNat + l.delivered)
    (hstep : l.Step a l') :
    l'.queue = n + (!l.regular a).toNat + l'.edge.toNat + l'.delivered := by
  obtain ⟨queue, edge, events⟩ := l
  rw [Step] at hstep
  cases a with
  | arrive =>
    cases hstep
    cases edge with
    | false =>
      simp [delivered, regular] at h ⊢
      omega
    | true =>
      simp [delivered, regular] at h ⊢
      omega
  | report before server after =>
    rw [step] at hstep
    split at hstep
    · next hevents =>
      obtain rfl : events = none := hevents
      split at hstep
      · next hserver =>
        cases hstep
        cases server with
        | false =>
          simp [delivered, regular, count_reported] at h ⊢
          omega
        | true =>
          obtain rfl : edge = true := hserver
          simp [delivered, regular, count_reported] at h ⊢
          omega
      · cases hstep
    · cases hstep
  | handle acceptFails =>
    rw [step] at hstep
    split at hstep
    · next events' hevents =>
      obtain rfl : events = some (.server :: events') := hevents
      cases hstep
      cases acceptFails with
      | false =>
        simp [delivered, regular, accept] at h ⊢
        omega
      | true =>
        simp [delivered, regular, accept] at h ⊢
        omega
    · next events' hevents =>
      obtain rfl : events = some (.client :: events') := hevents
      cases hstep
      simp [delivered, regular] at h ⊢
      omega
    · cases hstep
  | again =>
    rw [step] at hstep
    split at hstep
    · next hevents =>
      obtain rfl : events = some [] := hevents
      cases hstep
      simp [delivered, regular] at h ⊢
      omega
    · cases hstep

theorem queue_eq {trace : List (Listener × ListenerAction)}
    (hrun : Run Listener.Step Listener.start trace l) :
    l.queue = irregular trace + l.edge.toNat + l.delivered := by
  induction hrun with
  | nil => rfl
  | cons _ hstep ih =>
    rw [Listener.step_queue ih hstep, irregular, irregular, List.countP_cons]
    cases Listener.regular _ _ <;> rfl

/-- Back in `epoll_wait` without an undelivered event, the queue is empty exactly if every
connection arrived while no event was undelivered and no `accept` failed. -/
theorem queue_empty_iff {trace : List (Listener × ListenerAction)}
    (hrun : Run Listener.Step Listener.start trace l) (hwait : l.events = none)
    (hedge : l.edge = false) :
    l.queue = 0 ↔ Steps (fun l a => l.regular a = true) trace := by
  have hqueue := queue_eq hrun
  rw [Listener.delivered, hwait, hedge] at hqueue
  have hcount : l.queue = irregular trace := hqueue
  rw [hcount, irregular, List.countP_eq_zero]
  exact forall₂_congr fun x _ => by simp

/-- Three connections: the second arrives after the event for the first was reported and before it
is handled, the third between two events of clients. -/
theorem queue_empty_iff_three :
    exec Listener.step [.arrive, .report 1 true 1, .handle false, .arrive, .handle false,
        .handle false, .again, .report 0 true 2, .handle false, .handle false, .arrive,
        .handle false, .again, .report 0 true 0, .handle false, .again] Listener.start =
      some ⟨0, false, none⟩ ∧
    ∃ trace, Run Listener.Step Listener.start trace ⟨0, false, none⟩ ∧
      Steps (fun l a => l.regular a = true) trace := by
  have hexec : exec Listener.step [.arrive, .report 1 true 1, .handle false, .arrive,
      .handle false, .handle false, .again, .report 0 true 2, .handle false, .handle false, .arrive,
      .handle false, .again, .report 0 true 0, .handle false, .again] Listener.start =
        some ⟨0, false, none⟩ := rfl
  obtain ⟨trace, hrun⟩ := Run.nil.exec hexec
  exact ⟨hexec, trace, hrun, (queue_empty_iff hrun rfl rfl).mp rfl⟩

/-- Two connections arrive before `epoll_wait` returns, and one stays in the queue. -/
theorem queue_keeps_second :
    exec Listener.step [.arrive, .arrive, .report 0 true 0, .handle false, .again]
      Listener.start = some ⟨1, false, none⟩ ∧
    ∃ trace, Run Listener.Step Listener.start trace ⟨1, false, none⟩ := by
  have hexec : exec Listener.step [.arrive, .arrive, .report 0 true 0, .handle false, .again]
      Listener.start = some ⟨1, false, none⟩ := rfl
  exact ⟨hexec, Run.nil.exec hexec⟩

end Runs

end CourseWork.WebServer
