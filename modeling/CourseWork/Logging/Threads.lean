import CourseWork.Lib.Runs
import CourseWork.Logging.Logger

/-!
# Threads that log

Any number of threads in `log_message`, with a step for each `printf` function that one of them
calls. The mutex keeps their messages apart, and what is written are whole messages. A message
that is dropped is the last one that returns: its thread takes the mutex with it, and nothing is
written any more.
-/

namespace CourseWork.Logging
open CLib Runs

/-- The lines of `print_backtrace`. -/
def backtracePieces (symbols : Option (List Bytes)) : List Bytes :=
  match symbols with
  | none => []
  | some symbols => ascii "Backtrace:\n" :: (symbols.zipIdx.drop 1).map fun (symbol, i) =>
    ascii "  " ++ (if i < 10 then [32] else []) ++ Numeral.print 10 i ++ ascii ": " ++ symbol ++
      [10]

/-- What the calls in `log_message` write, one after the other. -/
def Message.pieces (m : Message) : List Bytes :=
  (if m.isTty then [m.level.color] else []) ++
  [ascii "[" ++ m.timestamp ++ ascii "] [" ++ m.level.string ++ ascii "] [" ++ filename m.file ++
    ascii ":" ++ printInt m.line ++ ascii ":" ++ m.func ++ ascii "] ", m.text, [10]] ++
  (if m.isTty then [27 :: ascii "[0m"] else []) ++
  (if m.level = .error then backtracePieces m.symbols else [])

/-- Where a thread is: not in the logger, in front of `pthread_mutex_lock`, behind it, or with
texts that it still has to write. -/
inductive Place where
  | outside
  | waiting (m : Message)
  | checking (m : Message)
  | writing (m : Message) (rest : List Bytes)

/-- The message of the call that a thread is in. -/
def Place.message : Place → Option Message
  | .outside => none
  | .waiting m | .checking m | .writing m _ => some m

/-- The static variables, the threads, and what was written to the log file. The calls so far and
those that have returned, with whether they have written, are kept with their threads. -/
structure Threads where
  place : Nat → Place
  mutex : Option Nat
  currentLevel : LogLevel
  written : Bytes
  called : List (Nat × Message)
  returned : List (Nat × Message × Bool)

/-- Before the first call, with the log file opened. -/
def Threads.start (level : LogLevel) : Threads :=
  ⟨fun _ => .outside, none, level, [], [], []⟩

/-- What happens next: a thread calls `log_message`, a thread goes on in it, or one calls
`log_set_level`. -/
inductive ThreadAction where
  | call (t : Nat) (m : Message)
  | go (t : Nat)
  | setLevel (level : LogLevel)

namespace Threads

/-- Another place for a thread. -/
def move (s : Threads) (t : Nat) (place : Place) : Threads :=
  { s with place := fun u => if u = t then place else s.place u }

/-- The next step of a thread in `log_message`. -/
def go (s : Threads) (t : Nat) : Option Threads :=
  match s.place t with
  | .outside => none
  | .waiting m =>
    if s.mutex = none then some { s.move t (.checking m) with mutex := some t } else none
  | .checking m =>
    if m.level.value < s.currentLevel.value then
      some { s.move t .outside with returned := s.returned ++ [(t, m, false)] }
    else some (s.move t (.writing m m.pieces))
  | .writing m (text :: rest) =>
    some { s.move t (.writing m rest) with written := s.written ++ text }
  | .writing m [] =>
    some { s.move t .outside with mutex := none, returned := s.returned ++ [(t, m, true)] }

/-- The state after an action. -/
def step (s : Threads) : ThreadAction → Option Threads
  | .call t m =>
    match s.place t with
    | .outside => some { s.move t (.waiting m) with called := s.called ++ [(t, m)] }
    | _ => none
  | .go t => s.go t
  | .setLevel level => some { s with currentLevel := level }

/-- One step of a run. -/
def Step (s : Threads) (a : ThreadAction) (s' : Threads) : Prop := s.step a = some s'

/-! ## States -/

/-- The thread is between `pthread_mutex_lock` and `pthread_mutex_unlock`. -/
def Holds (s : Threads) (t : Nat) : Prop :=
  match s.place t with
  | .outside | .waiting _ => False
  | .checking _ | .writing _ _ => True

/-- The call that a thread is in. -/
def current (s : Threads) (t : Nat) : List (Nat × Message) :=
  (s.place t).message.toList.map fun m => (t, m)

/-- The messages of the calls that have written theirs. -/
def shown (s : Threads) : Bytes := (s.returned.filter (·.2.2)).flatMap (·.2.1.written)

/-- No call has been dropped. -/
def Clean (s : Threads) : Prop := ∀ r ∈ s.returned, r.2.2 = true

/-- How far the thread with the mutex is. -/
inductive Phase (s : Threads) : Prop
  | free : s.mutex = none → s.Clean → s.written = s.shown → Phase s
  | checking (t : Nat) (m : Message) : s.mutex = some t → s.place t = .checking m → s.Clean →
      s.written = s.shown → Phase s
  | writing (t : Nat) (m : Message) (done rest : List Bytes) : s.mutex = some t →
      s.place t = .writing m rest → m.pieces = done ++ rest → s.Clean →
      s.written = s.shown ++ done.flatten → Phase s
  | silenced (t : Nat) (m : Message) (before : List (Nat × Message × Bool)) :
      s.mutex = some t → ¬s.Holds t → s.returned = before ++ [(t, m, false)] →
      (∀ r ∈ before, r.2.2 = true) → s.written = s.shown → Phase s

/-- Each thread has returned from its calls but the one it is in. -/
def Accounted (s : Threads) : Prop :=
  ∀ t, s.called.filter (·.1 = t) =
    (s.returned.filter (·.1 = t)).map (fun r => (r.1, r.2.1)) ++ s.current t

/-- The invariant of all runs. -/
structure Inv (s : Threads) : Prop where
  exclusive : ∀ u, s.Holds u → s.mutex = some u
  accounted : s.Accounted
  phase : s.Phase

section Steps

variable {s s' : Threads} {t u : Nat} {m : Message} {place : Place}

theorem move_self : (s.move t place).place t = place := if_pos rfl

theorem move_of_ne (h : u ≠ t) : (s.move t place).place u = s.place u := if_neg h

/-- The cases of a step in `log_message`. -/
inductive Goes (s : Threads) (t : Nat) : Threads → Prop
  | lock (m : Message) : s.place t = .waiting m → s.mutex = none →
      Goes s t { s.move t (.checking m) with mutex := some t }
  | drop (m : Message) : s.place t = .checking m → m.level.value < s.currentLevel.value →
      Goes s t { s.move t .outside with returned := s.returned ++ [(t, m, false)] }
  | pass (m : Message) : s.place t = .checking m → Goes s t (s.move t (.writing m m.pieces))
  | print (m : Message) (text : Bytes) (rest : List Bytes) :
      s.place t = .writing m (text :: rest) →
      Goes s t { s.move t (.writing m rest) with written := s.written ++ text }
  | unlock (m : Message) : s.place t = .writing m [] →
      Goes s t { s.move t .outside with mutex := none, returned := s.returned ++ [(t, m, true)] }

theorem goes_of_go (h : s.go t = some s') : Goes s t s' := by
  rw [go] at h
  split at h
  · cases h
  · next m hplace =>
    split at h
    · next hmutex =>
      cases h
      exact .lock m hplace hmutex
    · cases h
  · next m hplace =>
    split at h
    · next hlevel =>
      cases h
      exact .drop m hplace hlevel
    · cases h
      exact .pass m hplace
  · next m text rest hplace =>
    cases h
    exact .print m text rest hplace
  · next m hplace =>
    cases h
    exact .unlock m hplace

theorem holds_of_checking (h : s.place t = .checking m) : s.Holds t := by
  rw [Holds, h]
  trivial

theorem holds_of_writing {rest : List Bytes} (h : s.place t = .writing m rest) : s.Holds t := by
  rw [Holds, h]
  trivial

theorem not_holds_outside (h : s.place t = .outside) : ¬s.Holds t := by
  rw [Holds, h]
  exact id

theorem not_holds_waiting (h : s.place t = .waiting m) : ¬s.Holds t := by
  rw [Holds, h]
  exact id

theorem holds_congr (h : s'.place u = s.place u) : s'.Holds u ↔ s.Holds u := by
  rw [Holds, Holds, h]

theorem pieces_flatten (m : Message) : m.pieces.flatten = m.written := by
  have hbacktrace : (backtracePieces m.symbols).flatten = backtrace m.symbols := by
    cases hsymbols : m.symbols with
    | none => rfl
    | some symbols => rw [backtracePieces, backtrace, List.flatten_cons, List.flatMap]
  have hlines : (if m.level = .error then backtracePieces m.symbols else []).flatten =
      if m.level = .error then backtrace m.symbols else [] := by
    split
    · exact hbacktrace
    · rfl
  rw [Message.pieces, Message.written, List.flatten_append, hlines]
  cases m.isTty <;>
  simp only [if_true, if_false, Bool.false_eq_true, List.flatten_append, List.flatten_cons,
    List.flatten_nil, List.nil_append, List.append_nil, List.append_assoc]

theorem shown_append (r : Nat × Message × Bool) (h : s'.returned = s.returned ++ [r]) :
    s'.shown = s.shown ++ if r.2.2 then r.2.1.written else [] := by
  rw [shown, shown, h, List.filter_append, List.flatMap_append]
  obtain ⟨t, m, written⟩ := r
  cases written with
  | false => rfl
  | true => exact congrArg _ (List.append_nil _)

theorem Clean.append (h : s.Clean) (t : Nat) (m : Message)
    (hreturned : s'.returned = s.returned ++ [(t, m, true)]) : s'.Clean := by
  rw [Clean, hreturned]
  exact List.forall_mem_append.mpr ⟨h, List.forall_mem_singleton.mpr rfl⟩

/-! ## What is known of a thread with the mutex -/

theorem Phase.of_none (h : s.Phase) (hmutex : s.mutex = none) : s.Clean ∧ s.written = s.shown := by
  cases h with
  | free _ hclean hwritten => exact ⟨hclean, hwritten⟩
  | checking t m hsome | writing t m done rest hsome | silenced t m before hsome =>
    rw [hmutex] at hsome
    cases hsome

theorem Inv.of_checking (h : s.Inv) (hplace : s.place t = .checking m) :
    s.mutex = some t ∧ s.Clean ∧ s.written = s.shown := by
  have hholds := holds_of_checking hplace
  have hmutex := h.exclusive t hholds
  refine ⟨hmutex, ?_⟩
  cases h.phase with
  | free hnone =>
    rw [hmutex] at hnone
    cases hnone
  | checking _ _ _ _ hclean hwritten => exact ⟨hclean, hwritten⟩
  | writing t' _ _ _ hsome hplace' =>
    obtain rfl := Option.some.inj (hmutex.symm.trans hsome)
    rw [hplace] at hplace'
    cases hplace'
  | silenced t' _ _ hsome hnot =>
    obtain rfl := Option.some.inj (hmutex.symm.trans hsome)
    exact absurd hholds hnot

theorem Inv.of_writing (h : s.Inv) {rest : List Bytes} (hplace : s.place t = .writing m rest) :
    s.mutex = some t ∧ s.Clean ∧ ∃ done, m.pieces = done ++ rest ∧
      s.written = s.shown ++ done.flatten := by
  have hholds := holds_of_writing hplace
  have hmutex := h.exclusive t hholds
  refine ⟨hmutex, ?_⟩
  cases h.phase with
  | free hnone =>
    rw [hmutex] at hnone
    cases hnone
  | checking t' _ hsome hplace' =>
    obtain rfl := Option.some.inj (hmutex.symm.trans hsome)
    rw [hplace] at hplace'
    cases hplace'
  | writing t' _ done _ hsome hplace' hpieces hclean hwritten =>
    obtain rfl := Option.some.inj (hmutex.symm.trans hsome)
    rw [hplace] at hplace'
    cases hplace'
    exact ⟨hclean, done, hpieces, hwritten⟩
  | silenced t' _ _ hsome hnot =>
    obtain rfl := Option.some.inj (hmutex.symm.trans hsome)
    exact absurd hholds hnot

/-- A thread that is outside or waits may change its place. -/
theorem Phase.of_idle (h : s.Phase) (hidle : ¬s.Holds t) (hnew : ¬(s.move t place).Holds t)
    (hplaces : s'.place = (s.move t place).place) (hmutex : s'.mutex = s.mutex)
    (hreturned : s'.returned = s.returned) (hwritten : s'.written = s.written) : s'.Phase := by
  have hshown : s'.shown = s.shown := by rw [shown, shown, hreturned]
  have hclean : s.Clean → s'.Clean := fun hclean => by rwa [Clean, hreturned]
  have hsame {u : Nat} (hu : s.Holds u) : s'.place u = s.place u := by
    rw [hplaces, move_of_ne]
    rintro rfl
    exact hidle hu
  cases h with
  | free hnone hall hshows =>
    exact .free (hmutex.trans hnone) (hclean hall) (by rw [hwritten, hshown, hshows])
  | checking u m hsome hplace hall hshows =>
    exact .checking u m (hmutex.trans hsome) ((hsame (holds_of_checking hplace)).trans hplace)
      (hclean hall) (by rw [hwritten, hshown, hshows])
  | writing u m done rest hsome hplace hpieces hall hshows =>
    exact .writing u m done rest (hmutex.trans hsome)
      ((hsame (holds_of_writing hplace)).trans hplace) hpieces (hclean hall)
      (by rw [hwritten, hshown, hshows])
  | silenced u m before hsome hnot hlast hbefore hshows =>
    refine .silenced u m before (hmutex.trans hsome) ?_ (hreturned.trans hlast) hbefore
      (by rw [hwritten, hshown, hshows])
    by_cases hu : u = t
    · rw [holds_congr (s := s.move t place) (congrFun hplaces u), hu]
      exact hnew
    · rwa [holds_congr ((congrFun hplaces u).trans (move_of_ne hu))]

/-! ## What a step keeps -/

theorem current_congr (h : s'.place u = s.place u) : s'.current u = s.current u := by
  rw [current, current, h]

theorem current_moved (hplaces : s'.place = (s.move t place).place) (hu : u ≠ t) :
    s'.current u = s.current u :=
  current_congr ((congrFun hplaces u).trans (move_of_ne hu))

theorem place_moved (hplaces : s'.place = (s.move t place).place) : s'.place t = place :=
  (congrFun hplaces t).trans move_self

/-- A thread that stays in its call. -/
theorem Accounted.stay (h : s.Accounted) (hplaces : s'.place = (s.move t place).place)
    (hcalled : s'.called = s.called) (hreturned : s'.returned = s.returned)
    (hmessage : place.message = (s.place t).message) : s'.Accounted := by
  intro u
  rw [hcalled, hreturned, h u]
  by_cases hu : u = t
  · rw [hu, current, current, place_moved hplaces, hmessage]
  · rw [current_moved hplaces hu]

/-- A thread that begins a call. -/
theorem Accounted.enter (h : s.Accounted) (hplace : s.place t = .outside)
    (hplaces : s'.place = (s.move t (.waiting m)).place)
    (hcalled : s'.called = s.called ++ [(t, m)]) (hreturned : s'.returned = s.returned) :
    s'.Accounted := by
  intro u
  rw [hcalled, hreturned, List.filter_append, h u]
  by_cases hu : u = t
  · have hbefore : s.current t = [] := by rw [current, hplace]; rfl
    have hafter : s'.current t = [(t, m)] := by rw [current, place_moved hplaces]; rfl
    rw [hu, hbefore, hafter, List.append_nil, List.filter_singleton, decide_eq_true rfl]
    rfl
  · rw [current_moved hplaces hu, List.filter_singleton, decide_eq_false (Ne.symm hu),
      cond_false, List.append_nil]

/-- A thread that returns from its call. -/
theorem Accounted.leave (h : s.Accounted) {written : Bool} (hcurrent : s.current t = [(t, m)])
    (hplaces : s'.place = (s.move t .outside).place) (hcalled : s'.called = s.called)
    (hreturned : s'.returned = s.returned ++ [(t, m, written)]) : s'.Accounted := by
  intro u
  rw [hcalled, hreturned, List.filter_append, List.map_append, h u]
  by_cases hu : u = t
  · have hafter : s'.current t = [] := by rw [current, place_moved hplaces]; rfl
    rw [hu, hcurrent, hafter, List.append_nil, List.filter_singleton, decide_eq_true rfl]
    rfl
  · rw [current_moved hplaces hu, List.filter_singleton, decide_eq_false (Ne.symm hu),
      cond_false, List.map_nil, List.append_nil]

theorem holds_moved (hplaces : s'.place = (s.move t place).place) (hu : u ≠ t) :
    s'.Holds u ↔ s.Holds u :=
  holds_congr ((congrFun hplaces u).trans (move_of_ne hu))

/-- A thread goes to a place with the mutex it has, or without a mutex to one before it. -/
theorem exclusive_moved (h : ∀ u, s.Holds u → s.mutex = some u)
    (hplaces : s'.place = (s.move t place).place) (hmutex : s'.mutex = s.mutex)
    (hmine : s'.Holds t → s.mutex = some t) : ∀ u, s'.Holds u → s'.mutex = some u := by
  intro u hu
  rw [hmutex]
  by_cases heq : u = t
  · exact heq ▸ hmine (heq ▸ hu)
  · exact h u ((holds_moved hplaces heq).mp hu)

/-- A step in `log_message`. -/
theorem Inv.goes (h : s.Inv) (hgoes : Goes s t s') : s'.Inv := by
  cases hgoes with
  | lock m hplace hmutex =>
    obtain ⟨hclean, hwritten⟩ := h.phase.of_none hmutex
    refine ⟨fun u hu => ?_, h.accounted.stay rfl rfl rfl (by rw [hplace]; rfl),
      .checking t m rfl move_self hclean hwritten⟩
    by_cases heq : u = t
    · exact congrArg some heq.symm
    · have hother := h.exclusive u ((holds_moved rfl heq).mp hu)
      rw [hmutex] at hother
      cases hother
  | drop m hplace hlevel =>
    obtain ⟨hmutex, hclean, hwritten⟩ := h.of_checking hplace
    have hcurrent : s.current t = [(t, m)] := by rw [current, hplace]; rfl
    refine ⟨exclusive_moved h.exclusive rfl rfl fun _ => hmutex,
      h.accounted.leave hcurrent rfl rfl rfl, ?_⟩
    refine .silenced t m s.returned hmutex (not_holds_outside move_self) rfl hclean ?_
    rw [shown_append _ rfl]
    exact hwritten.trans (List.append_nil _).symm
  | pass m hplace =>
    obtain ⟨hmutex, hclean, hwritten⟩ := h.of_checking hplace
    exact ⟨exclusive_moved h.exclusive rfl rfl fun _ => hmutex,
      h.accounted.stay rfl rfl rfl (by rw [hplace]; rfl),
      .writing t m [] m.pieces hmutex move_self rfl hclean
        (hwritten.trans (List.append_nil _).symm)⟩
  | print m text rest hplace =>
    obtain ⟨hmutex, hclean, done, hpieces, hwritten⟩ := h.of_writing hplace
    refine ⟨exclusive_moved h.exclusive rfl rfl fun _ => hmutex,
      h.accounted.stay rfl rfl rfl (by rw [hplace]; rfl),
      .writing t m (done ++ [text]) rest hmutex move_self ?_ hclean ?_⟩
    · rw [hpieces, List.append_assoc, List.singleton_append]
    · show s.written ++ text = s.shown ++ (done ++ [text]).flatten
      rw [hwritten, List.flatten_append, List.flatten_singleton, List.append_assoc]
  | unlock m hplace =>
    obtain ⟨hmutex, hclean, done, hpieces, hwritten⟩ := h.of_writing hplace
    have hcurrent : s.current t = [(t, m)] := by rw [current, hplace]; rfl
    refine ⟨fun u hu => ?_, h.accounted.leave hcurrent rfl rfl rfl, ?_⟩
    · by_cases heq : u = t
      · rw [heq] at hu
        exact absurd hu (not_holds_outside move_self)
      · have hother := h.exclusive u ((holds_moved rfl heq).mp hu)
        exact absurd (Option.some.inj (hother.symm.trans hmutex)) heq
    · refine .free rfl (hclean.append t m rfl) ?_
      rw [shown_append _ rfl]
      show s.written = s.shown ++ m.written
      rw [hwritten, ← pieces_flatten m, hpieces, List.append_nil]

theorem Inv.step (h : s.Inv) {a : ThreadAction} (hstep : s.Step a s') : s'.Inv := by
  cases a with
  | call t m =>
    rw [Step, Threads.step] at hstep
    split at hstep
    · next hplace =>
      cases hstep
      have hidle := not_holds_waiting (s := s.move t (.waiting m)) (t := t) (m := m) move_self
      refine ⟨exclusive_moved h.exclusive rfl rfl fun hu => absurd hu hidle,
        h.accounted.enter hplace rfl rfl rfl, ?_⟩
      exact h.phase.of_idle (not_holds_outside hplace) hidle rfl rfl rfl rfl
    · cases hstep
  | go t => exact h.goes (goes_of_go hstep)
  | setLevel level =>
    cases hstep
    refine ⟨h.exclusive, h.accounted, ?_⟩
    cases h.phase with
    | free hnone hall hshows => exact .free hnone hall hshows
    | checking u m hsome hplace hall hshows => exact .checking u m hsome hplace hall hshows
    | writing u m done rest hsome hplace hpieces hall hshows =>
      exact .writing u m done rest hsome hplace hpieces hall hshows
    | silenced u m before hsome hnot hlast hbefore hshows =>
      exact .silenced u m before hsome hnot hlast hbefore hshows

theorem inv_start (level : LogLevel) : (start level).Inv where
  exclusive _ hu := absurd hu id
  accounted _ := rfl
  phase := .free rfl (fun _ hr => absurd hr List.not_mem_nil) rfl

theorem run_inv {level : LogLevel} {trace : List (Threads × ThreadAction)}
    (hrun : Run Step (start level) trace s) : s.Inv :=
  hrun.invariant (I := Inv) (C := fun _ _ => True) (inv_start level)
    (fun _ _ _ h _ hstep => h.step hstep) fun _ _ => trivial

end Steps

/-! ## Runs -/

/-- What holds in every state of every run. -/
structure Sound (s : Threads) : Prop where
  whole : ∃ part, s.written = s.shown ++ part ∧
    (part = [] ∨ ∃ t m rest, s.place t = .writing m rest ∧ part ++ rest.flatten = m.written)
  alone : ∀ t u, s.Holds t → s.Holds u → t = u
  kept : s.Accounted
  last : ∀ before t m after, s.returned = before ++ (t, m, false) :: after →
    after = [] ∧ s.written = s.shown ∧ ∀ u, ¬s.Holds u
  live : s.Clean → ∀ t, s.place t ≠ .outside → ∃ u, (s.go u).isSome

section Runs

variable {s s' : Threads} {t : Nat} {m : Message} {level : LogLevel}
  {trace trace' : List (Threads × ThreadAction)}

theorem go_isSome_of_waiting (hplace : s.place t = .waiting m) (hmutex : s.mutex = none) :
    (s.go t).isSome := by
  rw [go, hplace]
  dsimp only
  rw [if_pos hmutex]
  rfl

theorem go_isSome_of_checking (hplace : s.place t = .checking m) : (s.go t).isSome := by
  rw [go, hplace]
  dsimp only
  split <;> rfl

theorem go_isSome_of_writing {rest : List Bytes} (hplace : s.place t = .writing m rest) :
    (s.go t).isSome := by
  rw [go, hplace]
  cases rest <;> rfl

theorem Inv.live (h : s.Inv) (hclean : s.Clean) (hplace : s.place t ≠ .outside) :
    ∃ u, (s.go u).isSome := by
  cases h.phase with
  | free hnone =>
    cases hmine : s.place t with
    | outside => exact absurd hmine hplace
    | waiting m => exact ⟨t, go_isSome_of_waiting hmine hnone⟩
    | checking m => exact ⟨t, go_isSome_of_checking hmine⟩
    | writing m rest => exact ⟨t, go_isSome_of_writing hmine⟩
  | checking u m _ hmine => exact ⟨u, go_isSome_of_checking hmine⟩
  | writing u m _ _ _ hmine => exact ⟨u, go_isSome_of_writing hmine⟩
  | silenced u m before _ _ hlast =>
    have hfalse := hclean (u, m, false) (hlast ▸ List.mem_append_right _ List.mem_cons_self)
    cases hfalse

/-- A thread that has been dropped has the mutex, and it is the last that has returned. -/
theorem Inv.silenced (h : s.Inv) {r : Nat × Message × Bool} (hr : r ∈ s.returned)
    (hdrop : r.2.2 = false) :
    ∃ t m before, s.mutex = some t ∧ ¬s.Holds t ∧ s.returned = before ++ [(t, m, false)] ∧
      (∀ r ∈ before, r.2.2 = true) ∧ s.written = s.shown := by
  have hnot (hclean : s.Clean) : False := by
    have htrue := hclean r hr
    rw [hdrop] at htrue
    cases htrue
  cases h.phase with
  | free _ hclean => exact (hnot hclean).elim
  | checking _ _ _ _ hclean => exact (hnot hclean).elim
  | writing _ _ _ _ _ _ _ hclean => exact (hnot hclean).elim
  | silenced t m before hmutex hidle hlast hbefore hwritten =>
    exact ⟨t, m, before, hmutex, hidle, hlast, hbefore, hwritten⟩

theorem Inv.not_holds (h : s.Inv) (hmutex : s.mutex = some t) (hidle : ¬s.Holds t) (u : Nat) :
    ¬s.Holds u := by
  intro hu
  have heq := Option.some.inj ((h.exclusive u hu).symm.trans hmutex)
  exact hidle (heq ▸ hu)

/-- A dropped call has no call behind it. -/
theorem eq_nil_of_last {before before' after : List (Nat × Message × Bool)}
    {r r' : Nat × Message × Bool} (hbefore : ∀ r ∈ before, r.2.2 = true) (hdrop : r'.2.2 = false)
    (h : before ++ [r] = before' ++ r' :: after) : after = [] := by
  rcases List.append_eq_append_iff.mp h with ⟨mid, hmid, hrest⟩ | ⟨mid, hmid, hrest⟩
  · cases mid with
    | nil => exact (List.cons.inj hrest).2.symm
    | cons x mid => exact absurd (List.cons.inj hrest).2.symm (by simp)
  · cases mid with
    | nil => exact (List.cons.inj hrest).2
    | cons x mid =>
      have hx : x = r' := (List.cons.inj hrest).1.symm
      have htrue := hbefore x (hmid ▸ List.mem_append_right _ List.mem_cons_self)
      rw [hx, hdrop] at htrue
      cases htrue

/-- In every interleaving of any number of threads the log is made of whole messages, one for
each call that has returned, in the order in which they return, and the beginning of at most one
more. A thread gets on as long as no call was dropped, and a dropped call is the last one that
returns. -/
theorem logger_whole (hrun : Run Step (start level) trace s) : s.Sound := by
  have h := run_inv hrun
  refine ⟨?_, fun t u ht hu => ?_, h.accounted, fun before t m after hreturned => ?_,
    fun hclean t hplace => h.live hclean hplace⟩
  · cases h.phase with
    | free _ _ hwritten => exact ⟨[], hwritten.trans (List.append_nil _).symm, .inl rfl⟩
    | checking _ _ _ _ _ hwritten => exact ⟨[], hwritten.trans (List.append_nil _).symm, .inl rfl⟩
    | writing t m done rest _ hplace hpieces _ hwritten =>
      refine ⟨done.flatten, hwritten, .inr ⟨t, m, rest, hplace, ?_⟩⟩
      rw [← List.flatten_append, ← hpieces, pieces_flatten]
    | silenced _ _ _ _ _ _ _ hwritten =>
      exact ⟨[], hwritten.trans (List.append_nil _).symm, .inl rfl⟩
  · exact Option.some.inj ((h.exclusive t ht).symm.trans (h.exclusive u hu))
  · obtain ⟨t', m', before', hmutex, hidle, hlast, hbefore, hwritten⟩ :=
      h.silenced (hreturned ▸ List.mem_append_right _ List.mem_cons_self) rfl
    exact ⟨eq_nil_of_last hbefore rfl (hlast.symm.trans hreturned), hwritten,
      h.not_holds hmutex hidle⟩

/-- Two threads at once: the second one waits while the first one writes. -/
def twoThreads : List ThreadAction :=
  [.call 0 debugMessage, .call 1 debugMessage, .go 0, .go 0, .go 0, .go 0, .go 0, .go 0, .go 1]

theorem logger_whole_two : ∃ s, exec step twoThreads (start .debug) = some s ∧ s.Sound ∧
    s.written = debugMessage.written := by
  obtain ⟨s, hexec, hwritten⟩ : ∃ s, exec step twoThreads (start .debug) = some s ∧
      s.written = debugMessage.written := ⟨_, rfl, rfl⟩
  obtain ⟨trace, hrun⟩ := Run.exec .nil hexec
  exact ⟨s, hexec, logger_whole hrun, hwritten⟩

/-- What stays for ever once a call was dropped. -/
structure Silenced (s s' : Threads) : Prop where
  inv : s'.Inv
  written : s'.written = s.written
  returned : s'.returned = s.returned
  mutex : s'.mutex = s.mutex
  idle : ∀ u, ¬s'.Holds u

theorem Silenced.step {s'' : Threads} {a : ThreadAction} (h : Silenced s s')
    (hmutex : s.mutex = some t) (hstep : s'.Step a s'') : Silenced s s'' := by
  have hinv := h.inv.step hstep
  have hidle (hsame : s''.mutex = s'.mutex) (ht : ¬s''.Holds t) (u : Nat) : ¬s''.Holds u :=
    hinv.not_holds (hsame.trans (h.mutex.trans hmutex)) ht u
  cases a with
  | call u m =>
    rw [Step, Threads.step] at hstep
    split at hstep
    · next hplace =>
      cases hstep
      refine ⟨hinv, h.written, h.returned, h.mutex, hidle rfl ?_⟩
      by_cases heq : t = u
      · rw [heq]
        exact not_holds_waiting move_self
      · exact mt (holds_moved rfl heq).mp (h.idle t)
    · cases hstep
  | go u =>
    exfalso
    cases goes_of_go hstep with
    | lock m hplace hnone =>
      rw [h.mutex, hmutex] at hnone
      cases hnone
    | drop m hplace => exact h.idle u (holds_of_checking hplace)
    | pass m hplace => exact h.idle u (holds_of_checking hplace)
    | print m text rest hplace => exact h.idle u (holds_of_writing hplace)
    | unlock m hplace => exact h.idle u (holds_of_writing hplace)
  | setLevel level =>
    cases hstep
    exact ⟨hinv, h.written, h.returned, h.mutex, h.idle⟩

/-- Once a message below the level was dropped, nothing is ever written again, no call ever
returns, and every thread that is in the logger waits for ever. -/
theorem logger_silenced (hrun : Run Step (start level) trace s)
    (hdrop : ∃ r ∈ s.returned, r.2.2 = false) (hmore : Run Step s trace' s') :
    s'.written = s.written ∧ s'.returned = s.returned ∧
      ∀ t, s'.place t ≠ .outside → (∃ m, s'.place t = .waiting m) ∧ s'.go t = none := by
  have hinv := run_inv hrun
  obtain ⟨r, hr, hfalse⟩ := hdrop
  obtain ⟨t, m, before, hmutex, hidle, _⟩ := hinv.silenced hr hfalse
  have h : Silenced s s' := hmore.invariant (I := Silenced s) (C := fun _ _ => True)
    ⟨hinv, rfl, rfl, rfl, hinv.not_holds hmutex hidle⟩
    (fun _ _ _ h _ hstep => h.step hmutex hstep) fun _ _ => trivial
  refine ⟨h.written, h.returned, fun u hplace => ?_⟩
  cases hmine : s'.place u with
  | outside => exact absurd hmine hplace
  | waiting m =>
    refine ⟨⟨m, rfl⟩, ?_⟩
    rw [go, hmine]
    exact if_neg (by rw [h.mutex, hmutex]; exact Option.some_ne_none t)
  | checking m => exact absurd (holds_of_checking hmine) (h.idle u)
  | writing m rest => exact absurd (holds_of_writing hmine) (h.idle u)

/-- A message below the level, and then another thread. -/
theorem logger_silenced_debug : ∃ s s', exec step [.call 0 debugMessage, .go 0, .go 0]
      (start .info) = some s ∧ exec step [.call 1 debugMessage] s = some s' ∧ s'.go 1 = none := by
  obtain ⟨s, hexec, hdrop⟩ : ∃ s, exec step [.call 0 debugMessage, .go 0, .go 0] (start .info) =
      some s ∧ ∃ r ∈ s.returned, r.2.2 = false := ⟨_, rfl, _, List.mem_singleton_self _, rfl⟩
  obtain ⟨s', hmore, hplace⟩ : ∃ s', exec step [.call 1 debugMessage] s = some s' ∧
      s'.place 1 = .waiting debugMessage := by
    cases hexec
    exact ⟨_, rfl, rfl⟩
  obtain ⟨trace, hrun⟩ := Run.exec .nil hexec
  obtain ⟨trace', hrun'⟩ := Run.exec .nil hmore
  have hinside : s'.place 1 ≠ .outside := by
    rw [hplace]
    exact Place.noConfusion
  exact ⟨s, s', hexec, hmore, ((logger_silenced hrun hdrop hrun').2.2 1 hinside).2⟩

end Runs

end Threads

end CourseWork.Logging
